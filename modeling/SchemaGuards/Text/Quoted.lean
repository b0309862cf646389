/-!
# Names and keys in written code

A single-quoted literal escapes the backslash, the quote, the line feed and the carriage return, and
keeps every other character. An object key is bare when it is an identifier and quoted otherwise.
-/
namespace SchemaGuards.Text

def escape (c : Char) : List Char :=
  if c = '\\' then ['\\', '\\']
  else if c = '\'' then ['\\', '\'']
  else if c = '\n' then ['\\', 'n']
  else if c = '\r' then ['\\', 'r']
  else [c]

def quoteChars (cs : List Char) : List Char := '\'' :: cs.flatMap escape ++ ['\'']

/-- A text as a single-quoted literal. -/
def quote (s : String) : String := String.ofList (quoteChars s.toList)

def isIdentifierStart (c : Char) : Bool := c.isAlpha || c == '_' || c == '$'

def isIdentifierRest (c : Char) : Bool := c.isAlphanum || c == '_' || c == '$'

/-- An ASCII letter, underscore or dollar sign, followed by those and ASCII digits. -/
def isIdentifierChars : List Char → Bool
  | [] => false
  | c :: rest => isIdentifierStart c && rest.all isIdentifierRest

def isIdentifier (s : String) : Bool := isIdentifierChars s.toList

def propertyKey (name : String) : String := if isIdentifier name then name else quote name

def indexAccess (accessor name : String) : String := accessor ++ "[" ++ quote name ++ "]"

@[simp] theorem toList_quote (s : String) : (quote s).toList = quoteChars s.toList := by
  simp [quote]

theorem isIdentifierRest_of_start {c : Char} (h : isIdentifierStart c = true) : isIdentifierRest c = true := by
  unfold isIdentifierStart at h
  unfold isIdentifierRest Char.isAlphanum
  grind

theorem isIdentifierRest_of_mem {name : String} (h : isIdentifier name = true) {c : Char} (hc : c ∈ name.toList) :
    isIdentifierRest c = true := by
  unfold isIdentifier at h
  generalize name.toList = cs at h hc
  cases cs with
  | nil => cases hc
  | cons first rest =>
    simp only [isIdentifierChars, Bool.and_eq_true, List.all_eq_true] at h
    rcases List.mem_cons.1 hc with rfl | hrest
    · exact isIdentifierRest_of_start h.1
    · exact h.2 c hrest

end SchemaGuards.Text

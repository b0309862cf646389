/-!
# Blank characters, lines and pieces

Trimming removes the code points with the Unicode property White_Space and nothing else. A trimmed
text neither starts nor ends with one of them.

The lines of a text are the pieces between its line feeds: a carriage return before a line feed
belongs to the break, and nothing after the last line feed is no line.
-/
namespace SchemaGuards.Text

/-- The code points with the Unicode property White_Space. -/
def isBlank (c : Char) : Bool :=
  let n := c.toNat
  (9 ≤ n && n ≤ 13) || n == 0x20 || n == 0x85 || n == 0xA0 || n == 0x1680 ||
    (0x2000 ≤ n && n ≤ 0x200A) || n == 0x2028 || n == 0x2029 || n == 0x202F || n == 0x205F ||
    n == 0x3000

def trimLeft (cs : List Char) : List Char := cs.dropWhile isBlank

def trimRight (cs : List Char) : List Char := (cs.reverse.dropWhile isBlank).reverse

def trimBoth (cs : List Char) : List Char := trimRight (trimLeft cs)

def trim (s : String) : String := String.ofList (trimBoth s.toList)

@[simp] theorem trimLeft_nil : trimLeft [] = [] := rfl

@[simp] theorem trimRight_nil : trimRight [] = [] := rfl

theorem trimLeft_cons (c : Char) (cs : List Char) :
    trimLeft (c :: cs) = if isBlank c then trimLeft cs else c :: cs := by
  simp only [trimLeft, List.dropWhile_cons]

theorem trimRight_append_singleton (cs : List Char) (c : Char) :
    trimRight (cs ++ [c]) = if isBlank c then trimRight cs else cs ++ [c] := by
  simp only [trimRight, List.reverse_append, List.reverse_cons, List.reverse_nil, List.nil_append,
    List.cons_append, List.dropWhile_cons]
  split <;> simp

/-- A line without the carriage return that precedes its line feed. -/
def dropReturn (line : List Char) : List Char :=
  if line.getLast? = some '\r' then line.dropLast else line

/-- The lines of a text, without their breaks. -/
def lines (cs : List Char) : List (List Char) :=
  let pieces := cs.splitOn '\n'
  pieces.dropLast.map dropReturn ++ pieces.getLast?.toList.filter (fun piece => !piece.isEmpty)

/-- The pieces of a text between the occurrences of a separator; there is always at least one. -/
def splitText (separator : Char) (s : String) : List String :=
  (s.toList.splitOn separator).map String.ofList

def dotted (path : List String) : String := String.intercalate "." path

end SchemaGuards.Text

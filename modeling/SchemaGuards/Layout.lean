/-!
# Layouts

Written code is kept as fragments until the end. A soft break is a new line with indentation in the
pretty rendering and a given text in the flat one; a nested layout indents the breaks inside it by
one level. Both renderings turn appending into concatenation.
-/
namespace SchemaGuards

inductive Fragment where
  /-- Literal text. -/
  | text (content : String)
  /-- A soft break, with its text on a single line. -/
  | line (flat : String)
  /-- An indented layout. -/
  | nest (fragments : List Fragment)
deriving Repr

/-- Fragments of written code, in order. -/
abbrev Layout := List Fragment

namespace Layout

/-- A layout of one text; the empty text leaves no fragment. -/
def text (content : String) : Layout := if content = "" then [] else [.text content]

def softLine (flat : String) : Layout := [.line flat]

def nested (layout : Layout) : Layout := [.nest layout]

/-- The layouts with a separator text and a soft break between two of them. -/
def join (separator flat : String) : List Layout → Layout
  | [] => []
  | [layout] => layout
  | layout :: next :: rest => layout ++ text separator ++ softLine flat ++ join separator flat (next :: rest)

def wrapped (before after : String) (layout : Layout) : Layout := text before ++ layout ++ text after

def separated (separator : String) : List Layout → Layout
  | [] => []
  | [layout] => layout
  | layout :: next :: rest => layout ++ text separator ++ separated separator (next :: rest)

/-- Items between braces, each on a line of its own; without items, a pair of braces. -/
def block (items : List Layout) : Layout :=
  if items.isEmpty then text "\x7b\x7d"
  else text "\x7b" ++ nested (softLine "" ++ join "," " " items) ++ softLine "" ++ text "\x7d"

/-- A line break followed by two blanks for every level. -/
def lineBreak (level : Nat) : String := "\n" ++ String.ofList (List.replicate (2 * level) ' ')

mutual
def fragmentIsEmpty : Fragment → Bool
  | .text content => content = ""
  | .line flat => flat = ""
  | .nest fragments => isEmpty fragments

def isEmpty : List Fragment → Bool
  | [] => true
  | fragment :: rest => fragmentIsEmpty fragment && isEmpty rest
end

mutual
def flatFragment : Fragment → String
  | .text content => content
  | .line flat => flat
  | .nest fragments => flat fragments

/-- The rendering on a single line. -/
def flat : List Fragment → String
  | [] => ""
  | fragment :: rest => flatFragment fragment ++ flat rest
end

mutual
def prettyFragment (level : Nat) : Fragment → String
  | .text content => content
  | .line _ => lineBreak level
  | .nest fragments => prettyAt (level + 1) fragments

/-- The rendering with line breaks, starting at an indentation level. -/
def prettyAt (level : Nat) : List Fragment → String
  | [] => ""
  | fragment :: rest => prettyFragment level fragment ++ prettyAt level rest
end

def pretty (layout : Layout) : String := prettyAt 0 layout

@[simp] theorem flat_nil : flat [] = "" := by simp [flat]

@[simp] theorem flat_cons (fragment : Fragment) (rest : Layout) :
    flat (fragment :: rest) = flatFragment fragment ++ flat rest := by simp [flat]

@[simp] theorem flat_append (left right : Layout) : flat (left ++ right) = flat left ++ flat right := by
  induction left with
  | nil => simp
  | cons fragment rest ih => simp [ih, String.append_assoc]

@[simp] theorem flat_text (content : String) : flat (text content) = content := by
  unfold text
  split
  · next h => simp [h]
  · simp [flatFragment]

@[simp] theorem prettyAt_nil (level : Nat) : prettyAt level [] = "" := by simp [prettyAt]

@[simp] theorem prettyAt_cons (level : Nat) (fragment : Fragment) (rest : Layout) :
    prettyAt level (fragment :: rest) = prettyFragment level fragment ++ prettyAt level rest := by
  simp [prettyAt]

@[simp] theorem prettyAt_append (level : Nat) (left right : Layout) :
    prettyAt level (left ++ right) = prettyAt level left ++ prettyAt level right := by
  induction left with
  | nil => simp
  | cons fragment rest ih => simp [ih, String.append_assoc]

@[simp] theorem prettyAt_text (level : Nat) (content : String) : prettyAt level (text content) = content := by
  unfold text
  split
  · next h => simp [h]
  · simp [prettyFragment]

@[simp] theorem flat_wrapped (before after : String) (layout : Layout) :
    flat (wrapped before after layout) = before ++ flat layout ++ after := by
  simp [wrapped, String.append_assoc]

@[simp] theorem prettyAt_wrapped (level : Nat) (before after : String) (layout : Layout) :
    prettyAt level (wrapped before after layout) = before ++ prettyAt level layout ++ after := by
  simp [wrapped, String.append_assoc]

end Layout
end SchemaGuards

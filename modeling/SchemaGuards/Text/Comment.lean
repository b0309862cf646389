import SchemaGuards.Text.Blank

/-!
# Documentation comments

Documentation of one line stands between the comment marks, trimmed; of several lines, each on a
line of its own behind a star. A comment end inside the documentation is broken up first.
-/
namespace SchemaGuards.Text

/-- Puts a backslash between the star and the slash of every comment end. -/
def breakCommentEnds : List Char → List Char
  | '*' :: '/' :: rest => '*' :: '\\' :: '/' :: breakCommentEnds rest
  | c :: rest => c :: breakCommentEnds rest
  | [] => []

def commentLine (line : List Char) : List Char := " * ".toList ++ trimRight line ++ ['\n']

def docCommentChars (cs : List Char) : List Char :=
  let doc := breakCommentEnds cs
  let docLines := lines doc
  if docLines.length ≤ 1 then "/** ".toList ++ trimBoth doc ++ " */".toList
  else "/**\n".toList ++ docLines.flatMap commentLine ++ " */".toList

def docComment (doc : String) : String := String.ofList (docCommentChars doc.toList)

/-- Replaces every occurrence of an empty pair of braces, read from left to right. -/
def fillBraces (filling : List Char) : List Char → List Char
  | '{' :: '}' :: rest => filling ++ fillBraces filling rest
  | c :: rest => c :: fillBraces filling rest
  | [] => []

/-- A predicate template applied to the text of the value under test. -/
def fillTemplate (template filling : String) : String :=
  String.ofList (fillBraces filling.toList template.toList)

end SchemaGuards.Text

/-!
# What is wrong with a markup text

A text breaks a rule of the markup grammar, or its tags do not match. Attributes are judged on their
own, with byte positions inside their tag.
-/
namespace SchemaGuards.Markup

inductive SyntaxError where
  /-- An ampersand without its semicolon. -/
  | unclosedReference
  | unclosedTag
  /-- An exclamation mark that starts no comment, character data or document type. -/
  | unknownMarkup
  | unclosedComment
  | unclosedCharacterData
  | unclosedDoctype
  | namelessDoctype
  | unclosedInstruction
  | unclosedDeclaration
  /-- The quote of an attribute value that is open at the end of the text. -/
  | unclosedValue (quote : Char)
  /-- An end tag where no element is open. -/
  | unmatchedEnd (name : String)
  /-- An end tag of another name than the innermost open element. -/
  | mismatchedEnd (expected found : String)
deriving DecidableEq, Repr

def SyntaxError.message : SyntaxError → String
  | .unclosedReference =>
    "ill-formed document: entity or character reference not closed: `;` not found before end of input"
  | .unclosedTag => "syntax error: tag not closed: `>` not found before end of input"
  | .unknownMarkup => "syntax error: unknown or missed symbol in markup"
  | .unclosedComment => "syntax error: comment not closed: `-->` not found before end of input"
  | .unclosedCharacterData => "syntax error: CDATA not closed: `]]>` not found before end of input"
  | .unclosedDoctype => "syntax error: DOCTYPE not closed: `>` not found before end of input"
  | .namelessDoctype =>
    "ill-formed document: `<!DOCTYPE>` declaration does not contain a name of a document type"
  | .unclosedInstruction =>
    "syntax error: processing instruction not closed: `?>` not found before end of input"
  | .unclosedDeclaration => "syntax error: XML declaration not closed: `?>` not found before end of input"
  | .unclosedValue quote =>
    "syntax error: attribute value not closed: `" ++ quote.toString ++ "` not found before end of input"
  | .unmatchedEnd name => "ill-formed document: close tag `</" ++ name ++ ">` does not match any open tag"
  | .mismatchedEnd expected found =>
    "ill-formed document: expected `</" ++ expected ++ ">`, but `</" ++ found ++ ">` was found"

inductive AttributeError where
  /-- A key that no equals sign follows. -/
  | unassigned (position : Nat)
  | duplicate (position previous : Nat)
  | unvalued (position : Nat)
  | unquoted (position : Nat)
  | unclosed (position : Nat) (quote : Char)
deriving DecidableEq, Repr

def AttributeError.message : AttributeError → String
  | .unassigned position =>
    "position " ++ toString position ++ ": attribute key must be directly followed by `=` or space"
  | .duplicate position previous =>
    "position " ++ toString position ++ ": duplicated attribute, previous declaration at position " ++
      toString previous
  | .unvalued position =>
    "position " ++ toString position ++ ": `=` must be followed by an attribute value"
  | .unquoted position =>
    "position " ++ toString position ++ ": attribute value must be enclosed in `\"` or `'`"
  | .unclosed position quote =>
    "position " ++ toString position ++ ": missing closing quote `" ++ quote.toString ++
      "` in attribute value"

end SchemaGuards.Markup

import SchemaGuards.Markup.Tag

/-!
# Elements

The tags of a text nest into elements. A text that breaks a rule still has the elements that were
open at that point: each of them says that it has no end. So whoever reads the elements in order
meets what is wrong with their content before what is wrong with the text behind them.
-/
namespace SchemaGuards.Markup

inductive Ending where
  | closed
  /-- The text ends first. -/
  | unfinished
  /-- The text breaks a rule first. -/
  | broken (error : SyntaxError)
deriving DecidableEq, Repr

structure Element where
  name : String
  attributes : Attributes
  children : List Element
  ending : Ending

/-- The elements outside every other one. Character data between them does not matter. -/
structure Document where
  elements : List Element
  ending : Ending

/-- An element whose end tag is still to come, with the elements before it in reverse order. -/
structure OpenElement where
  name : String
  attributes : Attributes
  before : List Element

def Document.abandon (ending : Ending) : List OpenElement → List Element → Document
  | [], done => ⟨done.reverse, ending⟩
  | element :: outer, done =>
    abandon ending outer (⟨element.name, element.attributes, done.reverse, ending⟩ :: element.before)

/-- Nests tags; the elements already done on the present level come in reverse order. -/
def Document.nest (error : Option SyntaxError) : List OpenElement → List Element → List Tag → Document
  | opened, done, [] => abandon (error.elim .unfinished .broken) opened done
  | opened, done, .start name attributes :: tags => nest error (⟨name, attributes, done⟩ :: opened) [] tags
  | opened, done, .empty name attributes :: tags =>
    nest error opened (⟨name, attributes, [], .closed⟩ :: done) tags
  | [], done, .close name :: _ => abandon (.broken (.unmatchedEnd name)) [] done
  | element :: outer, done, .close name :: tags =>
    if name = element.name then
      nest error outer (⟨element.name, element.attributes, done.reverse, .closed⟩ :: element.before) tags
    else abandon (.broken (.mismatchedEnd element.name name)) (element :: outer) done

/-- The characters of a text; a byte order mark in front is passed over. -/
def withoutMark (s : String) : List Char :=
  match s.toList with
  | '\ufeff' :: rest => rest
  | rest => rest

def Document.ofText (s : String) : Document :=
  let (tags, error) := readTags (withoutMark s)
  nest error [] [] tags

end SchemaGuards.Markup

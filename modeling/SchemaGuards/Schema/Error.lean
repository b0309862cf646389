import SchemaGuards.Markup.Error

/-!
# What is wrong with a schema

A document is rejected for its markup, for an element or attribute that the format does not have, or
for a name that is bound twice or not at all. Validation and registration reject a schema for a name
that occurs twice, an empty namespace segment or an indexed model without elements.
-/
namespace SchemaGuards

inductive ReadError where
  | markup (error : Markup.SyntaxError)
  | attributes (error : Markup.AttributeError)
  | missingAttribute (element key : String)
  | invalidAttribute (element key value : String)
  | unknownElement (element context : String)
  /-- A type name that stands for nothing where it is used. -/
  | unknownType (name referrer : String)
  | duplicate (kind name : String)
  | malformed (message : String)
  /-- The document itself cannot be obtained. -/
  | unavailable (reason : String)
deriving DecidableEq, Repr

def ReadError.unfinished (element : String) : ReadError :=
  .malformed ("unexpected end of document inside '" ++ element ++ "'")

def ReadError.message : ReadError → String
  | .markup error => "XML parsing error: " ++ error.message
  | .attributes error => "XML attribute error: " ++ error.message
  | .missingAttribute element key =>
    "missing required attribute '" ++ key ++ "' on element '" ++ element ++ "'"
  | .invalidAttribute element key value =>
    "invalid value '" ++ value ++ "' for attribute '" ++ key ++ "' on element '" ++ element ++ "'"
  | .unknownElement element context => "unknown element '" ++ element ++ "' in context '" ++ context ++ "'"
  | .unknownType name referrer => "unknown type '" ++ name ++ "' referenced from '" ++ referrer ++ "'"
  | .duplicate kind name => "duplicate " ++ kind ++ " definition: '" ++ name ++ "'"
  | .malformed message => "invalid schema structure: " ++ message
  | .unavailable reason => "IO error: " ++ reason

inductive SchemaError where
  | reading (cause : ReadError)
  | duplicateMember (enumeration member : String)
  | duplicateProperty (model property : String)
  | missingElement (model : String)
  | emptySegment (path : String)
  | duplicateIdentity (identity : String)
  | invalid (message : String)
deriving DecidableEq, Repr

def SchemaError.message : SchemaError → String
  | .reading cause => "parse error: " ++ cause.message
  | .duplicateMember enumeration member =>
    "duplicate member '" ++ member ++ "' in enum '" ++ enumeration ++ "'"
  | .duplicateProperty model property => "duplicate property '" ++ property ++ "' in model '" ++ model ++ "'"
  | .missingElement model => "indexed model '" ++ model ++ "' has no element type"
  | .emptySegment path => "empty namespace segment in '" ++ path ++ "'"
  | .duplicateIdentity identity => "identity '" ++ identity ++ "' is registered twice"
  | .invalid message => "validation error: " ++ message

end SchemaGuards

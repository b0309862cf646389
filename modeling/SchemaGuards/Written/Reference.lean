import SchemaGuards.Schema.Registry
import SchemaGuards.Text.Quoted

/-!
# References to declarations

A declaration of another file is referred to through the alias under which its namespace is imported;
one of the same file, by its bare name. Code that belongs to no file refers to everything through an
alias. A file imports each namespace once, in the order of the first reference.
-/
namespace SchemaGuards

/-- The alias under which a namespace is imported. -/
def Scope.alias (scope : Scope) : String := String.intercalate "_" scope

def Scope.moduleName (extensions : Bool) (scope : Scope) : String :=
  "./" ++ Text.dotted scope ++ if extensions then ".js" else ""

def Scope.fileName (scope : Scope) : String := Text.dotted scope ++ ".ts"

/-- A declaration as the code of some file refers to it. -/
structure Reference where
  /-- The namespace that has to be imported, unless it is the file's own. -/
  imported : Option Scope
  name : String
deriving DecidableEq, Repr

namespace Reference

/-- Refers to an entry from the file of a namespace, or from no file. -/
def ofEntry (target : Option Scope) (entry : Entry) : Reference :=
  ⟨if target = some entry.identity.scope then none else some entry.identity.scope, entry.identity.name⟩

def qualifier (reference : Reference) : String :=
  match reference.imported with
  | some scope => Scope.alias scope ++ "."
  | none => ""

def text (reference : Reference) : String := reference.qualifier ++ reference.name

def guardName (reference : Reference) : String := reference.qualifier ++ "is" ++ reference.name

def memberText (reference : Reference) (member : String) : String :=
  if Text.isIdentifier member then reference.text ++ "." ++ member
  else "(typeof " ++ reference.text ++ ")[" ++ Text.quote member ++ "]"

end Reference

end SchemaGuards

import SchemaGuards.Schema.Graph

/-!
# Drafts

A draft is what a schema document says, with type references still written as names.
-/
namespace SchemaGuards.Draft

/-- A type as a document writes it. -/
inductive Form where
  | named (name : String)
  | indexed (kind : Indexed) (element : Form)
  | tuple (elements : List Form)
  | union (variants : List Form)
  | model (properties : List (Property Form))
  | literal (value : Primitive)
  | unsupported (kind : String)

inductive Body where
  | model (base : Option String) (properties : List (Property Form))
  | enumeration (members : List Member)
  | union (variants : List Form)
  | scalar (base : Option String)

def Body.kindName : Body → String
  | .model .. => "model"
  | .enumeration _ => "enum"
  | .union _ => "union"
  | .scalar _ => "scalar"

structure Declaration where
  name : String
  scope : Scope
  doc : Option String
  body : Body

def Declaration.qualified (declaration : Declaration) : String :=
  Text.dotted (declaration.scope ++ [declaration.name])

def Declaration.decl (declaration : Declaration) : Decl :=
  ⟨some declaration.name, declaration.scope, declaration.doc⟩

/-- What namespaces hold, each kind in document order. -/
structure Contents where
  declarations : List Declaration := []
  operations : List (Operation Form) := []

def Contents.append (first second : Contents) : Contents :=
  ⟨first.declarations ++ second.declarations, first.operations ++ second.operations⟩

instance : Append Contents := ⟨Contents.append⟩

end SchemaGuards.Draft

namespace SchemaGuards

structure Draft where
  roots : List String
  contents : Draft.Contents

end SchemaGuards

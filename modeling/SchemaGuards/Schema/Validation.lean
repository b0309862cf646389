import SchemaGuards.Schema.Error
import SchemaGuards.Schema.Graph

/-!
# Validation

A valid schema has no empty namespace segment, no enumeration with two members of one name, no model
with two properties of one name and no indexed model without elements. The first fault in the order
of the nodes is reported, those of operations last.
-/
namespace SchemaGuards

/-- The first name that also occurs before its place. -/
def firstRepeated? (earlier : List String) : List String → Option String
  | [] => none
  | name :: rest => if name ∈ earlier then some name else firstRepeated? (name :: earlier) rest

theorem firstRepeated?_eq_none_iff {earlier names : List String} :
    firstRepeated? earlier names = none ↔ names.Nodup ∧ ∀ name ∈ names, name ∉ earlier := by
  induction names generalizing earlier with
  | nil => simp [firstRepeated?]
  | cons name rest ih =>
    simp only [firstRepeated?]
    split
    · next h => simp [h]
    · next h =>
      rw [ih]
      grind

def Decl.shownName (decl : Decl) : String := decl.name.getD "<anonymous>"

def validateScope (scope : Scope) : Except SchemaError Unit :=
  if "" ∈ scope then .error (.emptySegment (Text.dotted scope)) else .ok ()

def Enumeration.validate (content : Enumeration) : Except SchemaError Unit :=
  match firstRepeated? [] (content.members.map Member.name) with
  | some name => .error (.duplicateMember content.decl.shownName name)
  | none => .ok ()

def Model.validate (model : Model) : Except SchemaError Unit :=
  if model.indexed?.isSome && model.indexer.isNone then .error (.missingElement model.decl.shownName)
  else
    match firstRepeated? [] (model.properties.map Property.name) with
    | some name => .error (.duplicateProperty model.decl.shownName name)
    | none => .ok ()

def Node.validate (node : Node) : Except SchemaError Unit := do
  validateScope node.scope
  match node with
  | .enumeration content => content.validate
  | .model content => content.validate
  | _ => pure ()

def Graph.validate (graph : Graph) : Except SchemaError Unit := do
  graph.nodes.toList.forM Node.validate
  graph.operations.forM (fun operation => validateScope operation.scope)

end SchemaGuards

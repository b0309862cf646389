import SchemaGuards.Distinct
import SchemaGuards.Schema.Error
import SchemaGuards.Schema.Graph

/-!
# The registry

The registry lists the declarations that are emitted under a name, with their identities, in the
order of their declaration. An identity is registered at most once.
-/
namespace SchemaGuards

structure Entry where
  identity : Identity
  node : NodeId
deriving DecidableEq, Repr

abbrev Registry := List Entry

/-- Whether a namespace lies under one of the roots; without roots, every namespace does. -/
def isRooted (roots : List String) (scope : Scope) : Bool :=
  roots.isEmpty || scope.head?.any (fun first => first ∈ roots)

/-- The kinds whose declarations are emitted under a name. -/
def Kind.isDeclarable : Kind → Bool
  | .enumeration | .scalar | .model | .union => true
  | _ => false

/-- The identity under which a declaration is registered, if it is. -/
def Graph.registrable? (graph : Graph) (id : NodeId) : Option Entry :=
  match graph.node? id with
  | some node =>
    match node.identity? with
    | some identity =>
      if node.kind.isDeclarable && isRooted graph.roots identity.scope then some ⟨identity, id⟩ else none
    | none => none
  | none => none

namespace Registry

def find? (registry : Registry) (identity : Identity) : Option Entry :=
  List.find? (fun entry => entry.identity = identity) registry

def contains (registry : Registry) (identity : Identity) : Bool := (registry.find? identity).isSome

/-- Adds an entry at the end, unless its identity is present. -/
def insert (registry : Registry) (entry : Entry) : Except SchemaError Registry :=
  if registry.contains entry.identity then .error (.duplicateIdentity entry.identity.text)
  else .ok (registry ++ [entry])

def ofGraph (graph : Graph) : Except SchemaError Registry :=
  (graph.declarations.filterMap graph.registrable?).foldlM insert []

/-- The namespaces of the entries, each once, in the order of their first appearance. -/
def scopes (registry : Registry) : List Scope :=
  distinct (registry.map (fun entry => entry.identity.scope))

theorem find?_append_singleton (registry : Registry) (entry : Entry) (identity : Identity) :
    find? (registry ++ [entry]) identity =
      (find? registry identity).or (if entry.identity = identity then some entry else none) := by
  simp [find?, List.find?_append, List.find?_cons]
  split <;> simp_all

end Registry
end SchemaGuards

import SchemaGuards.Schema.Registry

/-!
# Indexed registries

A registry is kept with an index of its identities, so that an entry is found without a search. The index holds
positions in the list of entries, and the two are written one after the other.
-/
namespace SchemaGuards

structure IndexedRegistry where
  /-- The entries in the order of their insertion. -/
  entries : Array Entry := #[]
  /-- The positions of the entries, by their identities. -/
  index : List (Identity × Nat) := []
deriving DecidableEq, Repr

namespace IndexedRegistry

def contains (registry : IndexedRegistry) (identity : Identity) : Bool := (registry.index.lookup identity).isSome

def find? (registry : IndexedRegistry) (identity : Identity) : Option Entry :=
  (registry.index.lookup identity).bind (fun position => registry.entries[position]?)

/-- Adds an entry at the end, unless its identity is present. -/
def insert (registry : IndexedRegistry) (entry : Entry) : Except SchemaError Unit × IndexedRegistry :=
  if registry.contains entry.identity then (.error (.duplicateIdentity entry.identity.text), registry)
  else
    let indexed := { registry with index := (entry.identity, registry.entries.size) :: registry.index }
    (.ok (), { indexed with entries := indexed.entries.push entry })

/-- Inserts entries one after the other, behind refused ones too, and gives the answers. -/
def insertAll (registry : IndexedRegistry) : List Entry → List (Except SchemaError Unit) × IndexedRegistry
  | [] => ([], registry)
  | entry :: rest =>
    let (answer, next) := registry.insert entry
    let (answers, last) := next.insertAll rest
    (answer :: answers, last)

/-- Inserts the entries of declarations, up to the first one that is refused. -/
def registerAll (graph : Graph) (registry : IndexedRegistry) : List NodeId → Except SchemaError IndexedRegistry
  | [] => .ok registry
  | id :: rest =>
    match graph.registrable? id with
    | none => registry.registerAll graph rest
    | some entry =>
      match registry.insert entry with
      | (.ok (), next) => next.registerAll graph rest
      | (.error error, _) => .error error

def ofGraph (graph : Graph) : Except SchemaError IndexedRegistry := registerAll graph {} graph.declarations

end IndexedRegistry
end SchemaGuards

import SchemaGuards.Layout
import SchemaGuards.Lifecycle
import SchemaGuards.Text.Quoted

/-!
# Visibility maps

A visibility map gives the phases that the properties of a written type are restricted to, by their
names; the key with a star stands for all values of a record. An entry that restricts nothing, neither
itself nor inside, is left out.
-/
namespace SchemaGuards

structure VisibilityEntry where
  key : String
  states : Option LifecycleSet
  /-- The restrictions inside; none when empty. -/
  nested : List VisibilityEntry
deriving BEq, Repr

/-- Entries in the order of the properties. -/
abbrev VisibilityMap := List VisibilityEntry

def Lifecycle.reference (state : Lifecycle) : String := "Lifecycle." ++ state.name

def LifecycleSet.references (states : LifecycleSet) : String :=
  String.intercalate ", " (states.toList.map Lifecycle.reference)

/-- A lifecycle argument that stands for the given phases unless one phase is asked for. -/
def boundLifecycle (parameter : String) (states : LifecycleSet) : String :=
  parameter ++ " extends Lifecycle.All ? (" ++
    String.intercalate " | " (states.toList.map Lifecycle.reference) ++ ") : " ++ parameter

def VisibilityEntry.isMeaningful (entry : VisibilityEntry) : Bool :=
  entry.states.isSome || !entry.nested.isEmpty

namespace VisibilityMap

/-- The key for the values of a record. -/
def wildcardKey : String := "*"

/-- Adds an entry at the end if it restricts anything. -/
def push (map : VisibilityMap) (entry : VisibilityEntry) : VisibilityMap :=
  if entry.isMeaningful then map ++ [entry] else map

def extend (map other : VisibilityMap) : VisibilityMap := other.foldl push map

/-- The map of a record whose values have the given map. -/
def wildcard (element : VisibilityMap) : VisibilityMap := push [] ⟨wildcardKey, none, element⟩

def get? (map : VisibilityMap) (key : String) : Option VisibilityEntry :=
  map.find? (fun entry => entry.key = key)

/-- The entry of a property, from its phases and the map of its type. -/
def ofProperty (key : String) (states : Option LifecycleSet) (nested : VisibilityMap) : VisibilityMap :=
  push [] ⟨key, states, nested⟩

mutual
def entryLayout : VisibilityEntry → Layout
  | ⟨key, states, nested⟩ =>
    let statesField := states.toList.map (fun states => Layout.text ("vis: [" ++ states.references ++ "]"))
    let nestedField :=
      if nested.isEmpty then [] else [Layout.text "nested: " ++ Layout.block (entryLayouts nested)]
    Layout.text (Text.quote key ++ ": \x7b") ++ Layout.join "," " " (statesField ++ nestedField) ++
      Layout.text "\x7d"
termination_by structural entry => entry

def entryLayouts : List VisibilityEntry → List Layout
  | [] => []
  | entry :: rest => entryLayout entry :: entryLayouts rest
end

def layout (map : VisibilityMap) : Layout := Layout.block (entryLayouts map)

theorem extend_eq_append_filter (map other : VisibilityMap) :
    map.extend other = map ++ other.filter VisibilityEntry.isMeaningful := by
  unfold extend
  induction other generalizing map with
  | nil => simp
  | cons entry rest ih =>
    simp only [List.foldl_cons, ih, push, List.filter_cons]
    split <;> simp

end VisibilityMap
end SchemaGuards

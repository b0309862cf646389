import SchemaGuards.Text.Blank

/-!
# Lifecycle states and verbs

A property may be restricted to some phases of a resource's life. A set of phases is always read and
written in one canonical order, so it is given by one flag for each phase. The names of phases and of
verbs are read without regard to ASCII case and to the blanks around them.
-/
namespace SchemaGuards

/-- The phase of a request or response that a property can be restricted to. -/
inductive Lifecycle where
  | read
  | create
  | update
  | delete
  | query
deriving DecidableEq, Repr

namespace Lifecycle

def all : List Lifecycle := [.read, .create, .update, .delete, .query]

def name : Lifecycle → String
  | .read => "Read"
  | .create => "Create"
  | .update => "Update"
  | .delete => "Delete"
  | .query => "Query"

/-- The phase of a name, in any ASCII case and with blanks around it. -/
def ofName? (s : String) : Option Lifecycle :=
  let spelled := (Text.trim s).toLower
  all.find? (fun state => state.name.toLower = spelled)

def lowerName : Lifecycle → String
  | .read => "read"
  | .create => "create"
  | .update => "update"
  | .delete => "delete"
  | .query => "query"

theorem toLower_name (phase : Lifecycle) : phase.name.toLower = phase.lowerName := by
  change phase.name.map Char.toLower = phase.lowerName
  rw [← String.toList_inj, String.toList_map]
  cases phase <;> decide

theorem toLower_lowerName (phase : Lifecycle) : phase.lowerName.toLower = phase.lowerName := by
  change phase.lowerName.map Char.toLower = phase.lowerName
  rw [← String.toList_inj, String.toList_map]
  cases phase <;> decide

theorem ofName?_lowerName (phase : Lifecycle) : ofName? phase.lowerName = some phase := by
  have htrim : Text.trim phase.lowerName = phase.lowerName := by cases phase <;> decide
  simp only [ofName?, htrim, toLower_name, toLower_lowerName]
  cases phase <;> decide

end Lifecycle

structure LifecycleSet where
  read : Bool := false
  create : Bool := false
  update : Bool := false
  delete : Bool := false
  query : Bool := false
deriving DecidableEq, Repr

namespace LifecycleSet

def contains (states : LifecycleSet) : Lifecycle → Bool
  | .read => states.read
  | .create => states.create
  | .update => states.update
  | .delete => states.delete
  | .query => states.query

def insert (states : LifecycleSet) : Lifecycle → LifecycleSet
  | .read => { states with read := true }
  | .create => { states with create := true }
  | .update => { states with update := true }
  | .delete => { states with delete := true }
  | .query => { states with query := true }

def ofList (states : List Lifecycle) : LifecycleSet := states.foldl insert {}

def toList (states : LifecycleSet) : List Lifecycle := Lifecycle.all.filter states.contains

def isEmpty (states : LifecycleSet) : Bool := states.toList.isEmpty

theorem mem_toList {states : LifecycleSet} {state : Lifecycle} :
    state ∈ states.toList ↔ states.contains state = true := by
  cases state <;> simp [toList, Lifecycle.all]

end LifecycleSet

inductive Verb where
  | get
  | head
  | post
  | put
  | patch
  | delete
deriving DecidableEq, Repr

namespace Verb

def all : List Verb := [.get, .head, .post, .put, .patch, .delete]

def name : Verb → String
  | .get => "GET"
  | .head => "HEAD"
  | .post => "POST"
  | .put => "PUT"
  | .patch => "PATCH"
  | .delete => "DELETE"

def ofName? (s : String) : Option Verb :=
  let spelled := (Text.trim s).toUpper
  all.find? (fun verb => verb.name = spelled)

end Verb
end SchemaGuards

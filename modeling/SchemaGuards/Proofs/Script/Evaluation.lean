import SchemaGuards.Proofs.Script.Value
import SchemaGuards.Written.Guard

/-!
# Running guards

A guard runs over names that are bound to values and, inside the test of a record, to entries. The
lifecycle that is asked for is one phase, or none for all of them. Calls of other guards are answered
from outside.
-/
namespace SchemaGuards

/-- Whether phases leave out the one that is asked for. -/
def LifecycleSet.excludes (states : LifecycleSet) (state : Option Lifecycle) : Bool :=
  state.any (fun state => !states.contains state)

namespace Script

inductive Binding (Object : Type) where
  | value (value : Value Object)
  /-- A property's key and its value. -/
  | entry (key : List UInt16) (content : Value Object)

abbrev Environment (Object : Type) := String → Option (Binding Object)

def Environment.bind {Object : Type} (environment : Environment Object) (name : String)
    (binding : Binding Object) : Environment Object :=
  fun other => if other = name then some binding else environment other

end Script
open Script
variable {Object : Type} (realm : Realm Object)

/-- What an accessor reaches; nothing where reading throws. -/
def Accessor.find (environment : Environment Object) : Accessor → Option (Binding Object)
  | .named name => environment name
  | .property owner key =>
    match owner.find environment with
    | some (.value value) => (realm.get? value key).map .value
    | _ => none
  | .position owner index =>
    match owner.find environment with
    | some (.value value) => (realm.get? value (toString index)).map .value
    | some (.entry key content) =>
      some (.value (if index = 0 then .string key else if index = 1 then content else .undefined))
    | none => none
  | .untyped owner => owner.find environment

def Accessor.read (environment : Environment Object) (accessor : Accessor) : Option (Value Object) :=
  match accessor.find realm environment with
  | some (.value value) => some value
  | _ => none

def Accessor.test (environment : Environment Object) (accessor : Accessor) (test : Value Object → Outcome) :
    Outcome :=
  match accessor.read realm environment with
  | some value => test value
  | none => .throws

/-- Tests the elements of an array, or the entries of a record. -/
def Indexed.every (kind : Indexed) (value : Value Object) (test : Binding Object → Outcome) : Outcome :=
  match kind with
  | .array =>
    if (realm.arrayLength? value).isSome then .every (realm.elements value) (fun part => test (.value part))
    else .returns false
  | .record =>
    match realm.entries? value with
    | some entries => .every entries (fun part => test (.entry part.1 part.2))
    | none => .returns false

namespace Guard
variable (calls : Reference → Option Lifecycle → Value Object → Outcome) (state : Option Lifecycle)

mutual
/-- What a guard comes to when it is run. -/
def run (environment : Environment Object) : Guard → Outcome
  | .constant value => .returns value
  | .isUndefined accessor => accessor.test realm environment (fun value => .returns value.isUndefined)
  | .equals accessor literal => accessor.test realm environment (fun value => .returns (value.equals literal))
  | .hasType accessor type => accessor.test realm environment (fun value => .returns (realm.hasType value type))
  | .custom _ => .unknown
  | .call target accessor generic =>
    accessor.test realm environment (calls target (if generic then state else none))
  | .every kind accessor element =>
    accessor.test realm environment (fun value =>
      kind.every realm value (fun part => run (environment.bind "e" part) element))
  | .tuple accessor elements =>
    accessor.test realm environment (fun value =>
      if realm.arrayLength? value = some elements.length then runAll environment elements else .returns false)
  | .any variants => runAny environment variants
  | .all clauses => runAll environment clauses
  | .lacks key owner => owner.test realm environment (fun value => realm.lacks value key)
  | .present optional accessor content =>
    accessor.test realm environment (fun value =>
      if value.isUndefined then .returns optional else run environment content)
  | .restricted states key owner content =>
    if states.excludes state then owner.test realm environment (fun value => realm.lacks value key)
    else run environment content
termination_by structural guard => guard

def runAll (environment : Environment Object) : List Guard → Outcome
  | [] => .returns true
  | guard :: rest => (run environment guard).and (runAll environment rest)

def runAny (environment : Environment Object) : List Guard → Outcome
  | [] => .returns false
  | guard :: rest => (run environment guard).or (runAny environment rest)
end

end Guard
end SchemaGuards

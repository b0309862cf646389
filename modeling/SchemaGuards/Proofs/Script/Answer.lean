import SchemaGuards.Proofs.Script.Evaluation

/-!
# What a guard answers

The guard of an expansion reads the value under test through an accessor. What it comes to depends on
that value alone, not on the way to it.
-/
namespace SchemaGuards
open Script
variable {Object : Type} (realm : Realm Object)
  (calls : Reference → Option Lifecycle → Value Object → Outcome) (state : Option Lifecycle)
  (target : Option Scope)

namespace Expansion

def isUnknown : Expansion → Bool
  | .primitive (.intrinsic .unknown) => true
  | _ => false

/-- What the clause of a property comes to on its owner, from what the guard of its type answers. -/
def answerClause (owner : Value Object) (name : String) (optional : Bool) (visibility : Option LifecycleSet)
    (type : Expansion) (content : Value Object → Outcome) : Outcome :=
  if visibility.any (fun states => states.excludes state) then realm.lacks owner name
  else
    match Guard.Presence.ofExpansion type, realm.get? owner name with
    | .forbidden, _ => realm.lacks owner name
    | .free, none => if type.isUnknown then .returns true else .throws
    | .free, some part => content part
    | .tested, none => .throws
    | .tested, some part => if part.isUndefined then .returns optional else content part

mutual
/-- What the guard of an expansion comes to on a value. -/
def answer : Expansion → Value Object → Outcome
  | .reference entry generic, value =>
    if entry.identity.kind = .enumeration then .returns true
    else calls (Reference.ofEntry target entry) (if generic then state else none) value
  | .primitive literal, value => .returns (value.isOf literal)
  | .mapped _, _ => .unknown
  | .terminal type, value => .returns (realm.hasType value type)
  | .derived base, value => answer base value
  | .indexed kind element, value =>
    kind.every realm value (fun part =>
      match part with
      | .value content | .entry _ content => answer element content)
  | .model (some base) properties, value => (answer base value).and (answerAll properties value)
  | .model none properties, value => answerAll properties value
  | .tuple elements, value =>
    if realm.arrayLength? value = some elements.length then answerFrom 0 elements value else .returns false
  | .union variants, value => answerAny variants value
  | _, _ => .returns true
termination_by structural expansion => expansion

def answerAll : List (Property Expansion) → Value Object → Outcome
  | [], _ => .returns true
  | ⟨name, type, optional, visibility, _⟩ :: rest, owner =>
    (answerClause realm state owner name optional visibility type (answer type)).and (answerAll rest owner)

def answerFrom (index : Nat) : List Expansion → Value Object → Outcome
  | [], _ => .returns true
  | element :: rest, value =>
    (answer element (realm.get value (toString index))).and (answerFrom (index + 1) rest value)

def answerAny : List Expansion → Value Object → Outcome
  | [], _ => .returns false
  | variant :: rest, value => (answer variant value).or (answerAny rest value)
end

end Expansion

section Accessor
variable {realm} {environment : Environment Object} {accessor : Accessor} {value : Value Object}

theorem Accessor.test_eq (h : accessor.read realm environment = some value) (test : Value Object → Outcome) :
    accessor.test realm environment test = test value := by
  simp [Accessor.test, h]

theorem Accessor.find_eq (h : accessor.read realm environment = some value) :
    accessor.find realm environment = some (.value value) := by
  rw [Accessor.read] at h
  split at h
  · next other hother =>
    cases h
    exact hother
  · cases h

theorem Accessor.read_property (h : accessor.read realm environment = some value) (key : String) :
    (Accessor.property accessor key).read realm environment = realm.get? value key := by
  simp only [Accessor.read, Accessor.find, Accessor.find_eq h]
  cases realm.get? value key <;> rfl

theorem Accessor.read_position (h : accessor.read realm environment = some value) (index : Nat) :
    (Accessor.position accessor index).read realm environment = realm.get? value (toString index) := by
  simp only [Accessor.read, Accessor.find, Accessor.find_eq h]
  cases realm.get? value (toString index) <;> rfl

end Accessor

namespace Guard
variable {environment : Environment Object}

theorem length_positionsOf (value : Accessor) (index : Nat) (elements : List Expansion) :
    (positionsOf target value index elements).length = elements.length := by
  induction elements generalizing index with
  | nil => rfl
  | cons element rest ih => simp [positionsOf, ih]

theorem run_ofPrimitive {accessor : Accessor} {value : Value Object}
    (h : accessor.read realm environment = some value) (literal : Primitive) :
    (ofPrimitive accessor literal).run realm calls state environment = .returns (value.isOf literal) := by
  cases literal with
  | intrinsic intrinsic =>
    cases intrinsic with
    | void | null => exact Accessor.test_eq h _
    | never | unknown => rfl
  | boolean | number | string => exact Accessor.test_eq h _

section Clause
variable {owner : Accessor} {value : Value Object} {name : String} {type : Expansion}

theorem run_clause_none (h : owner.read realm environment = some value) (optional : Bool)
    (hcontent : ∀ part, realm.get? value name = some part →
      (ofExpansion target (.property owner name) type).run realm calls state environment =
        type.answer realm calls state target part) :
    (clause owner name optional none (Presence.ofExpansion type)
      (ofExpansion target (.property owner name) type)).run realm calls state environment =
      Expansion.answerClause realm state value name optional none type
        (type.answer realm calls state target) := by
  have hproperty := Accessor.read_property h name
  simp only [clause, Expansion.answerClause, Option.any_none, Bool.false_eq_true, if_false]
  cases hpresence : Presence.ofExpansion type with
  | forbidden => exact Accessor.test_eq h _
  | free =>
    cases hpart : realm.get? value name with
    | some part => exact hcontent part hpart
    | none =>
      unfold Presence.ofExpansion at hpresence
      split at hpresence
      · cases hpresence
      · rfl
      · simp [ofExpansion, ofPrimitive, run, Accessor.test, hproperty, hpart, Expansion.isUnknown]
      · cases hpresence
  | tested =>
    simp only [run, Accessor.test, hproperty]
    cases hpart : realm.get? value name with
    | none => rfl
    | some part => simp only [hcontent part hpart]

/-- A property's clause comes to what its owner and its type's guard make of it. -/
theorem run_clause (h : owner.read realm environment = some value) (optional : Bool)
    (visibility : Option LifecycleSet)
    (hcontent : ∀ part, realm.get? value name = some part →
      (ofExpansion target (.property owner name) type).run realm calls state environment =
        type.answer realm calls state target part) :
    (clause owner name optional visibility (Presence.ofExpansion type)
      (ofExpansion target (.property owner name) type)).run realm calls state environment =
      Expansion.answerClause realm state value name optional visibility type
        (type.answer realm calls state target) := by
  have hnone := run_clause_none realm calls state target h optional hcontent
  cases visibility with
  | none => exact hnone
  | some states =>
    by_cases hexcludes : states.excludes state = true
    · simp only [clause, run, hexcludes, if_true, Expansion.answerClause, Option.any_some]
      exact Accessor.test_eq h _
    · simp only [Expansion.answerClause, Option.any_some, hexcludes]
      simp only [clause, run, hexcludes]
      exact hnone

end Clause

mutual
/-- The guard of an expansion comes to what the expansion answers on the value that is reached. -/
theorem run_ofExpansion {environment : Environment Object} {accessor : Accessor} {value : Value Object}
    (h : accessor.read realm environment = some value) (expansion : Expansion) :
    (ofExpansion target accessor expansion).run realm calls state environment =
      expansion.answer realm calls state target value := by
  cases expansion with
  | reference entry generic =>
    simp only [ofExpansion, ofReference, Expansion.answer]
    split
    · rfl
    · exact Accessor.test_eq h _
  | primitive literal => exact run_ofPrimitive realm calls state h literal
  | enumeration | member | mapped | unresolved => rfl
  | terminal type => exact Accessor.test_eq h _
  | derived base => exact run_ofExpansion h base
  | indexed kind element =>
    rw [ofExpansion, run, Accessor.test_eq h, Expansion.answer]
    cases kind with
    | array =>
      have hpart : ∀ part, (ofExpansion target (Accessor.element .array) element).run realm calls state
          (environment.bind "e" (.value part)) = element.answer realm calls state target part :=
        fun part => run_ofExpansion rfl element
      simp only [Indexed.every, hpart]
    | record =>
      have hpart : ∀ key part, (ofExpansion target (Accessor.element .record) element).run realm calls state
          (environment.bind "e" (.entry key part)) = element.answer realm calls state target part :=
        fun key part => run_ofExpansion rfl element
      simp only [Indexed.every, hpart]
  | model base properties =>
    cases base with
    | none => exact run_clausesOf h properties
    | some base =>
      have huntyped : (Accessor.untyped accessor).read realm environment = some value := h
      rw [ofExpansion, run, runAll, Expansion.answer, run_ofExpansion h base, run_clausesOf huntyped properties]
  | tuple elements =>
    rw [ofExpansion, run, Accessor.test_eq h, Expansion.answer, length_positionsOf]
    split
    · next hlength => exact run_positionsOf h (realm.isNullish_of_arrayLength? hlength) 0 elements
    · rfl
  | union variants => exact run_variantsOf h variants
termination_by structural expansion

theorem run_clausesOf {environment : Environment Object} {owner : Accessor} {value : Value Object}
    (h : owner.read realm environment = some value) (properties : List (Property Expansion)) :
    runAll realm calls state environment (clausesOf target owner properties) =
      Expansion.answerAll realm calls state target properties value := by
  cases properties with
  | nil => rfl
  | cons property rest =>
    rcases property with ⟨name, type, optional, visibility, doc⟩
    have hcontent : ∀ part, realm.get? value name = some part →
        (ofExpansion target (.property owner name) type).run realm calls state environment =
          type.answer realm calls state target part :=
      fun part hpart => run_ofExpansion ((Accessor.read_property h name).trans hpart) type
    rw [clausesOf, runAll, Expansion.answerAll, run_clause realm calls state target h optional visibility hcontent,
      run_clausesOf h rest]

theorem run_positionsOf {environment : Environment Object} {accessor : Accessor} {value : Value Object}
    (h : accessor.read realm environment = some value) (hvalue : value.isNullish = false) (index : Nat)
    (elements : List Expansion) :
    runAll realm calls state environment (positionsOf target accessor index elements) =
      Expansion.answerFrom realm calls state target index elements value := by
  cases elements with
  | nil => rfl
  | cons element rest =>
    have hpart := (Accessor.read_position h index).trans (realm.get?_eq_some hvalue _)
    rw [positionsOf, runAll, Expansion.answerFrom, run_ofExpansion hpart element,
      run_positionsOf h hvalue (index + 1) rest]

theorem run_variantsOf {environment : Environment Object} {accessor : Accessor} {value : Value Object}
    (h : accessor.read realm environment = some value) (variants : List Expansion) :
    runAny realm calls state environment (variantsOf target accessor variants) =
      Expansion.answerAny realm calls state target variants value := by
  cases variants with
  | nil => rfl
  | cons variant rest =>
    rw [variantsOf, runAny, Expansion.answerAny, run_ofExpansion h variant, run_variantsOf h rest]
end

end Guard
end SchemaGuards

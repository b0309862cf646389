import SchemaGuards.Proofs.Script.Answer
import SchemaGuards.Proofs.Script.Conformance

/-!
# When a guard accepts a conforming value

A guard tests most of what its type says, and a value that conforms passes these tests. What is left is
stated here. The guard of a model reads properties of whatever it is given, and asks whether it has
them, before it knows that it is given an object; so it throws where a union tries a model on null. It
takes a property that is undefined for one that is missing. And it goes on into the guards that it
calls.
-/
namespace SchemaGuards
open Script

/-- Whether one of several filters speaks of a property by its own restriction, not by that of another
property of the same name. -/
def VisibilityMap.Governed (filters : List VisibilityMap) (name : String)
    (visibility : Option LifecycleSet) : Prop :=
  ∃ map ∈ filters, map.get? VisibilityMap.wildcardKey = none ∧
    (map.get? name).map VisibilityEntry.states = some visibility

theorem VisibilityMap.Governed.hide {filters : List VisibilityMap} {name : String} {states : LifecycleSet}
    (h : Governed filters name (some states)) {state : Option Lifecycle} (hstate : states.excludes state = true) :
    TypeExpr.hide state filters name = true := by
  rcases h with ⟨map, hmap, hwildcard, hentry⟩
  rcases Option.map_eq_some_iff.1 hentry with ⟨entry, hfound, hstates⟩
  refine List.any_eq_true.2 ⟨map, hmap, ?_⟩
  simp [VisibilityMap.hides, hwildcard, hfound, hstates, hstate]

/-- The guards that are called accept the clear ones among the conforming values. -/
def AreExact {Object : Type} (calls : Reference → Option Lifecycle → Value Object → Outcome)
    (refers cleared : Reference → Option Lifecycle → List VisibilityMap → Value Object → Prop) : Prop :=
  ∀ target state filters value, refers target state filters value →
    (calls target state value = .returns true ↔ cleared target state filters value)

namespace Expansion
variable {Object : Type} (realm : Realm Object) (state : Option Lifecycle) (style : TypeStyle)
  (calls : Reference → Option Lifecycle → Value Object → Outcome)
  (refers cleared : Reference → Option Lifecycle → List VisibilityMap → Value Object → Prop)

/-- What the clause of a property needs, beyond that its owner conforms. -/
def ClearClause (filters : List VisibilityMap) (owner : Value Object) (name : String) (optional : Bool)
    (visibility : Option LifecycleSet) (type : Expansion) (content : Value Object → Prop) : Prop :=
  if visibility.any (fun states => states.excludes state) then
    owner.isObject = true ∧ (VisibilityMap.Governed filters name visibility ∨ realm.lookup? owner name = none)
  else
    match Guard.Presence.ofExpansion type with
    | .forbidden => owner.isObject = true ∧ realm.lookup? owner name = none
    | .free => True
    | .tested =>
      if (realm.get owner name).isUndefined then optional = true else content (realm.get owner name)

mutual
/-- What the guard of an expansion needs to accept a value that conforms to its type. -/
def Clear (inModel : Bool) (filters : List VisibilityMap) : Expansion → Value Object → Prop
  | .reference entry generic, value =>
    entry.identity.kind ≠ .enumeration →
      cleared (Reference.ofEntry style.target entry) (if generic then state else none) filters value
  | .mapped _, _ => False
  | .derived base, value => Clear false filters base value
  | .indexed .array element, value =>
    ∀ part ∈ realm.elements value,
      Clear true (TypeExpr.filtersBelow inModel (Expansion.indexed .array element).restrictions filters) element part
  | .indexed .record element, value =>
    ∀ entries, realm.entries? value = some entries → ∀ part ∈ entries,
      Clear true (TypeExpr.filtersInside
        (TypeExpr.filtersBelow inModel (Expansion.indexed .record element).restrictions filters)
        VisibilityMap.wildcardKey) element part.2
  | .model (some base) properties, value =>
    let below := TypeExpr.filtersBelow inModel (Expansion.model (some base) properties).restrictions filters
    Clear true below base value ∧ ClearAll below properties value
  | .model none properties, value =>
    ClearAll (TypeExpr.filtersBelow inModel (Expansion.model none properties).restrictions filters)
      properties value
  | .tuple elements, value => ClearFrom filters 0 elements value
  | .union variants, value => ClearAny filters variants value
  | _, _ => True
termination_by structural expansion => expansion

def ClearAll (filters : List VisibilityMap) : List (Property Expansion) → Value Object → Prop
  | [], _ => True
  | ⟨name, type, optional, visibility, _⟩ :: rest, owner =>
    ClearClause realm state filters owner name optional visibility type
      (Clear true (TypeExpr.filtersInside filters name) type) ∧ ClearAll filters rest owner

def ClearFrom (filters : List VisibilityMap) (index : Nat) : List Expansion → Value Object → Prop
  | [], _ => True
  | element :: rest, value =>
    Clear false filters element (realm.get value (toString index)) ∧ ClearFrom filters (index + 1) rest value

/-- The variants of a union are tried in their order. The first one whose guard does not return false has
to accept the value: by its type, or although the value does not conform to it. -/
def ClearAny (filters : List VisibilityMap) : List Expansion → Value Object → Prop
  | [], _ => False
  | variant :: rest, value =>
    (TypeExpr.Meets realm state refers filters (TypeExpr.ofExpansion style false variant) value ∧
      Clear false filters variant value) ∨
    (¬ TypeExpr.Meets realm state refers filters (TypeExpr.ofExpansion style false variant) value ∧
      variant.answer realm calls state style.target value = .returns true) ∨
    (variant.answer realm calls state style.target value = .returns false ∧ ClearAny filters rest value)
end

section Answer
variable {realm state style calls refers cleared}

/-- What the clause of a property needs, when what its type needs is known. -/
theorem answerClause_eq_true_iff {filters : List VisibilityMap} {owner : Value Object} {name : String}
    {optional : Bool} (visibility : Option LifecycleSet) {type : Expansion}
    {content : Value Object → Prop} (howner : owner.isNullish = false)
    (hholds : TypeExpr.Holds realm state filters owner name optional
      (TypeExpr.Meets realm state refers (TypeExpr.filtersInside filters name)
        (TypeExpr.ofExpansion style true type)))
    (hcontent : ∀ part, TypeExpr.Meets realm state refers (TypeExpr.filtersInside filters name)
      (TypeExpr.ofExpansion style true type) part →
        (type.answer realm calls state style.target part = .returns true ↔ content part)) :
    answerClause realm state owner name optional visibility type (type.answer realm calls state style.target) =
      .returns true ↔ ClearClause realm state filters owner name optional visibility type content := by
  unfold answerClause ClearClause
  split
  · next hexcludes =>
    rw [realm.lacks_eq_true]
    refine and_congr_right (fun _ => ⟨.inr, ?_⟩)
    rintro (hgoverned | hnone)
    · rcases Option.any_eq_true _ _ |>.1 hexcludes with ⟨states, rfl, hstates⟩
      exact hholds.lookup? (hgoverned.hide hstates)
    · exact hnone
  · rw [realm.get?_eq_some howner]
    cases hpresence : Guard.Presence.ofExpansion type with
    | forbidden => exact realm.lacks_eq_true
    | free =>
      unfold Guard.Presence.ofExpansion at hpresence
      split at hpresence
      · cases hpresence
      · simp [answer, Value.isOf]
      · rcases hholds.get with hundefined | hmeets
        · simp [answer, Value.isOf, hundefined, Value.isUndefined]
        · exact iff_of_true (congrArg Outcome.returns hmeets) trivial
      · cases hpresence
    | tested =>
      simp only
      split
      · simp
      · next hdefined =>
        rcases hholds.get with hundefined | hmeets
        · rw [hundefined] at hdefined
          exact absurd rfl hdefined
        · exact hcontent _ hmeets

mutual
/-- A guard accepts a value that conforms to its type exactly when the value is clear. -/
theorem answer_eq_true_iff (hexact : AreExact calls refers cleared) {inModel : Bool}
    {filters : List VisibilityMap} {expansion : Expansion} {value : Value Object}
    (h : TypeExpr.Meets realm state refers filters (TypeExpr.ofExpansion style inModel expansion) value) :
    expansion.answer realm calls state style.target value = .returns true ↔
      expansion.Clear realm state style calls refers cleared inModel filters value := by
  cases expansion with
  | reference entry generic =>
    rw [answer, Clear]
    by_cases hkind : entry.identity.kind = .enumeration
    · simp [hkind]
    · rw [TypeExpr.meets_reference] at h
      simpa [hkind] using hexact _ _ _ _ h
  | primitive constant => exact iff_of_true (congrArg Outcome.returns h) trivial
  | enumeration | member | unresolved => simp [answer, Clear]
  | mapped text => simp [answer, Clear]
  | terminal type => exact iff_of_true (congrArg Outcome.returns h) trivial
  | derived base =>
    rw [TypeExpr.ofExpansion] at h
    rw [answer, Clear]
    exact answer_eq_true_iff hexact h
  | indexed kind element =>
    rw [TypeExpr.ofExpansion, TypeExpr.meets_filter] at h
    cases kind with
    | array =>
      rcases h with ⟨hlength, hparts⟩
      rw [answer, Clear, Indexed.every, if_pos hlength, Outcome.every_eq_true]
      exact forall₂_congr (fun part hpart => answer_eq_true_iff hexact (hparts part hpart))
    | record =>
      rcases h with ⟨entries, hentries, hparts⟩
      simp only [answer, Clear, Indexed.every, hentries, Outcome.every_eq_true, Option.some.injEq, forall_eq']
      exact forall₂_congr (fun part hpart => answer_eq_true_iff hexact (hparts part hpart))
  | model base properties =>
    cases base with
    | none =>
      rw [TypeExpr.ofExpansion, TypeExpr.meets_filter] at h
      rw [answer, Clear]
      exact answerAll_eq_true_iff hexact h.1 h.2
    | some base =>
      rw [TypeExpr.ofExpansion, TypeExpr.meets_filter] at h
      rw [answer, Clear, Outcome.and_eq_true]
      exact and_congr (answer_eq_true_iff hexact h.2.1) (answerAll_eq_true_iff hexact h.1 h.2.2)
  | tuple elements =>
    rw [TypeExpr.ofExpansion, TypeExpr.Meets] at h
    have hlength : realm.arrayLength? value = some elements.length := by
      rw [h.1, TypeExpr.length_listOf]
    rw [answer, Clear, if_pos hlength]
    exact answerFrom_eq_true_iff hexact h.2
  | union variants => exact answerAny_eq_true_iff hexact
termination_by structural expansion

theorem answerAll_eq_true_iff (hexact : AreExact calls refers cleared) {filters : List VisibilityMap}
    {properties : List (Property Expansion)} {owner : Value Object} (howner : owner.isNullish = false)
    (h : TypeExpr.MeetsAll realm state refers filters (TypeExpr.fieldsOf style properties) owner) :
    answerAll realm calls state style.target properties owner = .returns true ↔
      ClearAll realm state style calls refers cleared filters properties owner := by
  cases properties with
  | nil => simp [answerAll, ClearAll]
  | cons property rest =>
    rcases property with ⟨name, type, optional, visibility, doc⟩
    rw [answerAll, ClearAll, Outcome.and_eq_true]
    refine and_congr ?_ (answerAll_eq_true_iff hexact howner h.2)
    exact answerClause_eq_true_iff visibility howner h.1 (fun part hpart => answer_eq_true_iff hexact hpart)
termination_by structural properties

theorem answerFrom_eq_true_iff (hexact : AreExact calls refers cleared) {filters : List VisibilityMap}
    {index : Nat} {elements : List Expansion} {value : Value Object}
    (h : TypeExpr.MeetsFrom realm state refers filters index (TypeExpr.listOf style elements) value) :
    answerFrom realm calls state style.target index elements value = .returns true ↔
      ClearFrom realm state style calls refers cleared filters index elements value := by
  cases elements with
  | nil => simp [answerFrom, ClearFrom]
  | cons element rest =>
    rw [answerFrom, ClearFrom, Outcome.and_eq_true]
    exact and_congr (answer_eq_true_iff hexact h.1) (answerFrom_eq_true_iff hexact h.2)
termination_by structural elements

theorem answerAny_eq_true_iff (hexact : AreExact calls refers cleared) {filters : List VisibilityMap}
    {variants : List Expansion} {value : Value Object} :
    answerAny realm calls state style.target variants value = .returns true ↔
      ClearAny realm state style calls refers cleared filters variants value := by
  cases variants with
  | nil => simp [answerAny, ClearAny]
  | cons variant rest =>
    have hrest : answerAny realm calls state style.target rest value = .returns true ↔
        ClearAny realm state style calls refers cleared filters rest value :=
      answerAny_eq_true_iff hexact
    rw [answerAny, ClearAny, Outcome.or_eq_true, hrest]
    by_cases hmeets : TypeExpr.Meets realm state refers filters (TypeExpr.ofExpansion style false variant) value
    · rw [answer_eq_true_iff hexact hmeets]
      simp [hmeets]
    · simp [hmeets]
termination_by structural variants
end

end Answer

end Expansion
end SchemaGuards

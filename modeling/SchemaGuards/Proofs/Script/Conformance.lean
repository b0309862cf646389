import Mathlib.Order.Basic
import SchemaGuards.Proofs.Script.Evaluation

/-!
# Conformance

A value conforms to a type by what it holds. A filter takes the properties away that are not visible
in the lifecycle that is asked for; such a property has to be absent, at whatever depth of models,
arrays and records the filter reaches it. What a declaration stands for is given from outside.
-/
namespace SchemaGuards
open Script

namespace VisibilityMap

/-- Whether a filter takes a property away. A wildcard stands for the values of a record, of which it
takes none away. -/
def hides (map : VisibilityMap) (state : Option Lifecycle) (key : String) : Bool :=
  (map.get? wildcardKey).isNone &&
    (map.get? key).any (fun entry => entry.states.any (fun states => states.excludes state))

def inside (map : VisibilityMap) (key : String) : VisibilityMap :=
  match (map.get? wildcardKey).or (map.get? key) with
  | some entry => entry.nested
  | none => []

end VisibilityMap

namespace TypeExpr
variable {Object : Type} (realm : Realm Object) (state : Option Lifecycle)
  (refers : Reference → Option Lifecycle → List VisibilityMap → Value Object → Prop)

def filtersInside (filters : List VisibilityMap) (key : String) : List VisibilityMap :=
  filters.map (fun map => map.inside key)

def hide (filters : List VisibilityMap) (key : String) : Bool := filters.any (fun map => map.hides state key)

/-- Whether an object has a property whose values meet a condition, or lacks it where it has to or may. -/
def Holds (filters : List VisibilityMap) (owner : Value Object) (name : String) (optional : Bool)
    (content : Value Object → Prop) : Prop :=
  match hide state filters name, realm.lookup? owner name with
  | true, found => found = none
  | false, none => optional = true
  | false, some part => optional = true ∧ part = .undefined ∨ content part

mutual
/-- Whether a value conforms to a type below filters. -/
def Meets (filters : List VisibilityMap) : TypeExpr → Value Object → Prop
  | .literal constant, value => value.isOf constant = true
  | .terminal type, value => realm.hasType value type = true
  | .verbatim text, value => realm.denotes text value
  | .reference target argument, value => refers target (argument.bind (fun _ => state)) filters value
  | .member owner name, value => realm.denotes (owner.memberText name) value
  | .enumeration items, value => realm.denotes (Layout.flat (Layout.block (items.map EnumItem.layout))) value
  | .indexed .array element, value =>
    (realm.arrayLength? value).isSome ∧ ∀ part ∈ realm.elements value, Meets filters element part
  | .indexed .record element, value =>
    ∃ entries, realm.entries? value = some entries ∧ ∀ part ∈ entries,
      Meets (filtersInside filters VisibilityMap.wildcardKey) element part.2
  | .tuple elements, value =>
    realm.arrayLength? value = some elements.length ∧ MeetsFrom filters 0 elements value
  | .union variants, value => MeetsAny filters variants value
  | .object (some base) fields, value =>
    value.isNullish = false ∧ Meets filters base value ∧ MeetsAll filters fields value
  | .object none fields, value => value.isNullish = false ∧ MeetsAll filters fields value
  | .filtered shape restrictions _, value => Meets (restrictions :: filters) shape value
termination_by structural type => type

/-- Whether an object has the properties of an object type, and not those that are taken away. -/
def MeetsAll (filters : List VisibilityMap) : List (Property TypeExpr) → Value Object → Prop
  | [], _ => True
  | ⟨name, type, optional, _, _⟩ :: rest, owner =>
    Holds realm state filters owner name optional (Meets (filtersInside filters name) type) ∧
      MeetsAll filters rest owner

def MeetsFrom (filters : List VisibilityMap) (index : Nat) : List TypeExpr → Value Object → Prop
  | [], _ => True
  | element :: rest, value =>
    Meets filters element (realm.get value (toString index)) ∧ MeetsFrom filters (index + 1) rest value

def MeetsAny (filters : List VisibilityMap) : List TypeExpr → Value Object → Prop
  | [], _ => False
  | variant :: rest, value => Meets filters variant value ∨ MeetsAny filters rest value
end

section Holds
variable {realm state} {filters : List VisibilityMap} {owner : Value Object} {name : String} {optional : Bool}
  {content other : Value Object → Prop}

theorem Holds.imp (h : Holds realm state filters owner name optional content)
    (himp : ∀ part, content part → other part) : Holds realm state filters owner name optional other := by
  rw [Holds] at h ⊢
  split
  · next hhide => simpa [hhide] using h
  · next hhide hfound => simpa [hhide, hfound] using h
  · next part hhide hfound =>
    simp only [hhide, hfound] at h
    exact h.imp_right (himp part)

theorem Holds.lookup? (h : Holds realm state filters owner name optional content)
    (hhide : hide state filters name = true) : realm.lookup? owner name = none := by
  simpa [Holds, hhide] using h

theorem Holds.get (h : Holds realm state filters owner name optional content) :
    realm.get owner name = .undefined ∨ content (realm.get owner name) := by
  rw [Holds] at h
  rw [Realm.get]
  split at h
  · next _ hfound => exact .inl (by rw [h]; rfl)
  · next _ hfound => exact .inl (by rw [hfound]; rfl)
  · next part _ hfound =>
    rw [hfound]
    exact h.imp And.right id

end Holds

section Mono
variable {realm state refers}
  {other : Reference → Option Lifecycle → List VisibilityMap → Value Object → Prop}

mutual
/-- A value conforms as well when declarations stand for more. -/
theorem Meets.mono (himp : refers ≤ other) {filters : List VisibilityMap} {type : TypeExpr} {value : Value Object}
    (h : Meets realm state refers filters type value) : Meets realm state other filters type value := by
  cases type with
  | literal | terminal | verbatim | member | enumeration => exact h
  | reference target argument => exact himp _ _ _ _ h
  | indexed kind element =>
    cases kind with
    | array => exact ⟨h.1, fun part hpart => (h.2 part hpart).mono himp⟩
    | record =>
      rcases h with ⟨entries, hentries, hparts⟩
      exact ⟨entries, hentries, fun part hpart => (hparts part hpart).mono himp⟩
  | tuple elements => exact ⟨h.1, MeetsFrom.mono himp h.2⟩
  | union variants => exact MeetsAny.mono himp h
  | object base fields =>
    cases base with
    | none => exact ⟨h.1, MeetsAll.mono himp h.2⟩
    | some base => exact ⟨h.1, h.2.1.mono himp, MeetsAll.mono himp h.2.2⟩
  | filtered shape restrictions argument =>
    rw [Meets] at h ⊢
    exact h.mono himp
termination_by structural type

theorem MeetsAll.mono (himp : refers ≤ other) {filters : List VisibilityMap}
    {fields : List (Property TypeExpr)} {owner : Value Object}
    (h : MeetsAll realm state refers filters fields owner) : MeetsAll realm state other filters fields owner := by
  cases fields with
  | nil => trivial
  | cons field rest =>
    rcases field with ⟨name, type, optional, visibility, doc⟩
    exact ⟨h.1.imp (fun part => Meets.mono himp), MeetsAll.mono himp h.2⟩
termination_by structural fields

theorem MeetsFrom.mono (himp : refers ≤ other) {filters : List VisibilityMap} {index : Nat}
    {elements : List TypeExpr} {value : Value Object}
    (h : MeetsFrom realm state refers filters index elements value) :
    MeetsFrom realm state other filters index elements value := by
  cases elements with
  | nil => trivial
  | cons element rest => exact ⟨Meets.mono himp h.1, MeetsFrom.mono himp h.2⟩
termination_by structural elements

theorem MeetsAny.mono (himp : refers ≤ other) {filters : List VisibilityMap} {variants : List TypeExpr}
    {value : Value Object} (h : MeetsAny realm state refers filters variants value) :
    MeetsAny realm state other filters variants value := by
  cases variants with
  | nil => exact h
  | cons variant rest => exact h.imp (Meets.mono himp) (MeetsAny.mono himp)
termination_by structural variants
end

end Mono

/-- The filters of what a type writes in place, below those of the type. -/
def filtersBelow (inModel : Bool) (restrictions : VisibilityMap) (filters : List VisibilityMap) :
    List VisibilityMap :=
  if restrictions.isEmpty || inModel then filters else restrictions :: filters

theorem meets_reference (style : TypeStyle) (inModel : Bool) (filters : List VisibilityMap) (entry : Entry)
    (generic : Bool) (value : Value Object) :
    Meets realm state refers filters (ofExpansion style inModel (.reference entry generic)) value ↔
      refers (Reference.ofEntry style.target entry) (if generic then state else none) filters value := by
  cases generic <;> rfl

theorem meets_filter (style : TypeStyle) (inModel : Bool) (restrictions : VisibilityMap)
    (filters : List VisibilityMap) (shape : TypeExpr) (value : Value Object) :
    Meets realm state refers filters (filter style inModel restrictions shape) value ↔
      Meets realm state refers (filtersBelow inModel restrictions filters) shape value := by
  unfold filter filtersBelow
  split <;> rfl

theorem length_listOf (style : TypeStyle) (elements : List Expansion) :
    (listOf style elements).length = elements.length := by
  induction elements with
  | nil => rfl
  | cons element rest ih => simp [listOf, ih]

end TypeExpr
end SchemaGuards

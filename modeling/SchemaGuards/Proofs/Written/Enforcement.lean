import SchemaGuards.Proofs.Expansion.Inlining

/-!
# Restrictions are enforced once

A restriction is enforced in a written type by an entry of a filter, and in a guard by a clause of its
own. Filters are left to the outermost model and stop at tuples and unions, clauses stand where their
property is tested. Both enforce the restricted properties of all models that are written in full, each
once for every place where its model stands, and nothing else.
-/
namespace SchemaGuards

/-- A step from a written value to one inside it. Elements of arrays and bases are no step. -/
inductive Step where
  /-- A property, or with a star all values of a record. -/
  | key (name : String)
  | position (index : Nat)
  | variant (index : Nat)
deriving DecidableEq, Repr

abbrev Trail := List Step

namespace Trail
variable {α β : Type}

/-- What is found inside a value, as it is found from around it. -/
def under (step : Step) (found : List (Trail × α)) : List (Trail × α) :=
  found.map (fun item => (step :: item.1, item.2))

/-- What is found inside the elements of a list, whose steps are counted from an index on. -/
def numbered (step : Nat → Step) (index : Nat) : List (List (Trail × α)) → List (Trail × α)
  | [] => []
  | first :: rest => under (step index) first ++ numbered step (index + 1) rest

def inElements : Indexed → List (Trail × α) → List (Trail × α)
  | .array, found => found
  | .record, found => under (.key VisibilityMap.wildcardKey) found

theorem under_append (step : Step) (found other : List (Trail × α)) :
    under step (found ++ other) = under step found ++ under step other := List.map_append

theorem under_perm (step : Step) {found other : List (Trail × α)} (h : found.Perm other) :
    (under step found).Perm (under step other) := h.map _

theorem inElements_perm (kind : Indexed) {found other : List (Trail × α)} (h : found.Perm other) :
    (inElements kind found).Perm (inElements kind other) := by
  cases kind with
  | array => exact h
  | record => exact under_perm _ h

theorem inElements_append (kind : Indexed) (found other : List (Trail × α)) :
    inElements kind (found ++ other) = inElements kind found ++ inElements kind other := by
  cases kind with
  | array => rfl
  | record => exact under_append _ found other

theorem numbered_perm (step : Nat → Step) (index : Nat) {lists others : List (List (Trail × α))}
    (h : List.Forall₂ List.Perm lists others) :
    (numbered step index lists).Perm (numbered step index others) := by
  induction h generalizing index with
  | nil => exact .nil
  | cons hfirst _ ih => exact (under_perm _ hfirst).append (ih (index + 1))

/-- The restrictions of a map, as they are found from where the map stands. -/
def ofPaths (paths : List (List String × LifecycleSet)) : List (Trail × LifecycleSet) :=
  paths.map (fun path => (path.1.map .key, path.2))

theorem ofPaths_append (paths others : List (List String × LifecycleSet)) :
    ofPaths (paths ++ others) = ofPaths paths ++ ofPaths others := List.map_append

theorem ofPaths_cons_key (key : String) (paths : List (List String × LifecycleSet)) :
    ofPaths (paths.map (fun path => (key :: path.1, path.2))) = under (.key key) (ofPaths paths) := by
  simp [ofPaths, under]

def ofVisibility (name : String) (visibility : Option LifecycleSet) : List (Trail × LifecycleSet) :=
  visibility.toList.map (fun states => ([.key name], states))

theorem ofPaths_ofProperty (key : String) (visibility : Option LifecycleSet) (nested : VisibilityMap) :
    ofPaths (VisibilityMap.paths (VisibilityMap.ofProperty key visibility nested)) =
      ofVisibility key visibility ++ under (.key key) (ofPaths (VisibilityMap.paths nested)) := by
  rw [VisibilityMap.paths_ofProperty, ofPaths_append, ofPaths_cons_key]
  congr 1
  cases visibility <;> rfl

end Trail

theorem append_perm_interleave {α : Type} (first second third fourth : List α) :
    ((first ++ second) ++ (third ++ fourth)).Perm ((first ++ third) ++ (second ++ fourth)) := by
  rw [List.append_assoc, List.append_assoc]
  exact (List.perm_append_comm_assoc second third fourth).append_left first

open Trail

namespace Expansion

mutual
/-- The restricted properties of all models in an expansion. -/
def restricted : Expansion → List (Trail × LifecycleSet)
  | .derived base => restricted base
  | .indexed kind element => inElements kind (restricted element)
  | .model (some base) properties => restricted base ++ propertiesRestricted properties
  | .model none properties => propertiesRestricted properties
  | .tuple elements => numbered .position 0 (eachRestricted elements)
  | .union variants => numbered .variant 0 (eachRestricted variants)
  | _ => []
termination_by structural expansion => expansion

def propertiesRestricted : List (Property Expansion) → List (Trail × LifecycleSet)
  | [] => []
  | ⟨name, type, _, visibility, _⟩ :: rest =>
    ofVisibility name visibility ++ under (.key name) (restricted type) ++ propertiesRestricted rest

def eachRestricted : List Expansion → List (List (Trail × LifecycleSet))
  | [] => []
  | expansion :: rest => restricted expansion :: eachRestricted rest
end

mutual
def HasPlainScalars : Expansion → Prop
  | .derived base => restricted base = [] ∧ HasPlainScalars base
  | .indexed _ element => HasPlainScalars element
  | .model (some base) properties => HasPlainScalars base ∧ propertiesPlain properties
  | .model none properties => propertiesPlain properties
  | .tuple elements => eachPlain elements
  | .union variants => eachPlain variants
  | _ => True
termination_by structural expansion => expansion

def propertiesPlain : List (Property Expansion) → Prop
  | [] => True
  | ⟨_, type, _, _, _⟩ :: rest => HasPlainScalars type ∧ propertiesPlain rest

def eachPlain : List Expansion → Prop
  | [] => True
  | expansion :: rest => HasPlainScalars expansion ∧ eachPlain rest
end

end Expansion

namespace TypeExpr
open Expansion

mutual
/-- The restrictions that the filters of a type enforce. -/
def enforced : TypeExpr → List (Trail × LifecycleSet)
  | .indexed kind element => inElements kind (enforced element)
  | .tuple elements => numbered .position 0 (eachEnforced elements)
  | .union variants => numbered .variant 0 (eachEnforced variants)
  | .object (some base) fields => enforced base ++ fieldsEnforced fields
  | .object none fields => fieldsEnforced fields
  | .filtered shape restrictions _ => enforced shape ++ ofPaths (VisibilityMap.paths restrictions)
  | _ => []
termination_by structural type => type

def eachEnforced : List TypeExpr → List (List (Trail × LifecycleSet))
  | [] => []
  | type :: rest => enforced type :: eachEnforced rest

def fieldsEnforced : List (Property TypeExpr) → List (Trail × LifecycleSet)
  | [] => []
  | ⟨name, type, _, _, _⟩ :: rest => under (.key name) (enforced type) ++ fieldsEnforced rest
end

/-- The restrictions that a type leaves to the model around it. -/
def leftToModel (inModel : Bool) (restrictions : VisibilityMap) : List (Trail × LifecycleSet) :=
  if inModel then ofPaths (VisibilityMap.paths restrictions) else []

/-- Restrictions are filtered in place or left to the model, and never both. -/
theorem enforced_filter (style : TypeStyle) (inModel : Bool) (restrictions : VisibilityMap) (shape : TypeExpr) :
    (filter style inModel restrictions shape).enforced ++ leftToModel inModel restrictions =
      shape.enforced ++ ofPaths (VisibilityMap.paths restrictions) := by
  rw [filter, leftToModel]
  cases inModel with
  | true => simp
  | false =>
    cases restrictions with
    | nil => simp [ofPaths]
    | cons entry rest => simp [enforced]

mutual
/-- What the filters of a type enforce and what is left to the model around it are the restrictions. -/
theorem enforced_ofExpansion (style : TypeStyle) (inModel : Bool) (expansion : Expansion)
    (h : expansion.HasPlainScalars) :
    ((ofExpansion style inModel expansion).enforced ++ leftToModel inModel expansion.restrictions).Perm
      expansion.restricted := by
  cases expansion with
  | reference | primitive | enumeration | mapped | terminal | unresolved => cases inModel <;> exact .nil
  | member owner name literal => cases owner <;> cases inModel <;> exact .nil
  | derived base =>
    -- Nothing is restricted behind a scalar, so nothing is both filtered here and passed on.
    have hroot := enforced_ofExpansion style false base h.2
    have hinner := enforced_ofExpansion style true base h.2
    rw [h.1] at hroot hinner
    rw [ofExpansion, Expansion.restricted, h.1, Expansion.restrictions]
    have hnone := List.append_eq_nil_iff.1 hroot.eq_nil
    rw [hnone.1, List.nil_append]
    cases inModel with
    | false => exact .nil
    | true => rw [(List.append_eq_nil_iff.1 hinner.eq_nil).2]
  | indexed kind element =>
    have helement := enforced_ofExpansion style true element h
    have hleft : ofPaths (VisibilityMap.paths (Expansion.indexed kind element).restrictions) =
        inElements kind (ofPaths (VisibilityMap.paths element.restrictions)) := by
      cases kind with
      | array => rfl
      | record => rw [Expansion.restrictions, VisibilityMap.paths_wildcard, ofPaths_cons_key, inElements]
    rw [ofExpansion, enforced_filter, hleft, enforced, ← inElements_append]
    exact inElements_perm kind helement
  | model base properties =>
    cases base with
    | none =>
      rw [ofExpansion, enforced_filter]
      exact fieldsEnforced_fieldsOf style properties h
    | some base =>
      have hbase := enforced_ofExpansion style true base h.1
      have hfields := fieldsEnforced_fieldsOf style properties h.2
      rw [ofExpansion, enforced_filter, enforced, Expansion.restrictions, VisibilityMap.paths_append,
        ofPaths_append]
      exact (append_perm_interleave _ _ _ _).trans (hbase.append hfields)
  | tuple elements =>
    have helements := eachEnforced_listOf style elements h
    cases inModel <;> simpa [ofExpansion, enforced, leftToModel, Expansion.restrictions, ofPaths,
      Expansion.restricted] using numbered_perm Step.position 0 helements
  | union variants =>
    have hvariants := eachEnforced_listOf style variants h
    cases inModel <;> simpa [ofExpansion, enforced, leftToModel, Expansion.restrictions, ofPaths,
      Expansion.restricted] using numbered_perm Step.variant 0 hvariants
termination_by structural expansion

theorem fieldsEnforced_fieldsOf (style : TypeStyle) (properties : List (Property Expansion))
    (h : propertiesPlain properties) :
    (fieldsEnforced (fieldsOf style properties) ++
      ofPaths (VisibilityMap.paths (propertyRestrictions properties))).Perm
        (propertiesRestricted properties) := by
  cases properties with
  | nil => exact .nil
  | cons property rest =>
    rcases property with ⟨name, type, optional, visibility, doc⟩
    have htype := enforced_ofExpansion style true type h.1
    have hrest := fieldsEnforced_fieldsOf style rest h.2
    rw [fieldsOf, fieldsEnforced, propertyRestrictions, VisibilityMap.paths_append, ofPaths_append,
      ofPaths_ofProperty, propertiesRestricted]
    refine (append_perm_interleave _ _ _ _).trans (List.Perm.append ?_ hrest)
    refine (List.perm_append_comm_assoc _ _ _).trans (List.Perm.append_left _ ?_)
    rw [← under_append]
    exact under_perm _ htype

theorem eachEnforced_listOf (style : TypeStyle) (expansions : List Expansion) (h : eachPlain expansions) :
    List.Forall₂ List.Perm (eachEnforced (listOf style expansions)) (eachRestricted expansions) := by
  cases expansions with
  | nil => exact .nil
  | cons expansion rest =>
    have hfirst := enforced_ofExpansion style false expansion h.1
    rw [leftToModel, if_neg Bool.false_ne_true, List.append_nil] at hfirst
    exact .cons hfirst (eachEnforced_listOf style rest h.2)
end

end TypeExpr

namespace Guard
open Expansion

mutual
/-- The restrictions that the clauses of a guard enforce. -/
def enforced : Guard → List (Trail × LifecycleSet)
  | .every kind _ element => inElements kind (enforced element)
  | .tuple _ elements => numbered .position 0 (eachEnforced elements)
  | .any variants => numbered .variant 0 (eachEnforced variants)
  | .all clauses => (eachEnforced clauses).flatten
  | .present _ (.property _ key) content => under (.key key) (enforced content)
  | .present _ _ content => enforced content
  | .restricted states key _ content => ([.key key], states) :: enforced content
  | _ => []
termination_by structural guard => guard

def eachEnforced : List Guard → List (List (Trail × LifecycleSet))
  | [] => []
  | guard :: rest => enforced guard :: eachEnforced rest
end

theorem enforced_ofPrimitive (value : Accessor) (literal : Primitive) :
    (ofPrimitive value literal).enforced = [] := by
  cases literal with
  | intrinsic intrinsic => cases intrinsic <;> rfl
  | _ => rfl

/-- A type that is not tested for its presence has no restrictions. -/
theorem restricted_of_ne_tested {type : Expansion} (h : Presence.ofExpansion type ≠ .tested) :
    type.restricted = [] := by
  cases type with
  | primitive => rfl
  | _ => exact absurd rfl h

/-- A clause without a restriction of its own enforces those of its type. -/
theorem enforced_unrestricted (owner : Accessor) (name : String) (optional : Bool) (type : Expansion)
    (content : Guard) (hcontent : content.enforced = type.restricted) :
    (clause owner name optional none (Presence.ofExpansion type) content).enforced =
      under (.key name) type.restricted := by
  cases hpresence : Presence.ofExpansion type with
  | tested => exact congrArg (under (.key name)) hcontent
  | forbidden =>
    rw [restricted_of_ne_tested (by simp [hpresence])]
    rfl
  | free =>
    rw [restricted_of_ne_tested (by simp [hpresence])] at hcontent ⊢
    exact hcontent

/-- A clause enforces its own restriction and those of its type. -/
theorem enforced_clause (owner : Accessor) (name : String) (optional : Bool) (visibility : Option LifecycleSet)
    (type : Expansion) (content : Guard) (hcontent : content.enforced = type.restricted) :
    (clause owner name optional visibility (Presence.ofExpansion type) content).enforced =
      ofVisibility name visibility ++ under (.key name) type.restricted := by
  have hunrestricted := enforced_unrestricted owner name optional type content hcontent
  cases visibility with
  | none => exact hunrestricted
  | some states => exact congrArg (_ :: ·) hunrestricted

mutual
/-- The clauses of a guard enforce the restrictions of its expansion, in their order. -/
theorem enforced_ofExpansion (target : Option Scope) (value : Accessor) (expansion : Expansion) :
    (ofExpansion target value expansion).enforced = expansion.restricted := by
  cases expansion with
  | reference entry generic =>
    rw [ofExpansion, ofReference]
    split <;> rfl
  | primitive literal => exact enforced_ofPrimitive value literal
  | enumeration | member | mapped | terminal | unresolved => rfl
  | derived base => exact enforced_ofExpansion target value base
  | indexed kind element =>
    exact congrArg (inElements kind) (enforced_ofExpansion target (Accessor.element kind) element)
  | model base properties =>
    cases base with
    | none => exact enforced_clausesOf target value properties
    | some base =>
      have hbase := enforced_ofExpansion target value base
      have hclauses := enforced_clausesOf target (.untyped value) properties
      exact congrArg₂ (· ++ ·) hbase hclauses
  | tuple elements => exact congrArg (numbered Step.position 0) (enforced_positionsOf target value 0 elements)
  | union variants => exact congrArg (numbered Step.variant 0) (enforced_variantsOf target value variants)
termination_by structural expansion

theorem enforced_clausesOf (target : Option Scope) (owner : Accessor) (properties : List (Property Expansion)) :
    (eachEnforced (clausesOf target owner properties)).flatten = propertiesRestricted properties := by
  cases properties with
  | nil => rfl
  | cons property rest =>
    rcases property with ⟨name, type, optional, visibility, doc⟩
    have htype := enforced_ofExpansion target (.property owner name) type
    rw [clausesOf, eachEnforced, List.flatten_cons, enforced_clause owner name optional visibility type _ htype,
      enforced_clausesOf target owner rest, propertiesRestricted]

theorem enforced_positionsOf (target : Option Scope) (value : Accessor) (index : Nat)
    (elements : List Expansion) :
    eachEnforced (positionsOf target value index elements) = eachRestricted elements := by
  cases elements with
  | nil => rfl
  | cons element rest =>
    exact congrArg₂ List.cons (enforced_ofExpansion target (.position value index) element)
      (enforced_positionsOf target value (index + 1) rest)

theorem enforced_variantsOf (target : Option Scope) (value : Accessor) (variants : List Expansion) :
    eachEnforced (variantsOf target value variants) = eachRestricted variants := by
  cases variants with
  | nil => rfl
  | cons variant rest =>
    exact congrArg₂ List.cons (enforced_ofExpansion target value variant)
      (enforced_variantsOf target value rest)
end

end Guard
end SchemaGuards

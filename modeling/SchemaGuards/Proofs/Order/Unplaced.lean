import SchemaGuards.Written.Guard

/-!
# Expansions without places

An expansion refers to a registered declaration by its entry, which holds the place of the declaration. No
text depends on that place: a type, a guard and the restrictions in them are the same without it.
-/
namespace SchemaGuards

def Entry.unplaced (entry : Entry) : Entry := { entry with node := 0 }

namespace Expansion

mutual
def unplaced : Expansion → Expansion
  | .reference entry generic => .reference entry.unplaced generic
  | .member owner name literal => .member (owner.map Entry.unplaced) name literal
  | .derived base => .derived (unplaced base)
  | .indexed kind element => .indexed kind (unplaced element)
  | .model (some base) properties => .model (some (unplaced base)) (propertiesUnplaced properties)
  | .model none properties => .model none (propertiesUnplaced properties)
  | .tuple elements => .tuple (listUnplaced elements)
  | .union variants => .union (listUnplaced variants)
  | other => other
termination_by structural expansion => expansion

def listUnplaced : List Expansion → List Expansion
  | [] => []
  | expansion :: rest => unplaced expansion :: listUnplaced rest

def propertiesUnplaced : List (Property Expansion) → List (Property Expansion)
  | [] => []
  | ⟨name, type, optional, visibility, doc⟩ :: rest =>
    ⟨name, unplaced type, optional, visibility, doc⟩ :: propertiesUnplaced rest
end

mutual
theorem restrictions_unplaced (expansion : Expansion) : expansion.unplaced.restrictions = expansion.restrictions := by
  cases expansion with
  | derived base => rw [unplaced, restrictions, restrictions, restrictions_unplaced base]
  | indexed kind element =>
    cases kind <;> rw [unplaced, restrictions, restrictions, restrictions_unplaced element]
  | model base properties =>
    cases base with
    | none => rw [unplaced, restrictions, restrictions, propertyRestrictions_unplaced properties]
    | some base =>
      rw [unplaced, restrictions, restrictions, restrictions_unplaced base, propertyRestrictions_unplaced properties]
  | _ => rfl
termination_by structural expansion

theorem propertyRestrictions_unplaced (properties : List (Property Expansion)) :
    propertyRestrictions (propertiesUnplaced properties) = propertyRestrictions properties := by
  cases properties with
  | nil => rfl
  | cons property rest =>
    rcases property with ⟨name, type, optional, visibility, doc⟩
    rw [propertiesUnplaced, propertyRestrictions, propertyRestrictions, restrictions_unplaced type,
      propertyRestrictions_unplaced rest]
end

end Expansion

namespace TypeExpr
open Expansion

mutual
theorem ofExpansion_unplaced (style : TypeStyle) (inModel : Bool) (expansion : Expansion) :
    ofExpansion style inModel expansion.unplaced = ofExpansion style inModel expansion := by
  cases expansion with
  | member owner name literal => cases owner <;> rfl
  | derived base => rw [unplaced, ofExpansion, ofExpansion, ofExpansion_unplaced style false base]
  | indexed kind element =>
    have hrestrictions := restrictions_unplaced (.indexed kind element)
    rw [unplaced] at hrestrictions ⊢
    rw [ofExpansion, ofExpansion, hrestrictions, ofExpansion_unplaced style true element]
  | model base properties =>
    have hrestrictions := restrictions_unplaced (.model base properties)
    cases base with
    | none =>
      rw [unplaced] at hrestrictions ⊢
      rw [ofExpansion, ofExpansion, hrestrictions, fieldsOf_unplaced style properties]
    | some base =>
      rw [unplaced] at hrestrictions ⊢
      rw [ofExpansion, ofExpansion, hrestrictions, ofExpansion_unplaced style true base,
        fieldsOf_unplaced style properties]
  | tuple elements => rw [unplaced, ofExpansion, ofExpansion, listOf_unplaced style elements]
  | union variants => rw [unplaced, ofExpansion, ofExpansion, listOf_unplaced style variants]
  | _ => rfl
termination_by structural expansion

theorem fieldsOf_unplaced (style : TypeStyle) (properties : List (Property Expansion)) :
    fieldsOf style (propertiesUnplaced properties) = fieldsOf style properties := by
  cases properties with
  | nil => rfl
  | cons property rest =>
    rcases property with ⟨name, type, optional, visibility, doc⟩
    rw [propertiesUnplaced, fieldsOf, fieldsOf, ofExpansion_unplaced style true type, fieldsOf_unplaced style rest]

theorem listOf_unplaced (style : TypeStyle) (expansions : List Expansion) :
    listOf style (listUnplaced expansions) = listOf style expansions := by
  cases expansions with
  | nil => rfl
  | cons expansion rest =>
    rw [listUnplaced, listOf, listOf, ofExpansion_unplaced style false expansion, listOf_unplaced style rest]
end

end TypeExpr

namespace Guard
open Expansion

theorem Presence.ofExpansion_unplaced (expansion : Expansion) :
    Presence.ofExpansion expansion.unplaced = Presence.ofExpansion expansion := by
  cases expansion with
  | model base properties => cases base <;> rfl
  | _ => rfl

mutual
theorem ofExpansion_unplaced (target : Option Scope) (value : Accessor) (expansion : Expansion) :
    ofExpansion target value expansion.unplaced = ofExpansion target value expansion := by
  cases expansion with
  | derived base => rw [unplaced, ofExpansion, ofExpansion, ofExpansion_unplaced target value base]
  | indexed kind element => rw [unplaced, ofExpansion, ofExpansion, ofExpansion_unplaced target _ element]
  | model base properties =>
    cases base with
    | none => rw [unplaced, ofExpansion, ofExpansion, clausesOf_unplaced target value properties]
    | some base =>
      rw [unplaced, ofExpansion, ofExpansion, ofExpansion_unplaced target value base,
        clausesOf_unplaced target _ properties]
  | tuple elements => rw [unplaced, ofExpansion, ofExpansion, positionsOf_unplaced target value 0 elements]
  | union variants => rw [unplaced, ofExpansion, ofExpansion, variantsOf_unplaced target value variants]
  | _ => rfl
termination_by structural expansion

theorem clausesOf_unplaced (target : Option Scope) (owner : Accessor) (properties : List (Property Expansion)) :
    clausesOf target owner (propertiesUnplaced properties) = clausesOf target owner properties := by
  cases properties with
  | nil => rfl
  | cons property rest =>
    rcases property with ⟨name, type, optional, visibility, doc⟩
    rw [propertiesUnplaced, clausesOf, clausesOf, Presence.ofExpansion_unplaced, ofExpansion_unplaced target _ type,
      clausesOf_unplaced target owner rest]

theorem positionsOf_unplaced (target : Option Scope) (value : Accessor) (index : Nat)
    (expansions : List Expansion) :
    positionsOf target value index (listUnplaced expansions) = positionsOf target value index expansions := by
  cases expansions with
  | nil => rfl
  | cons expansion rest =>
    rw [listUnplaced, positionsOf, positionsOf, ofExpansion_unplaced target _ expansion,
      positionsOf_unplaced target value (index + 1) rest]

theorem variantsOf_unplaced (target : Option Scope) (value : Accessor) (expansions : List Expansion) :
    variantsOf target value (listUnplaced expansions) = variantsOf target value expansions := by
  cases expansions with
  | nil => rfl
  | cons expansion rest =>
    rw [listUnplaced, variantsOf, variantsOf, ofExpansion_unplaced target value expansion,
      variantsOf_unplaced target value rest]
end

end Guard
end SchemaGuards

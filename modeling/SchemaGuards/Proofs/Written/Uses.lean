import SchemaGuards.Proofs.Expansion.Restrictions
import SchemaGuards.Written.Guard

/-!
# References in written code

Written code refers to declarations by types, by calls of their guards and by members of enumerations.
It refers to exactly what its expansion refers to, and it imports the namespaces of that.
-/
namespace SchemaGuards

structure Use where
  target : Reference
  /-- Whether the lifecycle is passed. -/
  generic : Bool
  /-- Whether the guard of the declaration is called. -/
  isCall : Bool
deriving DecidableEq, Repr

namespace TypeExpr

mutual
def uses : TypeExpr → List Use
  | .reference target argument => [⟨target, argument.isSome, false⟩]
  | .member owner _ => [⟨owner, false, false⟩]
  | .indexed _ element => uses element
  | .tuple elements => listUses elements
  | .union variants => listUses variants
  | .object (some base) fields => uses base ++ fieldUses fields
  | .object none fields => fieldUses fields
  | .filtered shape _ _ => uses shape
  | _ => []
termination_by structural type => type

def listUses : List TypeExpr → List Use
  | [] => []
  | type :: rest => uses type ++ listUses rest

def fieldUses : List (Property TypeExpr) → List Use
  | [] => []
  | ⟨_, type, _, _, _⟩ :: rest => uses type ++ fieldUses rest
end

def useOf (target : Option Scope) (reference : Entry × Bool) : Use :=
  ⟨Reference.ofEntry target reference.1, reference.2, false⟩

theorem uses_filter (style : TypeStyle) (inModel : Bool) (restrictions : VisibilityMap) (shape : TypeExpr) :
    (filter style inModel restrictions shape).uses = shape.uses := by
  rw [filter]
  split <;> rfl

mutual
theorem uses_ofExpansion (style : TypeStyle) (inModel : Bool) (expansion : Expansion) :
    (ofExpansion style inModel expansion).uses = expansion.references.map (useOf style.target) := by
  cases expansion with
  | reference entry generic => cases generic <;> rfl
  | primitive | enumeration | mapped | terminal | unresolved => rfl
  | member owner name literal => cases owner <;> rfl
  | derived base => exact uses_ofExpansion style false base
  | indexed kind element =>
    rw [ofExpansion, uses_filter]
    exact uses_ofExpansion style true element
  | model base properties =>
    have hfields := uses_fieldsOf style properties
    cases base with
    | none =>
      rw [ofExpansion, uses_filter]
      exact hfields
    | some base =>
      rw [ofExpansion, uses_filter, uses, Expansion.references, List.map_append, hfields,
        uses_ofExpansion style true base]
  | tuple elements => exact uses_listOf style elements
  | union variants => exact uses_listOf style variants
termination_by structural expansion

theorem uses_fieldsOf (style : TypeStyle) (properties : List (Property Expansion)) :
    fieldUses (fieldsOf style properties) =
      (Expansion.propertyReferences properties).map (useOf style.target) := by
  cases properties with
  | nil => rfl
  | cons property rest =>
    rcases property with ⟨name, type, optional, visibility, doc⟩
    rw [fieldsOf, fieldUses, Expansion.propertyReferences, List.map_append,
      uses_ofExpansion style true type, uses_fieldsOf style rest]

theorem uses_listOf (style : TypeStyle) (expansions : List Expansion) :
    listUses (listOf style expansions) = (Expansion.listReferences expansions).map (useOf style.target) := by
  cases expansions with
  | nil => rfl
  | cons expansion rest =>
    rw [listOf, listUses, Expansion.listReferences, List.map_append,
      uses_ofExpansion style false expansion, uses_listOf style rest]
end

mutual
theorem importedScopes_eq (type : TypeExpr) :
    type.importedScopes = type.uses.filterMap (fun use => use.target.imported) := by
  cases type with
  | literal | terminal | verbatim | enumeration => rfl
  | reference target argument => cases himported : target.imported <;> simp [importedScopes, uses, himported]
  | member owner name => cases himported : owner.imported <;> simp [importedScopes, uses, himported]
  | indexed kind element => exact importedScopes_eq element
  | tuple elements => exact listScopes_eq elements
  | union variants => exact listScopes_eq variants
  | object base fields =>
    cases base with
    | none => exact fieldScopes_eq fields
    | some base => rw [importedScopes, uses, List.filterMap_append, importedScopes_eq base, fieldScopes_eq fields]
  | filtered shape restrictions argument => exact importedScopes_eq shape
termination_by structural type

theorem listScopes_eq (types : List TypeExpr) :
    listScopes types = (listUses types).filterMap (fun use => use.target.imported) := by
  cases types with
  | nil => rfl
  | cons type rest => rw [listScopes, listUses, List.filterMap_append, importedScopes_eq type, listScopes_eq rest]

theorem fieldScopes_eq (fields : List (Property TypeExpr)) :
    fieldScopes fields = (fieldUses fields).filterMap (fun use => use.target.imported) := by
  cases fields with
  | nil => rfl
  | cons field rest =>
    rcases field with ⟨name, type, optional, visibility, doc⟩
    rw [fieldScopes, fieldUses, List.filterMap_append, importedScopes_eq type, fieldScopes_eq rest]
end

end TypeExpr

namespace Guard

mutual
def uses : Guard → List Use
  | .call target _ generic => [⟨target, generic, true⟩]
  | .every _ _ element => uses element
  | .tuple _ elements => listUses elements
  | .any variants => listUses variants
  | .all clauses => listUses clauses
  | .present _ _ content => uses content
  | .restricted _ _ _ content => uses content
  | _ => []
termination_by structural guard => guard

def listUses : List Guard → List Use
  | [] => []
  | guard :: rest => uses guard ++ listUses rest
end

/-- A guard call in written code that comes from a reference of an expansion, not to an enumeration. -/
def ComesFrom (target : Option Scope) (references : List (Entry × Bool)) (use : Use) : Prop :=
  ∃ reference ∈ references, reference.1.identity.kind ≠ .enumeration ∧
    use = ⟨Reference.ofEntry target reference.1, reference.2, true⟩

theorem ComesFrom.left {target : Option Scope} {left right : List (Entry × Bool)} {use : Use}
    (h : ComesFrom target left use) : ComesFrom target (left ++ right) use := by
  rcases h with ⟨reference, hmem, hreference⟩
  exact ⟨reference, List.mem_append_left _ hmem, hreference⟩

theorem ComesFrom.right {target : Option Scope} {left right : List (Entry × Bool)} {use : Use}
    (h : ComesFrom target right use) : ComesFrom target (left ++ right) use := by
  rcases h with ⟨reference, hmem, hreference⟩
  exact ⟨reference, List.mem_append_right _ hmem, hreference⟩

theorem uses_clause {owner : Accessor} {name : String} {optional : Bool} {visibility : Option LifecycleSet}
    {presence : Presence} {content : Guard} {use : Use}
    (h : use ∈ (clause owner name optional visibility presence content).uses) : use ∈ content.uses := by
  unfold clause at h
  cases visibility <;> cases presence <;> first | exact h | cases h

mutual
theorem uses_ofExpansion (target : Option Scope) (value : Accessor) (expansion : Expansion) :
    ∀ use ∈ (ofExpansion target value expansion).uses, ComesFrom target expansion.references use := by
  cases expansion with
  | reference entry generic =>
    intro use huse
    rw [ofExpansion, ofReference] at huse
    split at huse
    · cases huse
    · next hkind =>
      cases List.mem_singleton.1 huse
      exact ⟨(entry, generic), by simp [Expansion.references], hkind, rfl⟩
  | primitive literal =>
    cases literal with
    | intrinsic intrinsic => cases intrinsic <;> simp [ofExpansion, ofPrimitive, uses]
    | _ => simp [ofExpansion, ofPrimitive, uses]
  | enumeration | member | mapped | terminal | unresolved => simp [ofExpansion, uses]
  | derived base => exact uses_ofExpansion target value base
  | indexed kind element => exact uses_ofExpansion target (Accessor.element kind) element
  | model base properties =>
    cases base with
    | none => exact uses_clausesOf target value properties
    | some base =>
      intro use huse
      rw [ofExpansion, uses, listUses, List.mem_append] at huse
      rcases huse with huse | huse
      · exact (uses_ofExpansion target value base use huse).left
      · exact (uses_clausesOf target (.untyped value) properties use huse).right
  | tuple elements => exact uses_positionsOf target value 0 elements
  | union variants => exact uses_variantsOf target value variants
termination_by structural expansion

theorem uses_clausesOf (target : Option Scope) (owner : Accessor) (properties : List (Property Expansion)) :
    ∀ use ∈ listUses (clausesOf target owner properties),
      ComesFrom target (Expansion.propertyReferences properties) use := by
  cases properties with
  | nil => simp [clausesOf, listUses]
  | cons property rest =>
    rcases property with ⟨name, type, optional, visibility, doc⟩
    intro use huse
    rw [clausesOf, listUses, List.mem_append] at huse
    rcases huse with huse | huse
    · exact (uses_ofExpansion target (.property owner name) type use (uses_clause huse)).left
    · exact (uses_clausesOf target owner rest use huse).right

theorem uses_positionsOf (target : Option Scope) (value : Accessor) (index : Nat) (elements : List Expansion) :
    ∀ use ∈ listUses (positionsOf target value index elements),
      ComesFrom target (Expansion.listReferences elements) use := by
  cases elements with
  | nil => simp [positionsOf, listUses]
  | cons element rest =>
    intro use huse
    rw [positionsOf, listUses, List.mem_append] at huse
    rcases huse with huse | huse
    · exact (uses_ofExpansion target (.position value index) element use huse).left
    · exact (uses_positionsOf target value (index + 1) rest use huse).right

theorem uses_variantsOf (target : Option Scope) (value : Accessor) (variants : List Expansion) :
    ∀ use ∈ listUses (variantsOf target value variants),
      ComesFrom target (Expansion.listReferences variants) use := by
  cases variants with
  | nil => simp [variantsOf, listUses]
  | cons variant rest =>
    intro use huse
    rw [variantsOf, listUses, List.mem_append] at huse
    rcases huse with huse | huse
    · exact (uses_ofExpansion target value variant use huse).left
    · exact (uses_variantsOf target value rest use huse).right
end

mutual
theorem importedScopes_eq (guard : Guard) :
    guard.importedScopes = guard.uses.filterMap (fun use => use.target.imported) := by
  cases guard with
  | constant | isUndefined | equals | hasType | custom | lacks => rfl
  | call target value generic => cases himported : target.imported <;> simp [importedScopes, uses, himported]
  | every kind value element => exact importedScopes_eq element
  | tuple value elements => exact listScopes_eq elements
  | any variants => exact listScopes_eq variants
  | all clauses => exact listScopes_eq clauses
  | present optional value content => exact importedScopes_eq content
  | restricted states key owner content => exact importedScopes_eq content
termination_by structural guard

theorem listScopes_eq (guards : List Guard) :
    listScopes guards = (listUses guards).filterMap (fun use => use.target.imported) := by
  cases guards with
  | nil => rfl
  | cons guard rest => rw [listScopes, listUses, List.filterMap_append, importedScopes_eq guard, listScopes_eq rest]
end

end Guard
end SchemaGuards

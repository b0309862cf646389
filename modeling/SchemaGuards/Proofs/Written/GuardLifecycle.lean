import SchemaGuards.Proofs.Expansion.Restrictions
import SchemaGuards.Proofs.Layout
import SchemaGuards.Written.Guard

/-!
# The lifecycle of written guards

A guard tests the lifecycle in the clause of a restricted property and passes it to the guard of a
generic declaration. It does either exactly when its expansion holds a restriction, as long as no
enumeration is taken for generic: enumerations have no guard.
-/
namespace SchemaGuards.Guard

mutual
/-- Whether a guard tests the lifecycle or passes it on. -/
def takesLifecycle : Guard → Bool
  | .call _ _ generic => generic
  | .every _ _ element => takesLifecycle element
  | .tuple _ elements => listTakesLifecycle elements
  | .any variants => listTakesLifecycle variants
  | .all clauses => listTakesLifecycle clauses
  | .present _ _ content => takesLifecycle content
  | .restricted .. => true
  | _ => false
termination_by structural guard => guard

def listTakesLifecycle : List Guard → Bool
  | [] => false
  | guard :: rest => takesLifecycle guard || listTakesLifecycle rest
end

def ArePlain (references : List (Entry × Bool)) : Prop :=
  ∀ reference ∈ references, reference.1.identity.kind = .enumeration → reference.2 = false

theorem ArePlain.left {left right : List (Entry × Bool)} (h : ArePlain (left ++ right)) : ArePlain left :=
  fun reference hmem => h reference (List.mem_append_left _ hmem)

theorem ArePlain.right {left right : List (Entry × Bool)} (h : ArePlain (left ++ right)) : ArePlain right :=
  fun reference hmem => h reference (List.mem_append_right _ hmem)

theorem takesLifecycle_clause (owner : Accessor) (name : String) (optional : Bool)
    (visibility : Option LifecycleSet) (type : Expansion) (content : Guard)
    (hcontent : content.takesLifecycle = type.restricts) :
    (clause owner name optional visibility (Presence.ofExpansion type) content).takesLifecycle =
      (visibility.isSome || type.restricts) := by
  cases visibility with
  | some states => rfl
  | none =>
    unfold clause
    cases hpresence : Presence.ofExpansion type with
    | forbidden =>
      unfold Presence.ofExpansion at hpresence
      split at hpresence <;> first | rfl | cases hpresence
    | free => exact hcontent
    | tested => exact hcontent

mutual
theorem takesLifecycle_ofExpansion (target : Option Scope) (value : Accessor) (expansion : Expansion)
    (h : ArePlain expansion.references) :
    (ofExpansion target value expansion).takesLifecycle = expansion.restricts := by
  cases expansion with
  | reference entry generic =>
    rw [ofExpansion, ofReference]
    split
    · next hkind => exact (h (entry, generic) (by simp [Expansion.references]) hkind).symm
    · rfl
  | primitive literal =>
    cases literal with
    | intrinsic intrinsic => cases intrinsic <;> rfl
    | _ => rfl
  | enumeration | member | mapped | terminal | unresolved => rfl
  | derived base => exact takesLifecycle_ofExpansion target value base h
  | indexed kind element => exact takesLifecycle_ofExpansion target (Accessor.element kind) element h
  | model base properties =>
    cases base with
    | none => exact takesLifecycle_clausesOf target value properties h
    | some base =>
      rw [ofExpansion, takesLifecycle, listTakesLifecycle, Expansion.restricts,
        takesLifecycle_ofExpansion target value base h.left,
        takesLifecycle_clausesOf target (.untyped value) properties h.right]
  | tuple elements => exact takesLifecycle_positionsOf target value 0 elements h
  | union variants => exact takesLifecycle_variantsOf target value variants h
termination_by structural expansion

theorem takesLifecycle_clausesOf (target : Option Scope) (owner : Accessor)
    (properties : List (Property Expansion)) (h : ArePlain (Expansion.propertyReferences properties)) :
    listTakesLifecycle (clausesOf target owner properties) = Expansion.propertiesRestrict properties := by
  cases properties with
  | nil => rfl
  | cons property rest =>
    rcases property with ⟨name, type, optional, visibility, doc⟩
    have hcontent := takesLifecycle_ofExpansion target (.property owner name) type h.left
    rw [clausesOf, listTakesLifecycle, Expansion.propertiesRestrict,
      takesLifecycle_clause owner name optional visibility type _ hcontent,
      takesLifecycle_clausesOf target owner rest h.right]

theorem takesLifecycle_positionsOf (target : Option Scope) (value : Accessor) (index : Nat)
    (elements : List Expansion) (h : ArePlain (Expansion.listReferences elements)) :
    listTakesLifecycle (positionsOf target value index elements) = Expansion.listRestricts elements := by
  cases elements with
  | nil => rfl
  | cons element rest =>
    rw [positionsOf, listTakesLifecycle, Expansion.listRestricts,
      takesLifecycle_ofExpansion target (.position value index) element h.left,
      takesLifecycle_positionsOf target value (index + 1) rest h.right]

theorem takesLifecycle_variantsOf (target : Option Scope) (value : Accessor) (variants : List Expansion)
    (h : ArePlain (Expansion.listReferences variants)) :
    listTakesLifecycle (variantsOf target value variants) = Expansion.listRestricts variants := by
  cases variants with
  | nil => rfl
  | cons variant rest =>
    rw [variantsOf, listTakesLifecycle, Expansion.listRestricts,
      takesLifecycle_ofExpansion target value variant h.left,
      takesLifecycle_variantsOf target value rest h.right]
end

/-- How the lifecycle stands in the text of a guard: tested, or passed to another one. -/
def Shows (text : String) : Prop :=
  Text.Contains text "(vis as any) !== Lifecycle.All" ∨ Text.Contains text ", vis)"

theorem texts_subset_conjunction {clauses : List Layout} {clause : Layout} (h : clause ∈ clauses) :
    Layout.texts clause ⊆ Layout.texts (conjunction clauses) := by
  unfold conjunction
  split
  · cases h
  · cases List.mem_singleton.1 h
    exact List.Subset.refl _
  · have hmem : (if Text.hasTopLevelOr (Layout.flat clause) then Layout.wrapped "(" ")" clause else clause) ∈
        clauses.map (fun clause =>
          if Text.hasTopLevelOr (Layout.flat clause) then Layout.wrapped "(" ")" clause else clause) :=
      List.mem_map_of_mem h
    refine List.Subset.trans ?_ (Layout.texts_subset_join hmem)
    split
    · exact Layout.texts_subset_wrapped _ _ _
    · exact List.Subset.refl _

mutual
theorem shows_lifecycle (guard : Guard) (h : guard.takesLifecycle = true) :
    ∃ content ∈ Layout.texts guard.layout, Shows content := by
  cases guard with
  | constant | isUndefined | equals | hasType | custom | lacks => cases h
  | call target value generic =>
    cases h
    refine ⟨target.guardName ++ "(" ++ value.text ++ ", vis)", ?_, .inr ⟨_, "", (String.append_empty).symm⟩⟩
    rw [layout]
    have heq : target.guardName ++ "(" ++ value.text ++ (if true then ", vis" else "") ++ ")" =
        target.guardName ++ "(" ++ value.text ++ ", vis)" := by
      simp [String.append_assoc]
    rw [heq]
    apply Layout.mem_texts_text
    simp [String.append_eq_empty_iff]
  | every kind value element =>
    rcases shows_lifecycle element h with ⟨content, hcontent, hshows⟩
    refine ⟨content, ?_, hshows⟩
    rw [layout]
    simp only [Layout.texts_append, List.mem_append]
    exact .inl (.inr hcontent)
  | tuple value elements =>
    rcases shows_list elements h with ⟨item, hitem, content, hcontent, hshows⟩
    refine ⟨content, ?_, hshows⟩
    rw [layout]
    simp only [Layout.texts_append, List.mem_append]
    exact .inr (Layout.texts_subset_flatMap _ hitem (Layout.texts_subset_wrapped _ _ _ hcontent))
  | any variants =>
    rcases shows_list variants h with ⟨item, hitem, content, hcontent, hshows⟩
    refine ⟨content, ?_, hshows⟩
    cases variants with
    | nil => cases h
    | cons first rest =>
      exact Layout.texts_subset_join (List.mem_map_of_mem hitem) (Layout.texts_subset_wrapped _ _ _ hcontent)
  | all clauses =>
    rcases shows_list clauses h with ⟨item, hitem, content, hcontent, hshows⟩
    exact ⟨content, texts_subset_conjunction hitem hcontent, hshows⟩
  | present optional value content =>
    rcases shows_lifecycle content h with ⟨text, htext, hshows⟩
    exact ⟨text, Layout.texts_subset_wrapped _ _ _ htext, hshows⟩
  | restricted states key owner content =>
    refine ⟨_, ?_, .inl ⟨"(", " && ![" ++ states.references ++ "].includes(vis) ? !(" ++ Text.quote key ++
      " in " ++ owner.text ++ ") : (", rfl⟩⟩
    rw [layout, Layout.wrapped]
    simp only [Layout.texts_append, List.mem_append]
    left
    left
    have heq : "((vis as any) !== Lifecycle.All && ![" ++ states.references ++ "].includes(vis) ? !(" ++
        Text.quote key ++ " in " ++ owner.text ++ ") : (" =
        "(" ++ "(vis as any) !== Lifecycle.All" ++ (" && ![" ++ states.references ++ "].includes(vis) ? !(" ++
          Text.quote key ++ " in " ++ owner.text ++ ") : (") := by
      simp only [String.append_assoc]
      rfl
    rw [heq]
    apply Layout.mem_texts_text
    simp [String.append_eq_empty_iff]
termination_by structural guard

theorem shows_list (guards : List Guard) (h : listTakesLifecycle guards = true) :
    ∃ item ∈ layouts guards, ∃ content ∈ Layout.texts item, Shows content := by
  cases guards with
  | nil => cases h
  | cons guard rest =>
    rw [listTakesLifecycle, Bool.or_eq_true] at h
    rw [layouts]
    rcases h with hguard | hrest
    · exact ⟨guard.layout, by simp, shows_lifecycle guard hguard⟩
    · rcases shows_list rest hrest with ⟨item, hitem, hshows⟩
      exact ⟨item, List.mem_cons_of_mem _ hitem, hshows⟩
end

end SchemaGuards.Guard

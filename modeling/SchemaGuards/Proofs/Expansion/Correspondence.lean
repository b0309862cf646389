import SchemaGuards.Proofs.Expansion.Reports

/-!
# Corresponding computations

The expansion of a node is written once for all kinds of computation. So a relation between two kinds
holds between whole expansions as soon as it holds between their single steps and survives running one
computation after the other.
-/
namespace SchemaGuards

/-- A relation between two kinds of computation that survives their composition. Of the steps with
diagnostics only those that an expansion takes have to be related. -/
structure Correspondence (m n : Type → Type) [Monad m] [Monad n] [MonadLiftT Traced m] [MonadLiftT Traced n] where
  Holds : {α : Type} → m α → n α → Prop
  holds_pure : ∀ {α : Type} (value : α), Holds (pure value) (pure value)
  holds_bind : ∀ {α β : Type} {step : m α} {other : n α} {next : α → m β} {nextOther : α → n β},
    Holds step other → (∀ value, Holds (next value) (nextOther value)) →
      Holds (step >>= next) (other >>= nextOther)
  holds_lift : ∀ {α : Type} (traced : Traced α), traced.Reports → Holds (liftM traced) (liftM traced)

namespace Correspondence
variable {m n : Type → Type} [Monad m] [Monad n] [MonadLiftT Traced m] [MonadLiftT Traced n]
  (correspondence : Correspondence m n) {α β : Type} {workspace : Workspace} {mode : Mode}
  {child : NodeId → m Expansion} {childOther : NodeId → n Expansion}

theorem holds_expandProperty (h : ∀ part, correspondence.Holds (child part) (childOther part))
    (property : Property NodeId) :
    correspondence.Holds (workspace.expandProperty mode child property)
      (workspace.expandProperty mode childOther property) := by
  unfold Workspace.expandProperty
  dsimp only
  split
  · exact correspondence.holds_bind (correspondence.holds_pure _) (fun _ => correspondence.holds_pure _)
  · exact correspondence.holds_bind (h property.type) (fun _ => correspondence.holds_pure _)

section Lawful
variable [LawfulMonad m] [LawfulMonad n]

theorem holds_map {step : m α} {other : n α} (h : correspondence.Holds step other) (change : α → β) :
    correspondence.Holds (change <$> step) (change <$> other) := by
  rw [map_eq_pure_bind, map_eq_pure_bind]
  exact correspondence.holds_bind h (fun value => correspondence.holds_pure (change value))

theorem holds_mapM {step : α → m β} {other : α → n β}
    (h : ∀ value, correspondence.Holds (step value) (other value)) (values : List α) :
    correspondence.Holds (values.mapM step) (values.mapM other) := by
  induction values with
  | nil => exact correspondence.holds_pure []
  | cons value rest ih =>
    rw [List.mapM_cons, List.mapM_cons]
    refine correspondence.holds_bind (h value) (fun first => ?_)
    exact correspondence.holds_bind ih (fun others => correspondence.holds_pure (first :: others))

theorem holds_optionMapM {step : α → m β} {other : α → n β}
    (h : ∀ value, correspondence.Holds (step value) (other value)) (value : Option α) :
    correspondence.Holds (value.mapM step) (value.mapM other) := by
  cases value with
  | none => exact correspondence.holds_pure none
  | some found =>
    rw [Option.mapM_some, Option.mapM_some]
    exact correspondence.holds_map (h found) some

theorem holds_expandScalar (h : ∀ part, correspondence.Holds (child part) (childOther part)) (content : Scalar) :
    correspondence.Holds (workspace.expandScalar mode content child)
      (workspace.expandScalar mode content childOther) := by
  unfold Workspace.expandScalar
  split
  · exact correspondence.holds_pure _
  · split
    · exact correspondence.holds_map (h _) _
    · split
      · exact correspondence.holds_pure _
      · refine correspondence.holds_bind ?_ (fun _ => correspondence.holds_pure _)
        exact correspondence.holds_lift _ (Traced.reports_warn _ _)

theorem holds_expandModel (h : ∀ part, correspondence.Holds (child part) (childOther part)) (content : Model) :
    correspondence.Holds (workspace.expandModel mode content child)
      (workspace.expandModel mode content childOther) := by
  unfold Workspace.expandModel
  split
  · exact correspondence.holds_map (h _) _
  · exact correspondence.holds_lift _ (Workspace.refuseUnindexed_reports mode content)
  · refine correspondence.holds_bind (correspondence.holds_optionMapM h _) (fun _ => ?_)
    refine correspondence.holds_bind (correspondence.holds_mapM ?_ _) (fun _ => correspondence.holds_pure _)
    exact correspondence.holds_expandProperty h

/-- Expansions of a node correspond when those of the nodes that it mentions do. -/
theorem holds_expandNode (h : ∀ part, correspondence.Holds (child part) (childOther part)) (node : Node) :
    correspondence.Holds (workspace.expandNode mode node child) (workspace.expandNode mode node childOther) := by
  cases node with
  | primitive | enumeration => exact correspondence.holds_pure _
  | member owner name => exact correspondence.holds_lift _ (workspace.expandMember_reports mode owner name)
  | scalar content => exact correspondence.holds_expandScalar h content
  | model content => exact correspondence.holds_expandModel h content
  | tuple elements => exact correspondence.holds_map (correspondence.holds_mapM h elements) _
  | union content => exact correspondence.holds_map (correspondence.holds_mapM h content.variants) _
  | unsupported kind => exact correspondence.holds_lift _ (Workspace.refuseKind_reports kind)

end Lawful
end Correspondence

end SchemaGuards

import SchemaGuards.Proofs.Expansion.Yields

/-!
# Types and guards are expanded alike

The mode of an expansion decides on the mappings of scalars and on the codes and messages of
diagnostics. Without mappings both modes succeed with the same expansion or fail with the same error,
and they report diagnostics of the same severities. Only a guard does not follow a property that has
to be absent, and that one neither fails nor reports anything.
-/
namespace SchemaGuards

namespace Traced
variable {α β : Type}

/-- Two computations end alike, and what they report differs in codes and messages only. -/
structure Matches (step other : Traced α) : Prop where
  outcome_eq : step.outcome = other.outcome
  severities_eq : step.log.map Diagnostic.severity = other.log.map Diagnostic.severity

namespace Matches
variable {step other : Traced α}

theorem refl (step : Traced α) : step.Matches step := ⟨rfl, rfl⟩

theorem fail (code codeOther : String) (error : GenerationError) :
    (Traced.fail code error : Traced α).Matches (Traced.fail codeOther error) := ⟨rfl, rfl⟩

theorem warn (code codeOther message messageOther : String) :
    (Traced.warn code message).Matches (Traced.warn codeOther messageOther) := ⟨rfl, rfl⟩

theorem bind {next nextOther : α → Traced β} (h : step.Matches other)
    (hnext : ∀ value, (next value).Matches (nextOther value)) :
    (step >>= next).Matches (other >>= nextOther) := by
  cases houtcome : step.outcome with
  | error error =>
    rw [bind_error houtcome, bind_error (h.outcome_eq ▸ houtcome)]
    exact ⟨rfl, h.severities_eq⟩
  | ok value =>
    rw [bind_ok houtcome, bind_ok (h.outcome_eq ▸ houtcome)]
    refine ⟨(hnext value).outcome_eq, ?_⟩
    simp only [List.map_append, h.severities_eq, (hnext value).severities_eq]

theorem map (h : step.Matches other) (change : α → β) : (change <$> step).Matches (change <$> other) := by
  rw [map_eq_pure_bind, map_eq_pure_bind]
  exact h.bind (fun _ => refl _)

theorem mapM {step other : α → Traced β} {values : List α}
    (h : ∀ value ∈ values, (step value).Matches (other value)) :
    (values.mapM step).Matches (values.mapM other) := by
  induction values with
  | nil => exact refl _
  | cons value rest ih =>
    rw [List.mapM_cons, List.mapM_cons]
    have hrest := ih (fun value hvalue => h value (List.mem_cons_of_mem _ hvalue))
    exact (h value List.mem_cons_self).bind (fun _ => hrest.bind (fun _ => refl _))

theorem optionMapM {step other : α → Traced β} (h : ∀ value, (step value).Matches (other value))
    (value : Option α) : (value.mapM step).Matches (value.mapM other) := by
  cases value with
  | none => exact refl _
  | some found =>
    rw [Option.mapM_some, Option.mapM_some]
    exact (h found).map _

end Matches
end Traced

namespace Workspace
variable {workspace : Workspace}

def IsUnmapped (workspace : Workspace) : Prop := ∀ mode scalar, workspace.mapping? mode scalar = none

theorem isUnmapped_of_config (htypes : workspace.config.typeMappings = [])
    (hguards : workspace.config.guardMappings = []) : workspace.IsUnmapped := by
  intro mode scalar
  cases mode <;> simp [mapping?, htypes, hguards]

section Node
variable {types guards : NodeId → Traced Expansion}

theorem expandScalar_modes (hunmapped : workspace.IsUnmapped) (content : Scalar)
    (h : ∀ part, (types part).Matches (guards part)) :
    (workspace.expandScalar .type content types).Matches (workspace.expandScalar .guard content guards) := by
  unfold expandScalar
  rw [hunmapped, hunmapped]
  cases content.deferredTo? with
  | some base => exact (h base).map _
  | none =>
    cases content.terminal? workspace.config.serializableDates with
    | some type => exact .refl _
    | none => exact (Traced.Matches.warn _ _ _ _).bind (fun _ => .refl _)

theorem expandMember_modes (owner : NodeId) (name : String) :
    (workspace.expandMember .type owner name).Matches (workspace.expandMember .guard owner name) := by
  unfold expandMember
  split
  · split
    · exact .refl _
    · exact .fail _ _ _
  · exact .fail _ _ _

theorem expandProperty_modes (property : Property NodeId)
    (h : (types property.type).Matches (guards property.type))
    (hnever : (workspace.graph.node? property.type).any Node.isNever = true →
      types property.type = pure (.primitive (.intrinsic .never))) :
    (workspace.expandProperty .type types property).Matches
      (workspace.expandProperty .guard guards property) := by
  unfold expandProperty
  by_cases habsent : (workspace.graph.node? property.type).any Node.isNever = true
  · simp only [habsent, hnever]
    exact .refl _
  · simp only [habsent]
    exact h.bind (fun _ => .refl _)

theorem expandModel_modes (content : Model) (h : ∀ part, (types part).Matches (guards part))
    (hnever : ∀ part, (workspace.graph.node? part).any Node.isNever = true →
      types part = pure (.primitive (.intrinsic .never))) :
    (workspace.expandModel .type content types).Matches (workspace.expandModel .guard content guards) := by
  unfold expandModel
  cases content.indexed? with
  | some kind =>
    cases content.indexer with
    | some element => exact (h element).map _
    | none => exact .fail _ _ _
  | none =>
    refine (Traced.Matches.optionMapM h _).bind (fun base => ?_)
    refine (Traced.Matches.mapM ?_).bind (fun _ => .refl _)
    exact fun property _ => expandProperty_modes property (h _) (hnever _)

theorem expandNode_modes (hunmapped : workspace.IsUnmapped) (node : Node)
    (h : ∀ part, (types part).Matches (guards part))
    (hnever : ∀ part, (workspace.graph.node? part).any Node.isNever = true →
      types part = pure (.primitive (.intrinsic .never))) :
    (workspace.expandNode .type node types).Matches (workspace.expandNode .guard node guards) := by
  cases node with
  | primitive | enumeration | unsupported => exact .refl _
  | member owner name => exact expandMember_modes owner name
  | scalar content => exact expandScalar_modes hunmapped content h
  | model content => exact expandModel_modes content h hnever
  | tuple elements => exact (Traced.Matches.mapM (fun part _ => h part)).map _
  | union content => exact (Traced.Matches.mapM (fun part _ => h part)).map _

end Node

/-- A property that has to be absent has no name to be referred to by, and nothing inside. -/
theorem expand_never (mode : Mode) {locked : Bool} {ancestry : List NodeId} {id : NodeId}
    (h : (workspace.graph.node? id).any Node.isNever = true)
    (hancestry : ∀ outer ∈ ancestry, (workspace.graph.node? outer).any Node.isNever = false) :
    workspace.expand mode locked ancestry id = pure (.primitive (.intrinsic .never)) := by
  rcases (Option.any_eq_true _ _).1 h with ⟨node, hnode, hnever⟩
  have hshape : node = .primitive (.intrinsic .never) := by simpa [Node.isNever] using hnever
  have hcycle : id ∉ ancestry := by
    intro hmem
    rw [hancestry id hmem] at h
    cases h
  rw [hshape] at hnode
  have hreference : workspace.reference? locked id (.primitive (.intrinsic .never)) = none := by
    cases locked <;> rfl
  rw [expand_node workspace mode hnode hreference hcycle]
  rfl

/-- Without mappings a node is expanded for its guard as it is for its type, step by step. -/
theorem expand_matches (hunmapped : workspace.IsUnmapped) (locked : Bool) (ancestry : List NodeId) (id : NodeId)
    (hancestry : ∀ outer ∈ ancestry, (workspace.graph.node? outer).any Node.isNever = false) :
    (workspace.expand .type locked ancestry id).Matches (workspace.expand .guard locked ancestry id) := by
  induction locked, ancestry, id using Workspace.expand.induct workspace with
  | case1 locked ancestry id hnode =>
    rw [expand_missing workspace _ hnode, expand_missing workspace _ hnode]
    exact .refl _
  | case2 locked ancestry id node hnode reference hreference =>
    rw [expand_reference workspace _ hnode hreference, expand_reference workspace _ hnode hreference]
    exact .refl _
  | case3 locked ancestry id node hnode hreference hcycle =>
    rw [expand_cycle workspace _ hnode hreference hcycle, expand_cycle workspace _ hnode hreference hcycle]
    exact .refl _
  | case4 locked ancestry id node hnode hreference hcycle _ ih =>
    by_cases hnever : node.isNever = true
    · have hany : (workspace.graph.node? id).any Node.isNever = true := by simpa [hnode] using hnever
      rw [expand_never _ hany hancestry, expand_never _ hany hancestry]
      exact .refl _
    · have hbelow : ∀ outer ∈ id :: ancestry, (workspace.graph.node? outer).any Node.isNever = false := by
        intro outer houter
        rcases List.mem_cons.1 houter with rfl | houter
        · simpa [hnode] using hnever
        · exact hancestry outer houter
      rw [expand_node workspace _ hnode hreference hcycle, expand_node workspace _ hnode hreference hcycle]
      exact expandNode_modes hunmapped node (fun part => ih part hbelow)
        (fun part hpart => expand_never .type hpart hbelow)

/-- Without mappings a node has one expansion, for its type and for its guard. -/
theorem expand_modes (hunmapped : workspace.IsUnmapped) (locked : Bool) (ancestry : List NodeId) (id : NodeId)
    (hancestry : ∀ outer ∈ ancestry, (workspace.graph.node? outer).any Node.isNever = false) :
    (workspace.expand .type locked ancestry id).outcome =
      (workspace.expand .guard locked ancestry id).outcome :=
  (expand_matches hunmapped locked ancestry id hancestry).outcome_eq

end Workspace
end SchemaGuards

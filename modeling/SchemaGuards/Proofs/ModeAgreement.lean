import SchemaGuards.Proofs.Expansion.Modes
import SchemaGuards.Proofs.Linking.Unfolding
import SchemaGuards.Proofs.Session
import SchemaGuards.Proofs.Written.Uses

/-!
# Resolving for a type and for a guard

When no scalar has a text of its own, the two modes of a session agree, whatever the graph is and
whatever the session has been asked before: on whether a node can be resolved and on the error if it
cannot, on reachable restrictions and on how many warnings are reported. A guard leaves out references
that its type has, but it never adds one.
-/
namespace SchemaGuards

namespace Workspace
variable {workspace : Workspace}

/-- A guard refers to nothing that the type of the same expansion does not refer to. -/
theorem guardOf_imports_subset (context : Context) (expansion : Expansion) :
    (guardOf context expansion).importedScopes ⊆ (workspace.typeOf context expansion).importedScopes := by
  intro scope hscope
  rw [Guard.importedScopes_eq, List.mem_filterMap] at hscope
  obtain ⟨use, huse, himported⟩ := hscope
  obtain ⟨reference, hreference, _, rfl⟩ := Guard.uses_ofExpansion _ _ expansion use huse
  rw [TypeExpr.importedScopes_eq, List.mem_filterMap, typeOf, TypeExpr.uses_ofExpansion]
  exact ⟨_, List.mem_map_of_mem hreference, himported⟩

theorem write_modes (id : NodeId) (context : Context) (expansion : Expansion) :
    (workspace.write .guard id context expansion).isGeneric =
        (workspace.write .type id context expansion).isGeneric ∧
      (workspace.write .guard id context expansion).imports ⊆
        (workspace.write .type id context expansion).imports := by
  refine ⟨rfl, fun scope hscope => ?_⟩
  have hmem : scope ∈ (guardOf context expansion).importedScopes := mem_distinct.1 hscope
  exact mem_distinct.2 (guardOf_imports_subset context expansion hmem)

end Workspace

def Diagnostics.warnings (diagnostics : Diagnostics) : Nat :=
  (diagnostics.filter (fun diagnostic => diagnostic.severity = .warning)).length

theorem Diagnostics.warnings_eq (diagnostics : Diagnostics) :
    diagnostics.warnings = (diagnostics.map Diagnostic.severity).count .warning := by
  rw [warnings, List.count, List.countP_map, List.countP_eq_length_filter]
  rfl

theorem Traced.Matches.warnings_eq {α : Type} {step other : Traced α} (h : step.Matches other) :
    step.log.warnings = other.log.warnings := by
  rw [Diagnostics.warnings_eq, Diagnostics.warnings_eq, h.severities_eq]

theorem Diagnostics.warnings_append (earlier later : Diagnostics) :
    Diagnostics.warnings (earlier ++ later) = earlier.warnings + later.warnings := by
  rw [warnings, List.filter_append, List.length_append, warnings, warnings]

/-- A type and a guard of one node: both fail, with one error, or the guard has what the type has. -/
inductive SameTraversal : Except GenerationError Resolution → Except GenerationError Resolution → Prop
  | failed (error : GenerationError) : SameTraversal (.error error) (.error error)
  | resolved (type guard : Resolution) (generic_eq : guard.isGeneric = type.isGeneric)
    (imports_subset : guard.imports ⊆ type.imports) : SameTraversal (.ok type) (.ok guard)

namespace Workspace
variable {workspace : Workspace}

theorem resolve_matches (hunmapped : workspace.IsUnmapped) (id : NodeId) {context : Context}
    (hcontext : ∀ outer ∈ context.ancestry, (workspace.graph.node? outer).any Node.isNever = false) :
    SameTraversal (workspace.resolve .type id context).outcome (workspace.resolve .guard id context).outcome ∧
      (workspace.resolve .type id context).log.warnings =
        (workspace.resolve .guard id context).log.warnings := by
  have hmatches := expand_matches hunmapped context.locked context.ancestry id hcontext
  refine ⟨?_, by rw [resolve_log, resolve_log, hmatches.warnings_eq]⟩
  cases houtcome : (workspace.expand .type context.locked context.ancestry id).outcome with
  | error error =>
    rw [resolve, resolve, Traced.bind_error houtcome, Traced.bind_error (hmatches.outcome_eq ▸ houtcome)]
    exact .failed error
  | ok expansion =>
    rw [resolve, resolve, Traced.bind_ok houtcome, Traced.bind_ok (hmatches.outcome_eq ▸ houtcome)]
    have hwrite := workspace.write_modes id context expansion
    exact .resolved _ _ hwrite.1 hwrite.2

end Workspace

namespace Session

theorem Continues.warnings_eq {session later : Session} {log : Diagnostics} (h : session.Continues later log) :
    later.diagnostics.warnings = session.diagnostics.warnings + log.warnings := by
  rw [h.diagnostics_eq, Diagnostics.warnings_append]

/-- Without mappings, resolving a node for its type and for its guard is one traversal, in sessions with any
histories over any graph, as long as no node around is one that has to be absent. No node at all is around a
declaration or a piece of detached code. -/
theorem resolve_modes (workspace : Workspace) (htypes : workspace.config.typeMappings = [])
    (hguards : workspace.config.guardMappings = []) (history historyOther : List Request) (id : NodeId)
    {context : Context}
    (hcontext : ∀ outer ∈ context.ancestry, (workspace.graph.node? outer).any Node.isNever = false) :
    let session := Session.after { workspace } history
    let other := Session.after { workspace } historyOther
    let typed := session.resolve .type id context
    let tested := other.resolve .guard id context
    SameTraversal typed.1 tested.1 ∧
      ∃ count, typed.2.diagnostics.warnings = session.diagnostics.warnings + count ∧
        tested.2.diagnostics.warnings = other.diagnostics.warnings + count := by
  intro session other typed tested
  have hfresh : IsSound { workspace } := fun _ _ hknown => by cases hknown
  obtain ⟨hsound, hworkspace⟩ := after_sound hfresh history
  obtain ⟨hsoundOther, hworkspaceOther⟩ := after_sound hfresh historyOther
  obtain ⟨htyped, htypedLater⟩ := resolve_spec hsound .type id context
  obtain ⟨htested, htestedLater⟩ := resolve_spec hsoundOther .guard id context
  obtain ⟨htraversal, hwarnings⟩ :=
    workspace.resolve_matches (workspace.isUnmapped_of_config htypes hguards) id hcontext
  rw [hworkspace] at htyped htypedLater
  rw [hworkspaceOther] at htested htestedLater
  refine ⟨htyped ▸ htested ▸ htraversal, _, htypedLater.warnings_eq, ?_⟩
  exact htestedLater.warnings_eq.trans (congrArg _ hwarnings.symm)

/-- A model with a base and a member of another namespace, after requests about places that do not exist. -/
theorem resolve_modes_hidingGraph :
    let workspace : Workspace :=
      ⟨Sample.hidingGraph, [⟨⟨.enumeration, "Kind", ["A"]⟩, 0⟩, ⟨⟨.model, "M", ["A"]⟩, 1⟩,
        ⟨⟨.model, "M", ["A", "B"]⟩, 2⟩], {}⟩
    let context := ((Context.ofScope ["A", "B"]).withAccessor "value").withLifecycle "Phase"
    let typed := (Session.after { workspace } [.resolve .guard 40 .detached]).resolve .type 2 context
    let tested := (Session.after { workspace } [.isGeneric 2]).resolve .guard 2 context
    ∃ type guard, typed.1 = .ok type ∧ tested.1 = .ok guard ∧ guard.imports = [["A"]] ∧
      guard.imports ⊆ type.imports ∧ guard.isGeneric = type.isGeneric := by
  intro workspace context typed tested
  have hcontext : ∀ outer ∈ context.ancestry, (workspace.graph.node? outer).any Node.isNever = false := by
    simp [context, Context.ofScope, Context.withAccessor, Context.withLifecycle]
  have hparallel :=
    (resolve_modes workspace rfl rfl [.resolve .guard 40 .detached] [.isGeneric 2] 2 hcontext).1
  have himports : tested.1.toOption.map Resolution.imports = some [["A"]] := by decide +kernel
  generalize typed.1 = first at hparallel
  generalize tested.1 = second at hparallel himports
  cases hparallel with
  | failed error => cases himports
  | resolved type guard hgeneric hsubset => exact ⟨type, guard, rfl, rfl, Option.some.inj himports, hsubset, hgeneric⟩

end Session
end SchemaGuards

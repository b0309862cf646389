import SchemaGuards.Proofs.Generation
import SchemaGuards.Proofs.Written.GuardLifecycle
import SchemaGuards.Proofs.Written.TypeLifecycle

/-!
# The lifecycle is used exactly when it is declared

A declaration takes a lifecycle when a restriction can be reached from it. Its written type and guard
use the lifecycle in exactly that case, whatever the expansion stops at on the way.
-/
namespace SchemaGuards

namespace TypeExpr

theorem Shows.of_contains {whole part argument : String} (h : Shows part argument)
    (hcontains : Text.Contains whole part) : Shows whole argument :=
  h.imp hcontains.trans hcontains.trans

theorem shows_renderings {type : TypeExpr} {argument : String} (h : argument ∈ type.arguments) :
    Shows (Layout.flat type.layout) argument ∧ ∀ level, Shows (Layout.prettyAt level type.layout) argument := by
  rcases shows_argument type h with ⟨content, hcontent, hshows⟩
  rcases Layout.contains_renderings type.layout hcontent with ⟨hflat, hpretty⟩
  exact ⟨hshows.of_contains hflat, fun level => hshows.of_contains (hpretty level)⟩

end TypeExpr

namespace Guard

theorem Shows.of_contains {whole part : String} (h : Shows part) (hcontains : Text.Contains whole part) :
    Shows whole :=
  h.imp hcontains.trans hcontains.trans

theorem shows_renderings {guard : Guard} (h : guard.takesLifecycle = true) :
    Shows (Layout.flat guard.layout) ∧ ∀ level, Shows (Layout.prettyAt level guard.layout) := by
  rcases shows_lifecycle guard h with ⟨content, hcontent, hshows⟩
  rcases Layout.contains_renderings guard.layout hcontent with ⟨hflat, hpretty⟩
  exact ⟨hshows.of_contains hflat, fun level => hshows.of_contains (hpretty level)⟩

end Guard

namespace Workspace
variable {workspace : Workspace} {kinds : List String} {mode : Mode} {id : NodeId} {context : Context}

/-- The guard of a node takes the lifecycle when a restriction can be reached from it. -/
theorem IsSound.takesLifecycle_guardOf (hsound : workspace.IsSound kinds) {expansion : Expansion}
    (h : (workspace.expand .guard context.locked context.ancestry id).outcome = .ok expansion) :
    (guardOf context expansion).takesLifecycle = workspace.graph.reachesRestriction id := by
  rw [guardOf, Guard.takesLifecycle_ofExpansion, expand_restricts hsound.linked hsound.valid h]
  intro reference hreference hkind
  exact (expand_refers hsound h reference hreference).not_generic hsound hkind

/-- Outside a model, the type of a node takes the lifecycle when a restriction can be reached from it. -/
theorem IsSound.arguments_typeOf (hsound : workspace.IsSound kinds) {expansion : Expansion}
    (h : (workspace.expand .type context.locked context.ancestry id).outcome = .ok expansion)
    (hmodel : workspace.isInModel context = false) :
    (workspace.typeOf context expansion).arguments.isEmpty = !workspace.graph.reachesRestriction id := by
  rw [typeOf, hmodel, TypeExpr.isEmpty_arguments, expand_restricts hsound.linked hsound.valid h]

/-- Without a restriction to reach, resolving a type does not see the lifecycle argument. -/
theorem IsSound.resolve_withLifecycle (hsound : workspace.IsSound kinds)
    (hnone : workspace.graph.reachesRestriction id = false) (context : Context) (argument : String) :
    workspace.resolve .type id (context.withLifecycle argument) = workspace.resolve .type id context := by
  have hexpand : workspace.expand .type (context.withLifecycle argument).locked
      (context.withLifecycle argument).ancestry id =
        workspace.expand .type context.locked context.ancestry id := rfl
  unfold resolve
  rw [hexpand]
  cases houtcome : (workspace.expand .type context.locked context.ancestry id).outcome with
  | error error => rw [Traced.bind_error houtcome, Traced.bind_error houtcome]
  | ok expansion =>
    have hrestricts := expand_restricts hsound.linked hsound.valid houtcome
    rw [hnone] at hrestricts
    have htype : workspace.typeOf (context.withLifecycle argument) expansion =
        workspace.typeOf context expansion :=
      TypeExpr.ofExpansion_withArgument (workspace.typeStyle context) argument
        (workspace.isInModel context) expansion hrestricts
    rw [Traced.bind_ok houtcome, Traced.bind_ok houtcome]
    simp only [write, htype]
    rfl

end Workspace

/-- Resolving a node uses the lifecycle exactly when a restriction can be reached from the node. -/
theorem resolve_lifecycle {text : String} {graph : Graph} {registry : Registry}
    (hgraph : Graph.ofText text = .ok graph) (hvalid : graph.validate = .ok ())
    (hregistry : Registry.ofGraph graph = .ok registry) (config : Config) (id : NodeId) (context : Context) :
    let workspace : Workspace := ⟨graph, registry, config⟩
    (graph.reachesRestriction id = false →
      (∀ first second, workspace.resolve .type id (context.withLifecycle first) =
        workspace.resolve .type id (context.withLifecycle second)) ∧
      ∀ resolution, (workspace.resolve .guard id context).outcome = .ok resolution →
        ∃ expansion, (workspace.expand .guard context.locked context.ancestry id).outcome = .ok expansion ∧
          resolution.text = (Workspace.guardOf context expansion).layout ∧
          (Workspace.guardOf context expansion).takesLifecycle = false) ∧
    (graph.reachesRestriction id = true → workspace.isInModel context = false →
      (∀ resolution, (workspace.resolve .type id context).outcome = .ok resolution →
        TypeExpr.Shows (Layout.flat resolution.text) context.lifecycle ∧
        ∃ expansion, (workspace.expand .type context.locked context.ancestry id).outcome = .ok expansion ∧
          resolution.text = (workspace.typeOf context expansion).layout ∧
          context.lifecycle ∈ (workspace.typeOf context expansion).arguments) ∧
      ∀ resolution, (workspace.resolve .guard id context).outcome = .ok resolution →
        Guard.Shows (Layout.flat resolution.text) ∧
        ∃ expansion, (workspace.expand .guard context.locked context.ancestry id).outcome = .ok expansion ∧
          resolution.text = (Workspace.guardOf context expansion).layout ∧
          (Workspace.guardOf context expansion).takesLifecycle = true) := by
  intro workspace
  have hsound : ∃ kinds, workspace.IsSound kinds := by
    rcases Workspace.ofText_isSound hgraph hvalid with ⟨found, kinds, hfound, hsound, _⟩
    cases hregistry.symm.trans hfound
    exact ⟨kinds, hsound config⟩
  rcases hsound with ⟨kinds, hsound⟩
  constructor
  · intro hnone
    constructor
    · intro first second
      rw [hsound.resolve_withLifecycle hnone context first, hsound.resolve_withLifecycle hnone context second]
    · intro resolution hresolution
      rcases Workspace.resolve_ok hresolution with ⟨expansion, hexpansion, rfl⟩
      exact ⟨expansion, hexpansion, rfl, (hsound.takesLifecycle_guardOf hexpansion).trans hnone⟩
  · intro hsome hmodel
    constructor
    · intro resolution hresolution
      rcases Workspace.resolve_ok hresolution with ⟨expansion, hexpansion, rfl⟩
      have hempty := hsound.arguments_typeOf hexpansion hmodel
      rw [show workspace.graph.reachesRestriction id = true from hsome, Bool.not_true] at hempty
      have hmem : context.lifecycle ∈ (workspace.typeOf context expansion).arguments := by
        cases harguments : (workspace.typeOf context expansion).arguments with
        | nil => simp [harguments] at hempty
        | cons argument rest =>
          have heq := TypeExpr.arguments_eq (workspace.typeStyle context) (workspace.isInModel context)
            expansion argument (by rw [← Workspace.typeOf, harguments]; simp)
          rw [heq]
          exact List.mem_cons_self
      exact ⟨(TypeExpr.shows_renderings hmem).1, expansion, hexpansion, rfl, hmem⟩
    · intro resolution hresolution
      rcases Workspace.resolve_ok hresolution with ⟨expansion, hexpansion, rfl⟩
      have htakes := (hsound.takesLifecycle_guardOf hexpansion).trans hsome
      exact ⟨(Guard.shows_renderings htakes).1, expansion, hexpansion, rfl, htakes⟩

/-- The model of the small document uses the lifecycle, the scalar that it mentions does not. -/
theorem resolve_lifecycle_restrictedText :
    (∃ resolution, (Sample.restrictedWorkspace.resolve .type 0 (.ofScope ["A"])).outcome = .ok resolution ∧
      TypeExpr.Shows (Layout.flat resolution.text) "V") ∧
    Sample.restrictedWorkspace.resolve .type 1 (Context.detached.withLifecycle "V") =
      Sample.restrictedWorkspace.resolve .type 1 (Context.detached.withLifecycle "W") := by
  have hall := fun id context => resolve_lifecycle Sample.ofText_restrictedText
    Sample.validate_restrictedGraph Sample.ofGraph_restrictedGraph {} id context
  have hmodel : Sample.restrictedGraph.reachesRestriction 0 = true :=
    Graph.reachesRestriction_iff.2 (.here 0 _ rfl rfl)
  constructor
  · have hok : (Sample.restrictedWorkspace.resolve .type 0 (.ofScope ["A"])).outcome.isOk = true := by
      decide +kernel
    cases hresolution : (Sample.restrictedWorkspace.resolve .type 0 (.ofScope ["A"])).outcome with
    | error error =>
      rw [hresolution] at hok
      cases hok
    | ok resolution =>
      have htype := ((hall 0 (.ofScope ["A"])).2 hmodel rfl).1 resolution hresolution
      exact ⟨resolution, rfl, htype.1⟩
  · exact ((hall 1 .detached).1 (Graph.reachesRestriction_scalar rfl)).1 "V" "W"

end SchemaGuards

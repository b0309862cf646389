import SchemaGuards.Proofs.Expansion.Yields
import SchemaGuards.Proofs.Registry
import SchemaGuards.Proofs.Validation
import SchemaGuards.Resolution

/-!
# Why an expansion fails

Over a valid linked graph an expansion only fails at a node without a written form, or in a circle of
nodes of which none can be referred to. Every circle goes through a declaration with an identity, so
the latter takes a declaration outside the configured roots.
-/
namespace SchemaGuards

/-- The errors that a run over a valid graph may end with. -/
inductive Graph.Refuses (graph : Graph) : GenerationError → Prop
  | unsupported (id : NodeId) (kind : String) (hnode : graph.node? id = some (.unsupported kind)) :
    graph.Refuses (.unsupportedKind kind)
  | cycle (name : String) (id : NodeId) (node : Node) (first : String) (hid : id ∈ graph.declarations)
    (hnode : graph.node? id = some node) (hfirst : node.scope.head? = some first)
    (hroots : graph.roots ≠ []) (hnot : first ∉ graph.roots) : graph.Refuses (.unresolvableCycle name)

/-- Whether all declarations that can be referred to lie below the configured roots. -/
def Graph.AllRooted (graph : Graph) : Prop :=
  ∀ id ∈ graph.declarations, ∀ node identity, graph.node? id = some node →
    node.identity? = some identity → isRooted graph.roots identity.scope

theorem Node.scope_of_identity? {node : Node} {identity : Identity} (h : node.identity? = some identity) :
    identity.scope = node.scope ∧ node.scope ≠ [] := by
  rw [identity?] at h
  split at h
  · split at h
    · cases h
    · next hnot =>
      cases h
      rw [Bool.or_eq_true, not_or] at hnot
      exact ⟨rfl, by simpa using hnot.2⟩
  · cases h

theorem isRooted_eq_false {roots : List String} {scope : Scope} (h : ¬ isRooted roots scope)
    (hscope : scope ≠ []) : ∃ first, scope.head? = some first ∧ roots ≠ [] ∧ first ∉ roots := by
  cases scope with
  | nil => exact absurd rfl hscope
  | cons first rest =>
    simp only [isRooted, List.head?_cons, Option.any_some, Bool.or_eq_true, decide_eq_true_eq, not_or,
      List.isEmpty_iff] at h
    exact ⟨first, rfl, h.1, h.2⟩

/-- A declaration that can be referred to but is not registered lies outside the configured roots. -/
theorem Graph.refuses_cycle {graph : Graph} (h : ¬ graph.AllRooted) (name : String) :
    graph.Refuses (.unresolvableCycle name) := by
  simp only [AllRooted, not_forall] at h
  rcases h with ⟨id, hid, node, identity, hnode, hidentity, hroot⟩
  rcases Node.scope_of_identity? hidentity with ⟨hscope, hnonempty⟩
  rw [hscope] at hroot
  rcases isRooted_eq_false hroot hnonempty with ⟨first, hfirst, hroots, hnot⟩
  exact .cycle name id node first hid hnode hfirst hroots hnot

namespace Workspace
variable {workspace : Workspace} {mode : Mode} {kinds : List String} {child : NodeId → Traced Expansion}

/-- What a workspace has to be for its runs not to break the contract of expansion. -/
structure IsSound (workspace : Workspace) (kinds : List String) : Prop where
  linked : workspace.graph.IsLinked kinds
  valid : workspace.graph.validate = .ok ()
  lists : workspace.registry.Lists workspace.graph

theorem position?_of_mem {content : Enumeration} {name : String} (h : name ∈ content.members.map Member.name) :
    ∃ index, content.position? name = some index := by
  rcases List.mem_map.1 h with ⟨member, hmember, rfl⟩
  cases hposition : content.position? member.name with
  | some index => exact ⟨index, rfl⟩
  | none =>
    rw [Enumeration.position?, List.findIdx?_eq_none_iff] at hposition
    simpa using hposition member hmember

theorem expandMember_failsOnly (hsound : workspace.IsSound kinds) {owner : NodeId} {name : String}
    {id : NodeId} (hnode : workspace.graph.node? id = some (.member owner name)) :
    (workspace.expandMember mode owner name).FailsOnly workspace.graph.Refuses := by
  rcases (hsound.linked.fits id _ hnode).supported with ⟨content, howner, hmember⟩
  rcases position?_of_mem hmember with ⟨index, hindex⟩
  simp only [expandMember, howner, hindex]
  exact Traced.FailsOnly.pure _

theorem expandScalar_failsOnly {content : Scalar} {allowed : GenerationError → Prop}
    (hchild : ∀ part ∈ (Node.scalar content).parts, (child part).FailsOnly allowed) :
    (workspace.expandScalar mode content child).FailsOnly allowed := by
  rw [expandScalar]
  split
  · exact Traced.FailsOnly.pure _
  · split
    · next base hbase =>
      refine (hchild base ?_).map _
      simp [Node.parts, Scalar.base_of_deferredTo? hbase]
    · split
      · exact Traced.FailsOnly.pure _
      · intro error herror
        cases herror

theorem expandModel_failsOnly (hsound : workspace.IsSound kinds) {content : Model} {id : NodeId}
    (hnode : workspace.graph.node? id = some (.model content)) {allowed : GenerationError → Prop}
    (hchild : ∀ part ∈ (Node.model content).parts, (child part).FailsOnly allowed) :
    (workspace.expandModel mode content child).FailsOnly allowed := by
  rw [expandModel]
  cases hkind : content.indexed? with
  | some kind =>
    rcases hsound.linked.eq_ofElement hsound.valid hnode hkind with ⟨element, rfl⟩
    exact (hchild element (by simp [Node.parts, Model.mentioned, Model.ofElement])).map _
  | none =>
    refine Traced.FailsOnly.bind (Traced.FailsOnly.optionMapM ?_) (fun base _ => ?_)
    · intro part hpart
      exact hchild part (by simp [Node.parts, Model.mentioned, hpart])
    · refine Traced.FailsOnly.bind (Traced.FailsOnly.mapM ?_) (fun _ _ => Traced.FailsOnly.pure _)
      intro property hproperty
      have hpart : property.type ∈ (Node.model content).parts := by
        simp only [Node.parts, Model.mentioned, List.mem_append, List.mem_map]
        exact .inr ⟨property, hproperty, rfl⟩
      rw [expandProperty]
      dsimp only
      split
      · exact (Traced.FailsOnly.pure _).bind (fun _ _ => Traced.FailsOnly.pure _)
      · exact (hchild property.type hpart).bind (fun _ _ => Traced.FailsOnly.pure _)

theorem expandNode_failsOnly (hsound : workspace.IsSound kinds) {node : Node} {id : NodeId}
    (hnode : workspace.graph.node? id = some node)
    (hchild : ∀ part ∈ node.parts, (child part).FailsOnly workspace.graph.Refuses) :
    (workspace.expandNode mode node child).FailsOnly workspace.graph.Refuses := by
  cases node with
  | primitive | enumeration => exact Traced.FailsOnly.pure _
  | member owner name => exact expandMember_failsOnly hsound hnode
  | scalar content => exact expandScalar_failsOnly hchild
  | model content => exact expandModel_failsOnly hsound hnode hchild
  | tuple parts => exact (Traced.FailsOnly.mapM hchild).map _
  | union content => exact (Traced.FailsOnly.mapM hchild).map _
  | unsupported kind => exact Traced.FailsOnly.fail (.unsupported id kind hnode)

/-- A node below the root that is expanded is no declaration, if all of those are registered. -/
theorem IsSound.not_declared (hsound : workspace.IsSound kinds) (hrooted : workspace.graph.AllRooted)
    {id : NodeId} {node : Node} (htarget : workspace.graph.IsTarget id)
    (hnode : workspace.graph.node? id = some node) (hregistered : workspace.registered? node = none) :
    id ∉ workspace.graph.declarations := by
  intro hid
  rcases htarget with ⟨found, hfound, hidentity⟩
  cases hnode.symm.trans hfound
  rcases Option.isSome_iff_exists.1 (hidentity hid) with ⟨identity, hidentity⟩
  have hentry := hsound.lists.complete id hid node identity hnode hidentity
    (hrooted id hid node identity hnode hidentity)
  simp [registered?, hidentity, hentry] at hregistered

/-- The nodes around a place are declarations or come behind it, as long as every declaration that can
be referred to is registered. So the place is none of them. -/
theorem expand_failsOnly (hsound : workspace.IsSound kinds) (mode : Mode) (locked : Bool)
    (ancestry : List NodeId) (id : NodeId) (htarget : workspace.graph.IsTarget id)
    (hroot : locked = false → ancestry = [])
    (hancestry : workspace.graph.AllRooted →
      ∀ outer ∈ ancestry, outer ∈ workspace.graph.declarations ∨ id < outer) :
    (workspace.expand mode locked ancestry id).FailsOnly workspace.graph.Refuses := by
  induction locked, ancestry, id using Workspace.expand.induct workspace with
  | case1 locked ancestry id hnode =>
    rcases htarget with ⟨node, hsome, _⟩
    rw [hnode] at hsome
    cases hsome
  | case2 locked ancestry id node hnode reference hreference =>
    rw [expand_reference workspace mode hnode hreference]
    exact Traced.FailsOnly.pure _
  | case3 locked ancestry id node hnode hreference hcycle =>
    rw [expand_cycle workspace mode hnode hreference hcycle]
    have hlocked : locked = true := by
      cases locked with
      | true => rfl
      | false => simp [hroot rfl] at hcycle
    have hnot : ¬ workspace.graph.AllRooted := by
      intro hrooted
      have hdeclared := hsound.not_declared hrooted htarget hnode (reference?_none hreference hlocked)
      rcases hancestry hrooted id hcycle with hmem | hlt
      · exact hdeclared hmem
      · exact Nat.lt_irrefl id hlt
    cases node with
    | unsupported kind => exact Traced.FailsOnly.fail (.unsupported id kind hnode)
    | _ => exact Traced.FailsOnly.fail (Graph.refuses_cycle hnot _)
  | case4 locked ancestry id node hnode hreference hcycle _ ih =>
    rw [expand_node workspace mode hnode hreference hcycle]
    have hfits := hsound.linked.fits id node hnode
    refine expandNode_failsOnly hsound hnode (fun part hpart => ih part (hfits.targets part hpart) (by simp) ?_)
    intro hrooted outer houter
    by_cases hid : id ∈ workspace.graph.declarations
    · rcases List.mem_cons.1 houter with rfl | houter
      · exact .inl hid
      · -- A declaration is expanded at the root only.
        have hunlocked : locked = false := by
          cases locked with
          | false => rfl
          | true => exact absurd hid (hsound.not_declared hrooted htarget hnode (reference?_none hreference rfl))
        simp [hroot hunlocked] at houter
    · have hlt : part < id := hfits.descending hid part hpart
      rcases List.mem_cons.1 houter with rfl | houter
      · exact .inr hlt
      · exact (hancestry hrooted outer houter).imp_right (fun hbehind => Nat.lt_trans hlt hbehind)

theorem resolve_ok {id : NodeId} {context : Context} {resolution : Resolution}
    (h : (workspace.resolve mode id context).outcome = .ok resolution) :
    ∃ expansion, (workspace.expand mode context.locked context.ancestry id).outcome = .ok expansion ∧
      resolution = workspace.write mode id context expansion := by
  rcases Traced.outcome_bind_ok h with ⟨expansion, hexpansion, h⟩
  cases h
  exact ⟨expansion, hexpansion, rfl⟩

theorem resolve_failsOnly (hsound : workspace.IsSound kinds) (mode : Mode) (id : NodeId) (context : Context)
    (htarget : workspace.graph.IsTarget id) (hcontext : context.ancestry = []) :
    (workspace.resolve mode id context).FailsOnly workspace.graph.Refuses := by
  rw [resolve]
  refine Traced.FailsOnly.bind ?_ (fun _ _ => Traced.FailsOnly.pure _)
  exact expand_failsOnly hsound mode _ _ id htarget (fun _ => hcontext) (by simp [hcontext])

end Workspace
end SchemaGuards

import Mathlib.Logic.Relation
import SchemaGuards.Proofs.Expansion.Failures
import SchemaGuards.Proofs.Expansion.Modes

/-!
# Expansions that end

Over any graph and any registry, a node can be expanded exactly when everything that its expansion goes
on to is there, has a written form, and is not inside itself. A shared node is expanded once for every
place that mentions it, and that makes no circle. A registered node is opened at the root only.
-/
namespace SchemaGuards

def Node.continuation : Node → List NodeId
  | .scalar content =>
    if content.isBuiltin && Terminal.isCalendarOrBytes content.shownName then [] else content.base.toList
  | .model content =>
    if content.indexed?.isSome then content.indexer.toList
    else content.base.toList ++ content.properties.map Property.type
  | .tuple elements => elements
  | .union content => content.variants
  | _ => []

theorem Scalar.toList_deferredTo? (content : Scalar) :
    content.deferredTo?.toList = (Node.scalar content).continuation := by
  rw [deferredTo?, Node.continuation]
  split <;> rfl

namespace Enumeration

/-- A member has a position when some member has its name. -/
theorem position?_isSome_iff {content : Enumeration} {name : String} :
    (content.position? name).isSome ↔ name ∈ content.members.map Member.name := by
  simp [position?, List.findIdx?_isSome]

end Enumeration

namespace Traced
variable {α β : Type}

/-- A step that fails with no error at all. -/
def Succeeds (step : Traced α) : Prop := step.FailsOnly (fun _ => False)

theorem succeeds_iff {step : Traced α} : step.Succeeds ↔ ∃ value, step.outcome = .ok value := by
  constructor
  · intro h
    cases houtcome : step.outcome with
    | ok value => exact ⟨value, rfl⟩
    | error error => exact (h error houtcome).elim
  · rintro ⟨value, hvalue⟩ error herror
    rw [hvalue] at herror
    cases herror

end Traced

namespace Workspace

/-- One place goes on to another that is written in full inside it. -/
def Opens (workspace : Workspace) (id next : NodeId) : Prop :=
  ∃ node, workspace.graph.node? id = some node ∧ next ∈ node.continuation ∧
    ∃ inner, workspace.IsExpanded true next inner

/-- A place that is written in full inside another one, or is that one. -/
def Unfolds (workspace : Workspace) : NodeId → NodeId → Prop := Relation.ReflTransGen workspace.Opens

/-- The expansion of a place is finite and supported. -/
structure IsFinite (workspace : Workspace) (root : NodeId) : Prop where
  /-- Nothing is written inside itself. -/
  acyclic : ∀ id, workspace.Unfolds root id → ¬ Relation.TransGen workspace.Opens id id
  /-- All that is gone on to is in the graph, and so is the root. -/
  exists_root : ∃ node, workspace.graph.node? root = some node
  closed : ∀ id node, workspace.Unfolds root id → workspace.graph.node? id = some node →
    ∀ part ∈ node.continuation, ∃ inner, workspace.graph.node? part = some inner
  supported : ∀ id kind, workspace.Unfolds root id → workspace.graph.node? id ≠ some (.unsupported kind)
  indexed : ∀ id content, workspace.Unfolds root id → workspace.graph.node? id = some (.model content) →
    content.indexed?.isSome → content.indexer.isSome
  members : ∀ id owner name, workspace.Unfolds root id → workspace.graph.node? id = some (.member owner name) →
    ∃ content, workspace.graph.node? owner = some (.enumeration content) ∧
      name ∈ content.members.map Member.name

/-- What a single node has to be to be expanded once its parts are. -/
def Admits (workspace : Workspace) : Node → Prop
  | .unsupported _ => False
  | .model content => content.indexed?.isSome → content.indexer.isSome
  | .member owner name => ∃ content, workspace.graph.node? owner = some (.enumeration content) ∧
    name ∈ content.members.map Member.name
  | _ => True

variable {workspace : Workspace} {child : NodeId → Traced Expansion} {node : Node} {expansion : Expansion}

theorem IsFinite.admits {root id : NodeId} (h : workspace.IsFinite root) (hid : workspace.Unfolds root id)
    (hnode : workspace.graph.node? id = some node) : workspace.Admits node := by
  cases node with
  | unsupported kind => exact h.supported id kind hid hnode
  | model content => exact h.indexed id content hid hnode
  | member owner name => exact h.members id owner name hid hnode
  | _ => trivial

section Node

theorem expandMember_succeeds {owner : NodeId} {name : String} (h : workspace.Admits (.member owner name))
    (mode : Mode) : (workspace.expandMember mode owner name).Succeeds := by
  rcases h with ⟨content, howner, hname⟩
  rcases position?_of_mem hname with ⟨index, hindex⟩
  simp only [expandMember, howner, hindex]
  exact Traced.FailsOnly.pure _

theorem expandScalar_succeeds {content : Scalar} {mode : Mode}
    (h : ∀ part ∈ (Node.scalar content).continuation, (child part).Succeeds) :
    (workspace.expandScalar mode content child).Succeeds := by
  rw [← Scalar.toList_deferredTo?] at h
  rw [expandScalar]
  split
  · exact Traced.FailsOnly.pure _
  · split
    · next base hbase => exact Traced.FailsOnly.map (h base (by simp [hbase])) _
    · split
      · exact Traced.FailsOnly.pure _
      · intro error herror
        cases herror

theorem expandModel_succeeds {content : Model} (hadmits : workspace.Admits (.model content))
    (h : ∀ part ∈ (Node.model content).continuation, (child part).Succeeds) :
    (workspace.expandModel .type content child).Succeeds := by
  rw [expandModel]
  cases hkind : content.indexed? with
  | some kind =>
    rcases Option.isSome_iff_exists.1 (hadmits (by simp [hkind])) with ⟨element, helement⟩
    simp only [helement]
    exact Traced.FailsOnly.map (h element (by simp [Node.continuation, hkind, helement])) _
  | none =>
    have hparts : (Node.model content).continuation =
        content.base.toList ++ content.properties.map Property.type := by
      simp [Node.continuation, hkind]
    rw [hparts] at h
    refine Traced.FailsOnly.bind (Traced.FailsOnly.optionMapM (fun base hbase => ?_)) (fun _ _ => ?_)
    · exact h base (by simp [hbase])
    · refine Traced.FailsOnly.bind (Traced.FailsOnly.mapM (fun property hproperty => ?_))
        (fun _ _ => Traced.FailsOnly.pure _)
      have hpart : property.type ∈ content.properties.map Property.type := List.mem_map_of_mem hproperty
      exact (h property.type (List.mem_append_right _ hpart)).bind (fun _ _ => Traced.FailsOnly.pure _)

/-- A node is expanded when it is admitted and what it goes on to is expanded. -/
theorem expandNode_succeeds (hadmits : workspace.Admits node)
    (h : ∀ part ∈ node.continuation, (child part).Succeeds) :
    (workspace.expandNode .type node child).Succeeds := by
  cases node with
  | primitive | enumeration => exact Traced.FailsOnly.pure _
  | member owner name => exact expandMember_succeeds hadmits .type
  | scalar content => exact expandScalar_succeeds h
  | model content => exact expandModel_succeeds hadmits h
  | tuple elements => exact Traced.FailsOnly.map (Traced.FailsOnly.mapM h) _
  | union content => exact Traced.FailsOnly.map (Traced.FailsOnly.mapM h) _
  | unsupported kind => exact hadmits.elim

theorem exists_related_of_forall₂ {α β : Type} {related : α → β → Prop} {values : List α} {results : List β}
    (h : List.Forall₂ related values results) : ∀ value ∈ values, ∃ result, related value result := by
  induction h with
  | nil => simp
  | cons hfirst _ ih =>
    intro value hvalue
    rcases List.mem_cons.1 hvalue with rfl | hvalue
    · exact ⟨_, hfirst⟩
    · exact ih value hvalue

/-- Without mappings, a type is made from expansions of all that its node goes on to. -/
theorem continued_of_yields (hunmapped : workspace.IsUnmapped) {related : NodeId → Expansion → Prop}
    (h : Yields workspace .type related node expansion) :
    ∀ part ∈ node.continuation, ∃ result, related part result := by
  cases h with
  | primitive | enumeration | member => simp [Node.continuation]
  | mapped content text htext =>
    rw [hunmapped] at htext
    cases htext
  | derived content base expanded _ hbase hexpanded =>
    rw [← Scalar.toList_deferredTo?, hbase]
    intro part hpart
    cases List.mem_singleton.1 hpart
    exact ⟨expanded, hexpanded⟩
  | terminal content type _ hbase _ => simp [← Scalar.toList_deferredTo?, hbase]
  | unresolved content _ hbase _ => simp [← Scalar.toList_deferredTo?, hbase]
  | indexed content kind element expanded hkind helement hexpanded =>
    intro part hpart
    have heq : part = element := by simpa [Node.continuation, hkind, helement] using hpart
    exact ⟨expanded, heq ▸ hexpanded⟩
  | model content base properties hkind hbase hproperties =>
    have hparts : (Node.model content).continuation =
        content.base.toList ++ content.properties.map Property.type := by
      simp [Node.continuation, hkind]
    intro part hpart
    rw [hparts, List.mem_append, List.mem_map] at hpart
    rcases hpart with hpart | ⟨property, hproperty, rfl⟩
    · rw [Option.mem_toList.1 hpart] at hbase
      cases hbase with
      | some hexpanded => exact ⟨_, hexpanded⟩
    · rcases exists_related_of_forall₂ hproperties property hproperty with ⟨expanded, _, _, _, htype⟩
      rcases htype with hrelated | ⟨hmode, _⟩
      · exact ⟨expanded.type, hrelated⟩
      · cases hmode
  | tuple parts elements helements => exact exists_related_of_forall₂ helements
  | union content variants hvariants => exact exists_related_of_forall₂ hvariants

theorem admits_of_yields {mode : Mode} {related : NodeId → Expansion → Prop}
    (h : Yields workspace mode related node expansion) : workspace.Admits node := by
  cases h with
  | member owner name content index howner hindex =>
    refine ⟨content, howner, Enumeration.position?_isSome_iff.1 ?_⟩
    simp [hindex]
  | indexed content kind element expanded hkind helement _ => exact fun _ => by simp [helement]
  | model content base properties hkind _ _ => exact fun hindexed => by simp [hkind] at hindexed
  | _ => trivial

end Node

/-- A finite expansion succeeds: the places around the one at hand all lead to it, so it is none of them. -/
theorem IsFinite.expand_succeeds {root : NodeId} (hfinite : workspace.IsFinite root) (locked : Bool)
    (ancestry : List NodeId) (id : NodeId) (hid : ∃ node, workspace.graph.node? id = some node)
    (hopen : ∀ node, workspace.IsExpanded locked id node → workspace.Unfolds root id ∧
      ∀ outer ∈ ancestry, Relation.TransGen workspace.Opens outer id) :
    (workspace.expand .type locked ancestry id).Succeeds := by
  induction locked, ancestry, id using Workspace.expand.induct workspace with
  | case1 locked ancestry id hnode =>
    rcases hid with ⟨node, hsome⟩
    rw [hnode] at hsome
    cases hsome
  | case2 locked ancestry id node hnode reference hreference =>
    rw [expand_reference workspace .type hnode hreference]
    exact Traced.FailsOnly.pure _
  | case3 locked ancestry id node hnode hreference hcycle =>
    rcases hopen node ⟨hnode, reference?_none hreference⟩ with ⟨hunfolds, hancestry⟩
    exact (hfinite.acyclic id hunfolds (hancestry id hcycle)).elim
  | case4 locked ancestry id node hnode hreference hcycle _ ih =>
    rcases hopen node ⟨hnode, reference?_none hreference⟩ with ⟨hunfolds, hancestry⟩
    rw [expand_node workspace .type hnode hreference hcycle]
    refine expandNode_succeeds (hfinite.admits hunfolds hnode) (fun part hpart => ?_)
    refine ih part (hfinite.closed id node hunfolds hnode part hpart) (fun inner hinner => ?_)
    have hstep : workspace.Opens id part := ⟨node, hnode, hpart, inner, hinner⟩
    refine ⟨hunfolds.tail hstep, fun outer houter => ?_⟩
    rcases List.mem_cons.1 houter with rfl | houter
    · exact .single hstep
    · exact (hancestry outer houter).tail hstep

/-- What is found below a place whose expansion has succeeded. -/
structure IsSettled (workspace : Workspace) (ancestry : List NodeId) (id : NodeId) : Prop where
  acyclic : ¬ Relation.TransGen workspace.Opens id id
  fresh : id ∉ ancestry
  admitted : ∀ node, workspace.graph.node? id = some node → workspace.Admits node
  closed : ∀ node, workspace.graph.node? id = some node →
    ∀ part ∈ node.continuation, ∃ inner, workspace.graph.node? part = some inner

theorem exists_node_of_expand {mode : Mode} {locked : Bool} {ancestry : List NodeId} {id : NodeId}
    (h : (workspace.expand mode locked ancestry id).outcome = .ok expansion) :
    ∃ node, workspace.graph.node? id = some node := by
  cases hnode : workspace.graph.node? id with
  | some node => exact ⟨node, rfl⟩
  | none =>
    rw [expand_missing workspace mode hnode] at h
    cases h

/-- No place below an expanded one is among the places around it: each of them would have been refused. -/
theorem isSettled_of_expand (hunmapped : workspace.IsUnmapped) {locked : Bool} {ancestry : List NodeId}
    {id : NodeId} (h : (workspace.expand .type locked ancestry id).outcome = .ok expansion)
    (hopen : ∃ node, workspace.IsExpanded locked id node) :
    ∀ place, workspace.Unfolds id place → workspace.IsSettled ancestry place := by
  induction locked, ancestry, id using Workspace.expand.induct workspace generalizing expansion with
  | case1 locked ancestry id hnode =>
    rw [expand_missing workspace .type hnode] at h
    cases h
  | case2 locked ancestry id node hnode reference hreference =>
    rcases hopen with ⟨found, hfound⟩
    cases hnode.symm.trans hfound.1
    rw [reference?_of_isExpanded hfound] at hreference
    cases hreference
  | case3 locked ancestry id node hnode hreference hcycle =>
    rw [expand_cycle workspace .type hnode hreference hcycle] at h
    cases node <;> cases h
  | case4 locked ancestry id node hnode hreference hcycle _ ih =>
    rw [expand_node workspace .type hnode hreference hcycle] at h
    have hyields := expandNode_ok h
    have hbelow : ∀ next, workspace.Opens id next →
        ∀ place, workspace.Unfolds next place → workspace.IsSettled (id :: ancestry) place := by
      rintro next ⟨found, hfound, hnext, hinner⟩
      cases hnode.symm.trans hfound
      rcases continued_of_yields hunmapped hyields next hnext with ⟨result, hresult⟩
      exact ih next hresult hinner
    intro place hplace
    rcases Relation.ReflTransGen.cases_head hplace with rfl | ⟨next, hnext, hrest⟩
    · refine ⟨?_, hcycle, ?_, ?_⟩
      · intro hcircle
        rcases Relation.TransGen.head'_iff.1 hcircle with ⟨next, hnext, hback⟩
        exact (hbelow next hnext id hback).fresh List.mem_cons_self
      · intro found hfound
        cases hnode.symm.trans hfound
        exact admits_of_yields hyields
      · intro found hfound part hpart
        cases hnode.symm.trans hfound
        rcases continued_of_yields hunmapped hyields part hpart with ⟨result, hresult⟩
        exact exists_node_of_expand hresult
    · have hsettled := hbelow next hnext place hrest
      exact ⟨hsettled.acyclic, fun hmem => hsettled.fresh (List.mem_cons_of_mem _ hmem),
        hsettled.admitted, hsettled.closed⟩

/-- At the root, the expansion of a type succeeds exactly when it is finite. -/
theorem expand_root_iff (hunmapped : workspace.IsUnmapped) (id : NodeId) :
    (∃ expansion, (workspace.expand .type false [] id).outcome = .ok expansion) ↔ workspace.IsFinite id := by
  constructor
  · rintro ⟨expansion, h⟩
    rcases exists_node_of_expand h with ⟨node, hnode⟩
    have hsettled := isSettled_of_expand hunmapped h ⟨node, hnode, by simp⟩
    exact {
      acyclic := fun place hplace => (hsettled place hplace).acyclic
      exists_root := ⟨node, hnode⟩
      closed := fun place found hplace hfound => (hsettled place hplace).closed found hfound
      supported := fun place kind hplace hfound => (hsettled place hplace).admitted _ hfound
      indexed := fun place content hplace hfound => (hsettled place hplace).admitted _ hfound
      members := fun place owner name hplace hfound => (hsettled place hplace).admitted _ hfound }
  · intro hfinite
    exact Traced.succeeds_iff.1
      (hfinite.expand_succeeds false [] id hfinite.exists_root (fun _ _ => ⟨.refl, by simp⟩))

end Workspace

/-- Without mappings, resolving a node as the root of a file succeeds exactly when its expansion is finite
and supported, whatever the graph, the registry, the file and the mode. -/
theorem resolve_isOk_iff (graph : Graph) (registry : Registry) (config : Config)
    (htypes : config.typeMappings = []) (hguards : config.guardMappings = []) (mode : Mode) (id : NodeId)
    (scope : Scope) :
    (∃ resolution, (Workspace.resolve ⟨graph, registry, config⟩ mode id (.ofScope scope)).outcome =
      .ok resolution) ↔ Workspace.IsFinite ⟨graph, registry, config⟩ id := by
  have hunmapped : Workspace.IsUnmapped ⟨graph, registry, config⟩ :=
    Workspace.isUnmapped_of_config htypes hguards
  rw [← Workspace.expand_root_iff hunmapped id]
  have hmodes : (Workspace.expand ⟨graph, registry, config⟩ .type false [] id).outcome =
      (Workspace.expand ⟨graph, registry, config⟩ mode false [] id).outcome := by
    cases mode with
    | type => rfl
    | guard => exact Workspace.expand_modes hunmapped false [] id (by simp)
  rw [hmodes]
  constructor
  · rintro ⟨resolution, hresolution⟩
    rcases Traced.outcome_bind_ok hresolution with ⟨expansion, hexpansion, _⟩
    exact ⟨expansion, hexpansion⟩
  · rintro ⟨expansion, hexpansion⟩
    exact ⟨_, by rw [Workspace.resolve]; exact congrArg Traced.outcome (Traced.bind_ok hexpansion _)⟩

namespace Sample

/-- A model that holds itself, and a pair of texts that is one node twice. -/
def loopGraph : Graph where
  roots := ["A"]
  nodes := #[.model { decl := { name := some "M", scope := ["A"] },
                      properties := [{ name := "next", type := 0, optional := true },
                                     { name := "pair", type := 1 }] },
             .tuple [2, 2],
             .scalar ⟨{ name := some "string", scope := builtinScope }, none⟩]
  declarations := [0]
  names := [("A.M", 0)]

def loopRegistry : Registry := [⟨⟨.model, "M", ["A"]⟩, 0⟩]

end Sample

/-- A declaration that goes on to itself and twice to a scalar has a finite expansion when it is registered,
and none when it is not. -/
theorem resolve_isOk_loopGraph :
    (({} : Config).typeMappings = [] ∧ ({} : Config).guardMappings = []) ∧
      Workspace.IsFinite ⟨Sample.loopGraph, Sample.loopRegistry, {}⟩ 0 ∧
        ¬ Workspace.IsFinite ⟨Sample.loopGraph, [], {}⟩ 0 := by
  have hiff := fun registry => resolve_isOk_iff Sample.loopGraph registry {} rfl rfl .guard 0 ["A"]
  refine ⟨⟨rfl, rfl⟩, (hiff _).1 ?_, fun hfinite => ?_⟩
  · apply exists_ok_of_isOk
    decide +kernel
  · rcases (hiff []).2 hfinite with ⟨resolution, hresolution⟩
    have hfails : (Workspace.resolve ⟨Sample.loopGraph, [], {}⟩ .guard 0 (.ofScope ["A"])).outcome.isOk =
        false := by
      decide +kernel
    rw [hresolution] at hfails
    cases hfails

end SchemaGuards

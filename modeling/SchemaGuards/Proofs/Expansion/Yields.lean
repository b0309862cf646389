import SchemaGuards.Expansion.Basic
import SchemaGuards.Proofs.Linking.Linked
import SchemaGuards.Proofs.Traced

/-!
# What an expansion consists of

A successful expansion of a node is a reference, or it has the form that the node's kind prescribes,
made from expansions of the nodes that it mentions. All that is proved of expansions goes by induction
over these steps.
-/
namespace SchemaGuards

/-- A property of a node and one of its expansion, whose types are related. In a guard a property that
has to be absent is not followed. -/
def ExpandsProperty (graph : Graph) (mode : Mode) (related : NodeId → Expansion → Prop)
    (property : Property NodeId) (expanded : Property Expansion) : Prop :=
  expanded.name = property.name ∧ expanded.optional = property.optional ∧
    expanded.visibility = property.visibility ∧
    (related property.type expanded.type ∨
      mode = .guard ∧ graph.node? property.type = some (.primitive (.intrinsic .never)) ∧
        expanded.type = .primitive (.intrinsic .never))

/-- The forms that a node expands to, from those of the nodes that it mentions. -/
inductive Yields (workspace : Workspace) (mode : Mode) (related : NodeId → Expansion → Prop) :
    Node → Expansion → Prop
  | primitive (value : Primitive) : Yields workspace mode related (.primitive value) (.primitive value)
  | enumeration (content : Enumeration) :
    Yields workspace mode related (.enumeration content) (.enumeration content.members)
  | member (owner : NodeId) (name : String) (content : Enumeration) (index : Nat)
    (howner : workspace.graph.node? owner = some (.enumeration content))
    (hindex : content.position? name = some index) :
    Yields workspace mode related (.member owner name)
      (.member (workspace.registered? (.enumeration content)) name
        (content.literal workspace.config.nominalEnums index))
  | mapped (content : Scalar) (text : String) (htext : workspace.mapping? mode content = some text) :
    Yields workspace mode related (.scalar content) (.mapped text)
  | derived (content : Scalar) (base : NodeId) (expanded : Expansion)
    (htext : workspace.mapping? mode content = none) (hbase : content.deferredTo? = some base)
    (hexpanded : related base expanded) : Yields workspace mode related (.scalar content) (.derived expanded)
  | terminal (content : Scalar) (type : Terminal) (htext : workspace.mapping? mode content = none)
    (hbase : content.deferredTo? = none)
    (htype : content.terminal? workspace.config.serializableDates = some type) :
    Yields workspace mode related (.scalar content) (.terminal type)
  | unresolved (content : Scalar) (htext : workspace.mapping? mode content = none)
    (hbase : content.deferredTo? = none)
    (htype : content.terminal? workspace.config.serializableDates = none) :
    Yields workspace mode related (.scalar content) .unresolved
  | indexed (content : Model) (kind : Indexed) (element : NodeId) (expanded : Expansion)
    (hkind : content.indexed? = some kind) (helement : content.indexer = some element)
    (hexpanded : related element expanded) :
    Yields workspace mode related (.model content) (.indexed kind expanded)
  | model (content : Model) (base : Option Expansion) (properties : List (Property Expansion))
    (hkind : content.indexed? = none) (hbase : Option.Rel related content.base base)
    (hproperties : List.Forall₂ (ExpandsProperty workspace.graph mode related) content.properties properties) :
    Yields workspace mode related (.model content) (.model base properties)
  | tuple (parts : List NodeId) (elements : List Expansion) (helements : List.Forall₂ related parts elements) :
    Yields workspace mode related (.tuple parts) (.tuple elements)
  | union (content : Union) (variants : List Expansion)
    (hvariants : List.Forall₂ related content.variants variants) :
    Yields workspace mode related (.union content) (.union variants)

theorem forall₂_of_mem {α β : Type} {related : α → β → Prop} {values : List α} {results : List β}
    (h : List.Forall₂ related values results) :
    List.Forall₂ (fun value result => value ∈ values ∧ related value result) values results := by
  induction h with
  | nil => exact .nil
  | cons hfirst hrest ih =>
    exact .cons ⟨by simp, hfirst⟩ (ih.imp (fun _ _ hpair => ⟨List.mem_cons_of_mem _ hpair.1, hpair.2⟩))

theorem Scalar.base_of_deferredTo? {content : Scalar} {base : NodeId} (h : content.deferredTo? = some base) :
    content.base = some base := by
  rw [deferredTo?] at h
  split at h
  · cases h
  · exact h

/-- A form only depends on what the nodes that are mentioned expand to. -/
theorem Yields.imp {workspace : Workspace} {mode : Mode} {related other : NodeId → Expansion → Prop}
    {node : Node} {expansion : Expansion} (h : Yields workspace mode related node expansion)
    (himp : ∀ part ∈ node.parts, ∀ result, related part result → other part result) :
    Yields workspace mode other node expansion := by
  cases h with
  | primitive value => exact .primitive value
  | enumeration content => exact .enumeration content
  | member owner name content index howner hindex => exact .member owner name content index howner hindex
  | mapped content text htext => exact .mapped content text htext
  | derived content base expanded htext hbase hexpanded =>
    have hpart : base ∈ (Node.scalar content).parts := by
      simp [Node.parts, Scalar.base_of_deferredTo? hbase]
    exact .derived content base expanded htext hbase (himp base hpart expanded hexpanded)
  | terminal content type htext hbase htype => exact .terminal content type htext hbase htype
  | unresolved content htext hbase htype => exact .unresolved content htext hbase htype
  | indexed content kind element expanded hkind helement hexpanded =>
    have hpart : element ∈ (Node.model content).parts := by
      simp [Node.parts, Model.mentioned, helement]
    exact .indexed content kind element expanded hkind helement (himp element hpart expanded hexpanded)
  | model content base properties hkind hbase hproperties =>
    refine .model content base properties hkind ?_ ?_
    · cases hfound : content.base with
      | none =>
        rw [hfound] at hbase
        cases hbase
        exact .none
      | some part =>
        rw [hfound] at hbase
        cases hbase with
        | some hexpanded =>
          have hpart : part ∈ (Node.model content).parts := by
            simp [Node.parts, Model.mentioned, hfound]
          exact .some (himp part hpart _ hexpanded)
    · apply (forall₂_of_mem hproperties).imp
      rintro property expanded ⟨hmem, hname, hoptional, hvisibility, htype⟩
      have hpart : property.type ∈ (Node.model content).parts := by
        simp only [Node.parts, Model.mentioned, List.mem_append, List.mem_map]
        exact .inr ⟨property, hmem, rfl⟩
      refine ⟨hname, hoptional, hvisibility, ?_⟩
      exact htype.imp (himp property.type hpart expanded.type) id
  | tuple parts elements helements =>
    exact .tuple parts elements
      ((forall₂_of_mem helements).imp (fun part result hpair => himp part hpair.1 result hpair.2))
  | union content variants hvariants =>
    exact .union content variants
      ((forall₂_of_mem hvariants).imp (fun part result hpair => himp part hpair.1 result hpair.2))

namespace Workspace
variable {workspace : Workspace} {mode : Mode} {child : NodeId → Traced Expansion} {expansion : Expansion}

theorem expandProperty_ok {property : Property NodeId} {expanded : Property Expansion}
    (h : (workspace.expandProperty mode child property).outcome = .ok expanded) :
    ExpandsProperty workspace.graph mode (fun id result => (child id).outcome = .ok result) property expanded := by
  rw [expandProperty] at h
  by_cases habsent : (mode = .guard && (workspace.graph.node? property.type).any Node.isNever) = true
  · simp only [habsent, if_true] at h
    rcases Traced.outcome_bind_ok h with ⟨type, htype, h⟩
    cases htype
    cases h
    rw [Bool.and_eq_true, decide_eq_true_iff] at habsent
    rcases (Option.any_eq_true _ _).1 habsent.2 with ⟨node, hnode, hnever⟩
    simp only [Node.isNever, decide_eq_true_eq] at hnever
    exact ⟨rfl, rfl, rfl, .inr ⟨habsent.1, hnever ▸ hnode, rfl⟩⟩
  · simp only [habsent] at h
    rcases Traced.outcome_bind_ok h with ⟨type, htype, h⟩
    cases h
    exact ⟨rfl, rfl, rfl, .inl htype⟩

theorem expandScalar_ok {content : Scalar}
    (h : (workspace.expandScalar mode content child).outcome = .ok expansion) :
    Yields workspace mode (fun id result => (child id).outcome = .ok result) (.scalar content) expansion := by
  rw [expandScalar] at h
  cases htext : workspace.mapping? mode content with
  | some text =>
    simp only [htext] at h
    cases h
    exact .mapped content text htext
  | none =>
    simp only [htext] at h
    cases hbase : content.deferredTo? with
    | some base =>
      simp only [hbase] at h
      rcases Traced.outcome_map_ok h with ⟨expanded, hexpanded, rfl⟩
      exact .derived content base expanded htext hbase hexpanded
    | none =>
      simp only [hbase] at h
      cases htype : content.terminal? workspace.config.serializableDates with
      | some type =>
        simp only [htype] at h
        cases h
        exact .terminal content type htext hbase htype
      | none =>
        simp only [htype] at h
        cases h
        exact .unresolved content htext hbase htype

theorem expandModel_ok {content : Model}
    (h : (workspace.expandModel mode content child).outcome = .ok expansion) :
    Yields workspace mode (fun id result => (child id).outcome = .ok result) (.model content) expansion := by
  rw [expandModel] at h
  cases hkind : content.indexed? with
  | some kind =>
    cases helement : content.indexer with
    | some element =>
      simp only [hkind, helement] at h
      rcases Traced.outcome_map_ok h with ⟨expanded, hexpanded, rfl⟩
      exact .indexed content kind element expanded hkind helement hexpanded
    | none =>
      simp only [hkind, helement] at h
      cases h
  | none =>
    simp only [hkind] at h
    rcases Traced.outcome_bind_ok h with ⟨base, hbase, h⟩
    rcases Traced.outcome_bind_ok h with ⟨properties, hproperties, h⟩
    cases h
    refine .model content base properties hkind (Traced.outcome_optionMapM_ok hbase) ?_
    exact (Traced.outcome_mapM_ok hproperties).imp (fun _ _ => expandProperty_ok)

theorem expandNode_ok {node : Node} (h : (workspace.expandNode mode node child).outcome = .ok expansion) :
    Yields workspace mode (fun id result => (child id).outcome = .ok result) node expansion := by
  cases node with
  | primitive value =>
    cases h
    exact .primitive value
  | enumeration content =>
    cases h
    exact .enumeration content
  | member owner name =>
    simp only [expandNode, expandMember] at h
    split at h
    · next content howner =>
      split at h
      · next index hindex =>
        cases h
        exact .member owner name content index howner hindex
      · cases h
    · cases h
  | scalar content => exact expandScalar_ok h
  | model content => exact expandModel_ok h
  | tuple parts =>
    rcases Traced.outcome_map_ok h with ⟨elements, helements, rfl⟩
    exact .tuple parts elements (Traced.outcome_mapM_ok helements)
  | union content =>
    rcases Traced.outcome_map_ok h with ⟨variants, hvariants, rfl⟩
    exact .union content variants (Traced.outcome_mapM_ok hvariants)
  | unsupported kind => cases h

section Expand
variable (workspace : Workspace) (mode : Mode) {locked : Bool} {ancestry : List NodeId} {id : NodeId} {node : Node}

theorem expand_missing (hnode : workspace.graph.node? id = none) :
    workspace.expand mode locked ancestry id =
      Traced.fail "resolve-unresolved" (.danglingNode (NodeId.text id)) := by
  rw [expand]
  split
  · rfl
  · next hsome => simp [hnode] at hsome

theorem expand_reference (hnode : workspace.graph.node? id = some node) {reference : Expansion}
    (hreference : workspace.reference? locked id node = some reference) :
    workspace.expand mode locked ancestry id = pure reference := by
  rw [expand]
  split
  · next hnone => simp [hnode] at hnone
  · next other hother =>
    cases hnode.symm.trans hother
    simp only [hreference]

theorem expand_cycle (hnode : workspace.graph.node? id = some node)
    (hreference : workspace.reference? locked id node = none) (hcycle : id ∈ ancestry) :
    workspace.expand mode locked ancestry id = refuseCycle id node := by
  rw [expand]
  split
  · next hnone => simp [hnode] at hnone
  · next other hother =>
    cases hnode.symm.trans hother
    simp only [hreference, hcycle, dif_pos]

theorem expand_node (hnode : workspace.graph.node? id = some node)
    (hreference : workspace.reference? locked id node = none) (hcycle : id ∉ ancestry) :
    workspace.expand mode locked ancestry id =
      workspace.expandNode mode node (fun part => workspace.expand mode true (id :: ancestry) part) := by
  rw [expand]
  split
  · next hnone => simp [hnode] at hnone
  · next other hother =>
    cases hnode.symm.trans hother
    simp only [hreference, hcycle, dif_neg, not_false_iff]

end Expand

theorem reference?_some {locked : Bool} {id : NodeId} {node : Node} {reference : Expansion}
    (h : workspace.reference? locked id node = some reference) :
    locked = true ∧ ∃ entry, workspace.registered? node = some entry ∧
      reference = .reference entry (workspace.graph.reachesRestriction id) := by
  rw [reference?] at h
  split at h
  · next hlocked =>
    rcases Option.map_eq_some_iff.1 h with ⟨entry, hentry, rfl⟩
    exact ⟨hlocked, entry, hentry, rfl⟩
  · cases h

theorem reference?_none {locked : Bool} {id : NodeId} {node : Node}
    (h : workspace.reference? locked id node = none) (hlocked : locked = true) :
    workspace.registered? node = none := by
  simpa [reference?, hlocked] using h

/-- A node is written in full where it stands: at the root, or below it when it is not registered. -/
def IsExpanded (workspace : Workspace) (locked : Bool) (id : NodeId) (node : Node) : Prop :=
  workspace.graph.node? id = some node ∧ (locked = true → workspace.registered? node = none)

theorem IsExpanded.node_eq {locked : Bool} {id : NodeId} {node other : Node}
    (h : workspace.IsExpanded locked id node) (h' : workspace.IsExpanded locked id other) : node = other :=
  Option.some.inj (h.1.symm.trans h'.1)

theorem reference?_of_isExpanded {locked : Bool} {id : NodeId} {node : Node}
    (h : workspace.IsExpanded locked id node) : workspace.reference? locked id node = none := by
  cases locked with
  | false => rfl
  | true => simp [reference?, h.2 rfl]

/-- A node that is written in full is not inside itself when its expansion succeeds. -/
theorem expandNode_of_expand {locked : Bool} {ancestry : List NodeId} {id : NodeId} {node : Node}
    (hid : workspace.IsExpanded locked id node)
    (h : (workspace.expand mode locked ancestry id).outcome = .ok expansion) :
    (workspace.expandNode mode node (fun part => workspace.expand mode true (id :: ancestry) part)).outcome =
      .ok expansion := by
  have hreference := reference?_of_isExpanded hid
  by_cases hcycle : id ∈ ancestry
  · rw [expand_cycle workspace mode hid.1 hreference hcycle] at h
    cases node <;> cases h
  · rwa [expand_node workspace mode hid.1 hreference hcycle] at h

/-- Induction over a successful expansion: a reference, or a step from the parts. -/
theorem expand_induct {motive : Bool → NodeId → Expansion → Prop}
    (reference : ∀ id node entry, workspace.graph.node? id = some node → workspace.registered? node = some entry →
      motive true id (.reference entry (workspace.graph.reachesRestriction id)))
    (step : ∀ locked id node expansion, workspace.graph.node? id = some node →
      (locked = true → workspace.registered? node = none) →
      Yields workspace mode (fun part result => part ∈ node.parts ∧ motive true part result) node expansion →
      motive locked id expansion)
    {locked : Bool} {ancestry : List NodeId} {id : NodeId} {expansion : Expansion}
    (h : (workspace.expand mode locked ancestry id).outcome = .ok expansion) : motive locked id expansion := by
  induction locked, ancestry, id using Workspace.expand.induct workspace generalizing expansion with
  | case1 locked ancestry id hnode =>
    rw [expand_missing workspace mode hnode] at h
    cases h
  | case2 locked ancestry id node hnode result hresult =>
    rw [expand_reference workspace mode hnode hresult] at h
    cases h
    rcases reference?_some hresult with ⟨rfl, entry, hentry, rfl⟩
    exact reference id node entry hnode hentry
  | case3 locked ancestry id node hnode hreference hcycle =>
    rw [expand_cycle workspace mode hnode hreference hcycle] at h
    cases node <;> cases h
  | case4 locked ancestry id node hnode hreference hcycle _ ih =>
    rw [expand_node workspace mode hnode hreference hcycle] at h
    refine step locked id node expansion hnode (reference?_none hreference) ?_
    exact (expandNode_ok h).imp (fun part hpart result hresult => ⟨hpart, ih part hresult⟩)

end Workspace
end SchemaGuards

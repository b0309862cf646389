import SchemaGuards.Proofs.Expansion.Yields
import SchemaGuards.Proofs.Order.Alike
import SchemaGuards.Proofs.Order.Unplaced

/-!
# Alike nodes expand alike

An expansion keeps a record of the places that it is inside, and related places are not related to one
another only, so such records cannot be compared. An expansion to a given depth keeps none. It succeeds at
some depth exactly when the expansion does: a node that succeeds at a depth, and at no smaller one, does
not occur inside itself. At every depth related places are expanded alike.
-/
namespace SchemaGuards

namespace Traced
variable {α β α' β' : Type}

/-- When a step succeeds, so does another one, with a related value. -/
def SimulatedBy (step : Traced α) (related : α → α' → Prop) (other : Traced α') : Prop :=
  ∀ value, step.outcome = .ok value → ∃ value', other.outcome = .ok value' ∧ related value value'

namespace SimulatedBy
variable {related : α → α' → Prop} {related' : β → β' → Prop}

theorem pure {value : α} {value' : α'} (h : related value value') :
    (Pure.pure value : Traced α).SimulatedBy related (Pure.pure value') := by
  rintro _ ⟨⟩
  exact ⟨value', rfl, h⟩

theorem fail {code : String} {error : GenerationError} {other : Traced α'} :
    (Traced.fail code error).SimulatedBy related other := by
  rintro _ ⟨⟩

theorem bind {step : Traced α} {other : Traced α'} {next : α → Traced β} {next' : α' → Traced β'}
    (h : step.SimulatedBy related other)
    (hnext : ∀ value value', related value value' → (next value).SimulatedBy related' (next' value')) :
    (step >>= next).SimulatedBy related' (other >>= next') := by
  intro result hresult
  rcases outcome_bind_ok hresult with ⟨value, hvalue, hresult⟩
  rcases h value hvalue with ⟨value', hvalue', hrelated⟩
  rcases hnext value value' hrelated result hresult with ⟨result', hresult', hrelated'⟩
  exact ⟨result', by rw [bind_ok hvalue']; exact hresult', hrelated'⟩

theorem map {step : Traced α} {other : Traced α'} {change : α → β} {change' : α' → β'}
    (h : step.SimulatedBy related other)
    (hchange : ∀ value value', related value value' → related' (change value) (change' value')) :
    (change <$> step).SimulatedBy related' (change' <$> other) := by
  rw [map_eq_pure_bind, map_eq_pure_bind]
  exact h.bind (fun value value' hrelated => pure (hchange value value' hrelated))

theorem mapM {step : α → Traced β} {step' : α' → Traced β'} {values : List α} {values' : List α'}
    (h : List.Forall₂ (fun value value' => (step value).SimulatedBy related' (step' value')) values values') :
    (values.mapM step).SimulatedBy (List.Forall₂ related') (values'.mapM step') := by
  induction h with
  | nil =>
    rw [List.mapM_nil, List.mapM_nil]
    exact pure .nil
  | cons hfirst _ ih =>
    rw [List.mapM_cons, List.mapM_cons]
    refine hfirst.bind (fun first first' hrelated => ?_)
    exact ih.bind (fun rest rest' hrest => pure (.cons hrelated hrest))

theorem optionMapM {step : α → Traced β} {step' : α' → Traced β'} {value : Option α} {value' : Option α'}
    (h : Option.Rel (fun value value' => (step value).SimulatedBy related' (step' value')) value value') :
    (value.mapM step).SimulatedBy (Option.Rel related') (value'.mapM step') := by
  cases h with
  | none => exact pure .none
  | some h =>
    rw [Option.mapM_some, Option.mapM_some]
    exact h.map (fun _ _ hrelated => .some hrelated)

end SimulatedBy
end Traced

def Expansion.Same (expansion other : Expansion) : Prop := expansion.unplaced = other.unplaced

namespace Workspace

/-- A workspace that holds the same schema as another one at related places. -/
structure Mirrors (workspace other : Workspace) (related : NodeId → NodeId → Prop) : Prop where
  config_eq : other.config = workspace.config
  nodes : workspace.graph.IsBisimulation other.graph related
  contains_eq : ∀ identity, other.registry.contains identity = workspace.registry.contains identity

variable {workspace other : Workspace} {related : NodeId → NodeId → Prop} {mode : Mode}

theorem Mirrors.refl (workspace : Workspace) : workspace.Mirrors workspace Eq :=
  ⟨rfl, .refl workspace.graph, fun _ => rfl⟩

theorem unplaced_find? (registry : Registry) (identity : Identity) :
    (registry.find? identity).map Entry.unplaced =
      if registry.contains identity then some ⟨identity, 0⟩ else none := by
  cases hfound : registry.find? identity with
  | none => simp [Registry.contains, hfound]
  | some entry =>
    have hidentity : entry.identity = identity := by
      rw [Registry.find?] at hfound
      simpa using List.find?_some hfound
    simp [Registry.contains, hfound, Entry.unplaced, hidentity]

/-- Alike nodes are registered under the same identity, or are not registered. -/
theorem Mirrors.registered_eq (h : workspace.Mirrors other related) {node node' : Node}
    (hnode : node.Alike related node') :
    (other.registered? node').map Entry.unplaced = (workspace.registered? node).map Entry.unplaced := by
  rw [registered?, registered?, hnode.identity_eq]
  cases node.identity? with
  | none => rfl
  | some identity =>
    rw [Option.bind_some, Option.bind_some, unplaced_find?, unplaced_find?, h.contains_eq]

section Node
variable {child child' : NodeId → Traced Expansion}

theorem expandMember_simulated (h : workspace.Mirrors other related) {owner owner' : NodeId} (name : String)
    (howner : related owner owner') :
    (workspace.expandMember mode owner name).SimulatedBy Expansion.Same (other.expandMember mode owner' name) := by
  intro expansion hexpansion
  rw [expandMember] at hexpansion
  split at hexpansion
  · next content hcontent =>
    split at hexpansion
    · next index hindex =>
      cases hexpansion
      rcases h.nodes.node howner hcontent with ⟨node', hnode', halike⟩
      cases halike
      have hregistered := h.registered_eq (.enumeration content)
      refine ⟨_, by simp only [expandMember, hnode', hindex]; rfl, ?_⟩
      simp only [Expansion.Same, Expansion.unplaced, h.config_eq, hregistered]
    · cases hexpansion
  · cases hexpansion

theorem expandScalar_simulated (h : workspace.Mirrors other related) (decl : Decl) {base base' : Option NodeId}
    (hbase : Option.Rel related base base')
    (hchild : ∀ part part', related part part' → (child part).SimulatedBy Expansion.Same (child' part')) :
    (workspace.expandScalar mode ⟨decl, base⟩ child).SimulatedBy Expansion.Same
      (other.expandScalar mode ⟨decl, base'⟩ child') := by
  have hmapping : other.mapping? mode ⟨decl, base'⟩ = workspace.mapping? mode ⟨decl, base⟩ := by
    cases mode <;> simp [mapping?, h.config_eq, Scalar.shownName]
  have hdeferred : Option.Rel related (Scalar.deferredTo? ⟨decl, base⟩) (Scalar.deferredTo? ⟨decl, base'⟩) := by
    by_cases hcalendar : (decide (decl.scope = builtinScope) && Terminal.isCalendarOrBytes (decl.name.getD "")) = true
    · simp only [Scalar.deferredTo?, Scalar.isBuiltin, Scalar.shownName, hcalendar, if_true]
      exact .none
    · simp only [Scalar.deferredTo?, Scalar.isBuiltin, Scalar.shownName, hcalendar]
      exact hbase
  unfold expandScalar
  rw [hmapping]
  cases workspace.mapping? mode ⟨decl, base⟩ with
  | some text => exact .pure rfl
  | none =>
    generalize Scalar.deferredTo? ⟨decl, base⟩ = deferred at hdeferred
    generalize Scalar.deferredTo? ⟨decl, base'⟩ = deferred' at hdeferred
    cases hdeferred with
    | some hpart =>
      refine (hchild _ _ hpart).map (fun expansion expansion' hsame => ?_)
      simp only [Expansion.Same, Expansion.unplaced, Expansion.derived.injEq]
      exact hsame
    | none =>
      have hterminal : Scalar.terminal? other.config.serializableDates ⟨decl, base'⟩ =
          Scalar.terminal? workspace.config.serializableDates ⟨decl, base⟩ := by
        simp [Scalar.terminal?, Scalar.isBuiltin, Scalar.shownName, h.config_eq]
      simp only [hterminal]
      cases Scalar.terminal? workspace.config.serializableDates ⟨decl, base⟩ with
      | some type => exact .pure rfl
      | none =>
        rintro _ ⟨⟩
        exact ⟨_, rfl, rfl⟩

theorem same_list {expansions expansions' : List Expansion} (h : List.Forall₂ Expansion.Same expansions expansions') :
    Expansion.listUnplaced expansions = Expansion.listUnplaced expansions' := by
  induction h with
  | nil => rfl
  | cons hfirst _ ih => rw [Expansion.listUnplaced, Expansion.listUnplaced, ih, hfirst]

theorem same_properties {properties properties' : List (Property Expansion)}
    (h : List.Forall₂ (Property.Alike Expansion.Same) properties properties') :
    Expansion.propertiesUnplaced properties = Expansion.propertiesUnplaced properties' := by
  induction h with
  | nil => rfl
  | @cons property property' _ _ hfirst _ ih =>
    rcases property with ⟨name, type, optional, visibility, doc⟩
    rcases property' with ⟨_, _, _, _, _⟩
    rcases hfirst with ⟨rfl, htype, rfl, rfl, rfl⟩
    rw [Expansion.propertiesUnplaced, Expansion.propertiesUnplaced, ih, htype]

theorem expandProperty_simulated (h : workspace.Mirrors other related) {property property' : Property NodeId}
    (hproperty : property.Alike related property')
    (hchild : ∀ part part', related part part' → (child part).SimulatedBy Expansion.Same (child' part')) :
    (workspace.expandProperty mode child property).SimulatedBy (Property.Alike Expansion.Same)
      (other.expandProperty mode child' property') := by
  have hnever : (other.graph.node? property'.type).any Node.isNever =
      (workspace.graph.node? property.type).any Node.isNever := by
    have hnodes := h.nodes _ _ hproperty.type
    generalize workspace.graph.node? property.type = found at hnodes
    generalize other.graph.node? property'.type = found' at hnodes
    cases hnodes with
    | none => rfl
    | some halike => exact halike.isNever_eq
  have hwrap : ∀ type type', Expansion.Same type type' →
      Traced.SimulatedBy (pure (⟨property.name, type, property.optional, property.visibility, property.doc⟩ :
          Property Expansion)) (Property.Alike Expansion.Same)
        (pure ⟨property'.name, type', property'.optional, property'.visibility, property'.doc⟩) :=
    fun type type' htype => .pure ⟨hproperty.name_eq, htype, hproperty.optional_eq, hproperty.visibility_eq,
      hproperty.doc_eq⟩
  unfold expandProperty
  dsimp only
  rw [hnever]
  split
  · have habsent : Expansion.Same (.primitive (.intrinsic .never)) (.primitive (.intrinsic .never)) := rfl
    exact (Traced.SimulatedBy.pure habsent).bind hwrap
  · exact (hchild _ _ hproperty.type).bind hwrap

theorem expandModel_simulated (h : workspace.Mirrors other related) {content content' : Model}
    (hcontent : (Node.model content).Alike related (.model content'))
    (hchild : ∀ part part', related part part' → (child part).SimulatedBy Expansion.Same (child' part')) :
    (workspace.expandModel mode content child).SimulatedBy Expansion.Same
      (other.expandModel mode content' child') := by
  cases hcontent with
  | model decl properties properties' base base' indexer indexer' hproperties hbase hindexer =>
    unfold expandModel
    simp only [Model.indexed?]
    cases decl.name.bind Indexed.ofName? with
    | some kind =>
      cases hindexer with
      | none => exact .fail
      | some hpart =>
        refine (hchild _ _ hpart).map (fun expansion expansion' hsame => ?_)
        simp only [Expansion.Same, Expansion.unplaced, Expansion.indexed.injEq, true_and]
        exact hsame
    | none =>
      have hbases : Option.Rel (fun part part' => (child part).SimulatedBy Expansion.Same (child' part')) base base' := by
        cases hbase with
        | none => exact .none
        | some hpart => exact .some (hchild _ _ hpart)
      refine (Traced.SimulatedBy.optionMapM hbases).bind (fun extended extended' hextended => ?_)
      refine (Traced.SimulatedBy.mapM (hproperties.imp (fun _ _ hproperty =>
        expandProperty_simulated h hproperty hchild))).bind (fun expanded expanded' hexpanded => .pure ?_)
      cases hextended with
      | none => simp only [Expansion.Same, Expansion.unplaced, same_properties hexpanded]
      | some hsame =>
        simp only [Expansion.Same] at hsame
        simp only [Expansion.Same, Expansion.unplaced, same_properties hexpanded, hsame]

theorem expandNode_simulated (h : workspace.Mirrors other related) {node node' : Node}
    (hnode : node.Alike related node')
    (hchild : ∀ part part', related part part' → (child part).SimulatedBy Expansion.Same (child' part')) :
    (workspace.expandNode mode node child).SimulatedBy Expansion.Same (other.expandNode mode node' child') := by
  have hlist : ∀ {parts parts'}, List.Forall₂ related parts parts' →
      (parts.mapM child).SimulatedBy (List.Forall₂ Expansion.Same) (parts'.mapM child') :=
    fun hparts => .mapM (hparts.imp hchild)
  cases hnode with
  | primitive value => exact .pure rfl
  | enumeration content => exact .pure rfl
  | member owner owner' name howner => exact expandMember_simulated h name howner
  | scalar decl base base' hbase => exact expandScalar_simulated h decl hbase hchild
  | model decl properties properties' base base' indexer indexer' hproperties hbase hindexer =>
    exact expandModel_simulated h (.model decl _ _ _ _ _ _ hproperties hbase hindexer) hchild
  | tuple elements elements' helements =>
    refine (hlist helements).map (fun expanded expanded' hexpanded => ?_)
    simp only [Expansion.Same, Expansion.unplaced, same_list hexpanded]
  | union decl variants variants' hvariants =>
    refine (hlist hvariants).map (fun expanded expanded' hexpanded => ?_)
    simp only [Expansion.Same, Expansion.unplaced, same_list hexpanded]
  | unsupported kind => exact .fail

end Node

/-- An expansion to a depth, without a record of the nodes around the one at hand. -/
def expandTo (workspace : Workspace) (mode : Mode) : Nat → Bool → NodeId → Traced Expansion
  | 0, _, id => refuseDangling id
  | depth + 1, locked, id =>
    match workspace.graph.node? id with
    | none => refuseDangling id
    | some node =>
      match workspace.reference? locked id node with
      | some reference => pure reference
      | none => workspace.expandNode mode node (workspace.expandTo mode depth true)

theorem expandTo_reference {depth : Nat} {locked : Bool} {id : NodeId} {node : Node} {reference : Expansion}
    (hnode : workspace.graph.node? id = some node)
    (hreference : workspace.reference? locked id node = some reference) :
    workspace.expandTo mode (depth + 1) locked id = pure reference := by
  simp only [expandTo, hnode, hreference]

theorem expandTo_node {depth : Nat} {locked : Bool} {id : NodeId} {node : Node}
    (hnode : workspace.graph.node? id = some node) (hreference : workspace.reference? locked id node = none) :
    workspace.expandTo mode (depth + 1) locked id =
      workspace.expandNode mode node (workspace.expandTo mode depth true) := by
  simp only [expandTo, hnode, hreference]

/-- Related places are referred to alike. -/
theorem reference?_mirrored (h : workspace.Mirrors other related) (locked : Bool) {id id' : NodeId}
    (hid : related id id') {node node' : Node} (hnode : node.Alike related node') :
    Option.Rel Expansion.Same (workspace.reference? locked id node) (other.reference? locked id' node') := by
  cases locked with
  | false => exact .none
  | true =>
    have hregistered := h.registered_eq hnode
    simp only [reference?, if_true, h.nodes.reaches_eq hid]
    generalize workspace.registered? node = found at hregistered
    generalize other.registered? node' = found' at hregistered
    cases found <;> cases found' <;> simp only [Option.map_none, Option.map_some, reduceCtorEq] at hregistered
    · exact .none
    · exact .some (by simp only [Expansion.Same, Expansion.unplaced, Option.some.inj hregistered])

/-- To every depth related places are expanded alike, and a greater depth does no harm. -/
theorem expandTo_simulated (h : workspace.Mirrors other related) {depth depth' : Nat} (hdepth : depth ≤ depth')
    (locked : Bool) {id id' : NodeId} (hid : related id id') :
    (workspace.expandTo mode depth locked id).SimulatedBy Expansion.Same
      (other.expandTo mode depth' locked id') := by
  induction depth generalizing depth' locked id id' with
  | zero => exact .fail
  | succ depth ih =>
    cases depth' with
    | zero => exact absurd hdepth (Nat.not_succ_le_zero depth)
    | succ depth' =>
      cases hnode : workspace.graph.node? id with
      | none =>
        simp only [expandTo, hnode]
        exact .fail
      | some node =>
        rcases h.nodes.node hid hnode with ⟨node', hnode', halike⟩
        have hreference := reference?_mirrored h locked hid halike
        simp only [expandTo, hnode, hnode']
        generalize workspace.reference? locked id node = found at hreference
        generalize other.reference? locked id' node' = found' at hreference
        cases hreference with
        | some hsame => exact .pure hsame
        | none =>
          exact expandNode_simulated h halike
            (fun part part' hpart => ih (Nat.le_of_succ_le_succ hdepth) true hpart)

/-- An expansion that succeeds does so to every depth behind which no place is left unvisited. -/
theorem expand_simulated_expandTo (locked : Bool) (ancestry : List NodeId) (id : NodeId) {depth : Nat}
    (hdepth : (workspace.graph.unvisited ancestry).length < depth) :
    (workspace.expand mode locked ancestry id).SimulatedBy Expansion.Same
      (workspace.expandTo mode depth locked id) := by
  induction locked, ancestry, id using Workspace.expand.induct workspace generalizing depth with
  | case1 locked ancestry id hnode =>
    rw [expand_missing workspace mode hnode]
    exact .fail
  | case2 locked ancestry id node hnode reference hreference =>
    cases depth with
    | zero => exact absurd hdepth (Nat.not_lt_zero _)
    | succ depth =>
      rw [expand_reference workspace mode hnode hreference, expandTo_reference hnode hreference]
      exact .pure rfl
  | case3 locked ancestry id node hnode hreference hcycle =>
    rw [expand_cycle workspace mode hnode hreference hcycle]
    cases node <;> exact .fail
  | case4 locked ancestry id node hnode hreference hcycle _ ih =>
    cases depth with
    | zero => exact absurd hdepth (Nat.not_lt_zero _)
    | succ depth =>
      have hless := Graph.length_unvisited_cons (Graph.lt_size_of_node? hnode) hcycle
      rw [expand_node workspace mode hnode hreference hcycle, expandTo_node hnode hreference]
      refine expandNode_simulated (.refl workspace) (.refl node) ?_
      rintro part _ rfl
      exact ih part (by omega)

/-- None of some places is expanded at a depth, where it is written in full. -/
def Unfinished (workspace : Workspace) (mode : Mode) (depth : Nat) (places : List NodeId) : Prop :=
  ∀ place ∈ places, ∀ node, workspace.IsExpanded true place node →
    ∀ expansion, (workspace.expandTo mode depth true place).outcome ≠ .ok expansion

theorem Unfinished.mono {depth depth' : Nat} {places : List NodeId} (h : workspace.Unfinished mode depth' places)
    (hdepth : depth ≤ depth') : workspace.Unfinished mode depth places := by
  intro place hplace node hnode expansion hexpansion
  rcases expandTo_simulated (.refl workspace) hdepth true rfl expansion hexpansion with ⟨found, hfound, _⟩
  exact h place hplace node hnode found hfound

/-- What succeeds at a depth is not inside itself, as long as nothing around it has succeeded so early. So it
can be expanded with a record of what is around it. -/
theorem expandTo_simulated_expand (depth : Nat) (locked : Bool) (ancestry : List NodeId) (id : NodeId)
    (hroot : locked = false → ancestry = []) (hancestry : workspace.Unfinished mode depth ancestry) :
    (workspace.expandTo mode depth locked id).SimulatedBy Expansion.Same
      (workspace.expand mode locked ancestry id) := by
  induction depth generalizing locked ancestry id with
  | zero => exact .fail
  | succ depth ih =>
    have hsmaller := hancestry.mono (Nat.le_succ depth)
    intro expansion hexpansion
    by_cases hearly : ∃ early, (workspace.expandTo mode depth locked id).outcome = .ok early
    · rcases hearly with ⟨early, hearly⟩
      rcases expandTo_simulated (.refl workspace) (Nat.le_succ depth) locked rfl early hearly with
        ⟨late, hlate, hsame⟩
      cases hexpansion.symm.trans hlate
      rcases ih locked ancestry id hroot hsmaller early hearly with ⟨found, hfound, hsame'⟩
      exact ⟨found, hfound, hsame.symm.trans hsame'⟩
    · -- The place is first expanded at this depth, so what it mentions is expanded before it.
      cases hnode : workspace.graph.node? id with
      | none =>
        simp only [expandTo, hnode] at hexpansion
        cases hexpansion
      | some node =>
        cases hreference : workspace.reference? locked id node with
        | some reference =>
          rw [expandTo_reference hnode hreference] at hexpansion
          rw [expand_reference workspace mode hnode hreference]
          exact ⟨reference, rfl, by cases hexpansion; rfl⟩
        | none =>
          have hexpanded : workspace.registered? node = none → workspace.IsExpanded true id node :=
            fun hregistered => ⟨hnode, fun _ => hregistered⟩
          have hfresh : id ∉ ancestry := by
            intro hmem
            cases locked with
            | false => simp [hroot rfl] at hmem
            | true => exact hancestry id hmem node (hexpanded (reference?_none hreference rfl)) expansion hexpansion
          have hunfinished : workspace.Unfinished mode depth (id :: ancestry) := by
            intro place hplace other hother found hfound
            rcases List.mem_cons.1 hplace with rfl | hplace
            · -- Unlocked or not, an unregistered node is expanded in the same way.
              apply hearly
              cases locked with
              | true => exact ⟨found, hfound⟩
              | false =>
                cases depth with
                | zero => cases hfound
                | succ depth =>
                  rw [expandTo_node hother.1 (reference?_of_isExpanded hother)] at hfound
                  cases hnode.symm.trans hother.1
                  exact ⟨found, by rw [expandTo_node hnode hreference]; exact hfound⟩
            · exact hsmaller place hplace other hother found hfound
          rw [expandTo_node hnode hreference] at hexpansion
          rw [expand_node workspace mode hnode hreference hfresh]
          refine expandNode_simulated (.refl workspace) (.refl node) ?_ expansion hexpansion
          rintro part _ rfl
          exact ih true (id :: ancestry) part (by simp) hunfinished

/-- Outside of every other node, related places are expanded alike. -/
theorem expand_simulated (h : workspace.Mirrors other related) (mode : Mode) (locked : Bool) {id id' : NodeId}
    (hid : related id id') :
    (workspace.expand mode locked [] id).SimulatedBy Expansion.Same (other.expand mode locked [] id') := by
  intro expansion hexpansion
  rcases expand_simulated_expandTo locked [] id (Nat.lt_succ_self _) expansion hexpansion with
    ⟨found, hfound, hsame⟩
  rcases expandTo_simulated h (Nat.le_refl _) locked hid found hfound with ⟨found', hfound', hsame'⟩
  rcases expandTo_simulated_expand _ locked [] id' (fun _ => rfl) (by simp [Unfinished]) found' hfound' with
    ⟨result, hresult, hsame''⟩
  exact ⟨result, hresult, hsame.trans (hsame'.trans hsame'')⟩

end Workspace
end SchemaGuards

import SchemaGuards.Schema.Reachability

/-!
# Exactness of the search for restrictions

The search finds a restriction exactly when a path of mentioned nodes leads to one. A search without
success leaves a set of nodes that is closed under mentioning and holds no restriction.
-/
namespace SchemaGuards.Graph

/-- A restricted property can be reached from a place. -/
inductive LeadsToRestriction (graph : Graph) : NodeId → Prop
  | here (id : NodeId) (node : Node) (hnode : graph.node? id = some node) (h : node.isRestricted = true) :
    graph.LeadsToRestriction id
  | step (id next : NodeId) (node : Node) (hnode : graph.node? id = some node) (hnext : next ∈ node.successors)
    (h : graph.LeadsToRestriction next) : graph.LeadsToRestriction id

/-- A set of places that holds no restriction and all that it mentions, except where it was visited. -/
def IsUnrestricted (graph : Graph) (visited : List NodeId) (places : NodeId → Prop) : Prop :=
  ∀ id node, places id → graph.node? id = some node → id ∉ visited →
    node.isRestricted = false ∧ ∀ next ∈ node.successors, places next

variable {graph : Graph}

theorem IsUnrestricted.not_leads {places : NodeId → Prop} (h : graph.IsUnrestricted [] places) {id : NodeId}
    (hid : places id) : ¬ graph.LeadsToRestriction id := by
  intro hleads
  induction hleads with
  | here id node hnode hrestricted =>
    have hnot := (h id node hid hnode (by simp)).1
    rw [hrestricted] at hnot
    cases hnot
  | step id next node hnode hnext _ ih => exact ih ((h id node hid hnode (by simp)).2 next hnext)

theorem IsUnrestricted.visit {visited : List NodeId} {places : NodeId → Prop}
    (h : graph.IsUnrestricted visited places) (id : NodeId) : graph.IsUnrestricted (id :: visited) places :=
  fun other node hother hnode hvisited =>
    h other node hother hnode (fun hmem => hvisited (List.mem_cons_of_mem _ hmem))

theorem mem_cons_insert {places : NodeId → Prop} {id : NodeId} {rest : List NodeId}
    (h : ∀ other ∈ rest, places other) : ∀ other ∈ id :: rest, places other ∨ other = id := by
  intro other hother
  rcases List.mem_cons.1 hother with heq | hmem
  · exact .inr heq
  · exact .inl (h other hmem)

/-- A place joins a set when it was visited or all that it mentions is there already. -/
theorem IsUnrestricted.insert {visited : List NodeId} {places : NodeId → Prop} {id : NodeId}
    (h : graph.IsUnrestricted (id :: visited) places)
    (hid : ∀ node, graph.node? id = some node → id ∉ visited →
      node.isRestricted = false ∧ ∀ next ∈ node.successors, places next) :
    graph.IsUnrestricted visited (fun other => places other ∨ other = id) := by
  have hplace : ∀ node, graph.node? id = some node → id ∉ visited →
      node.isRestricted = false ∧ ∀ next ∈ node.successors, places next ∨ next = id := by
    intro node hnode hvisited
    rcases hid node hnode hvisited with ⟨hrestricted, hnext⟩
    exact ⟨hrestricted, fun next hmem => .inl (hnext next hmem)⟩
  intro other node hother hnode hvisited
  by_cases heq : other = id
  · subst heq
    exact hplace node hnode hvisited
  · rcases h other node (hother.resolve_right heq) hnode (by simp [heq, hvisited]) with ⟨hrestricted, hnext⟩
    exact ⟨hrestricted, fun next hmem => .inl (hnext next hmem)⟩

theorem searchRestriction_sound (visited pending : List NodeId)
    (h : graph.searchRestriction visited pending = true) : ∃ id ∈ pending, graph.LeadsToRestriction id := by
  induction visited, pending using searchRestriction.induct graph with
  | case1 visited =>
    rw [searchRestriction] at h
    cases h
  | case2 visited id rest hseen ih =>
    rw [searchRestriction, dif_pos hseen] at h
    rcases ih h with ⟨other, hother, hleads⟩
    exact ⟨other, List.mem_cons_of_mem _ hother, hleads⟩
  | case3 visited id rest hseen hnode ih =>
    rw [searchRestriction, dif_neg hseen] at h
    split at h
    · rcases ih h with ⟨other, hother, hleads⟩
      exact ⟨other, List.mem_cons_of_mem _ hother, hleads⟩
    · next node hsome =>
      rw [hnode] at hsome
      cases hsome
  | case4 visited id rest hseen node hnode _ ih =>
    rw [searchRestriction, dif_neg hseen] at h
    split at h
    · next hnone =>
      rw [hnode] at hnone
      cases hnone
    · next found hfound =>
      cases hnode.symm.trans hfound
      rw [Bool.or_eq_true] at h
      rcases h with hrestricted | hbehind
      · exact ⟨id, by simp, .here id node hnode hrestricted⟩
      · rcases ih hbehind with ⟨other, hother, hleads⟩
        rcases List.mem_append.1 hother with hnext | hrest
        · exact ⟨id, by simp, .step id other node hnode hnext hleads⟩
        · exact ⟨other, List.mem_cons_of_mem _ hrest, hleads⟩

theorem searchRestriction_complete (visited pending : List NodeId)
    (h : graph.searchRestriction visited pending = false) :
    ∃ places, graph.IsUnrestricted visited places ∧ ∀ id ∈ pending, places id := by
  induction visited, pending using searchRestriction.induct graph with
  | case1 visited => exact ⟨fun _ => False, fun _ _ hid => hid.elim, by simp⟩
  | case2 visited id rest hseen ih =>
    rw [searchRestriction, dif_pos hseen] at h
    rcases ih h with ⟨places, hplaces, hall⟩
    have hinsert := (hplaces.visit id).insert (fun _ _ hnot => absurd hseen hnot)
    exact ⟨_, hinsert, mem_cons_insert hall⟩
  | case3 visited id rest hseen hnode ih =>
    rw [searchRestriction, dif_neg hseen] at h
    split at h
    · rcases ih h with ⟨places, hplaces, hall⟩
      have hinsert := (hplaces.visit id).insert (fun _ hsome => by simp [hnode] at hsome)
      exact ⟨_, hinsert, mem_cons_insert hall⟩
    · next node hsome =>
      rw [hnode] at hsome
      cases hsome
  | case4 visited id rest hseen node hnode _ ih =>
    rw [searchRestriction, dif_neg hseen] at h
    split at h
    · next hnone =>
      rw [hnode] at hnone
      cases hnone
    · next found hfound =>
      cases hnode.symm.trans hfound
      rw [Bool.or_eq_false_iff] at h
      rcases ih h.2 with ⟨places, hplaces, hall⟩
      have hinsert : graph.IsUnrestricted visited (fun other => places other ∨ other = id) := by
        apply hplaces.insert
        intro other hother _
        cases hnode.symm.trans hother
        exact ⟨h.1, fun next hmem => hall next (List.mem_append_left _ hmem)⟩
      exact ⟨_, hinsert, mem_cons_insert (fun other hmem => hall other (List.mem_append_right _ hmem))⟩

/-- The search is exact. -/
theorem reachesRestriction_iff {id : NodeId} :
    graph.reachesRestriction id = true ↔ graph.LeadsToRestriction id := by
  constructor
  · intro h
    rcases searchRestriction_sound [] [id] h with ⟨other, hother, hleads⟩
    cases List.mem_singleton.1 hother
    exact hleads
  · intro hleads
    cases hsearch : graph.searchRestriction [] [id] with
    | true => exact hsearch
    | false =>
      rcases searchRestriction_complete [] [id] hsearch with ⟨places, hplaces, hall⟩
      exact absurd hleads (hplaces.not_leads (hall id (by simp)))

/-- A restriction is reached from a node when the node has one of its own or mentions one that does. -/
theorem reachesRestriction_eq {id : NodeId} {node : Node} (hnode : graph.node? id = some node) :
    graph.reachesRestriction id = (node.isRestricted || node.successors.any graph.reachesRestriction) := by
  rw [Bool.eq_iff_iff, reachesRestriction_iff, Bool.or_eq_true, List.any_eq_true]
  constructor
  · intro h
    cases h with
    | here id found hfound hrestricted =>
      cases hnode.symm.trans hfound
      exact .inl hrestricted
    | step id next found hfound hnext hleads =>
      cases hnode.symm.trans hfound
      exact .inr ⟨next, hnext, reachesRestriction_iff.2 hleads⟩
  · rintro (hrestricted | ⟨next, hnext, hreaches⟩)
    · exact .here id node hnode hrestricted
    · exact .step id next node hnode hnext (reachesRestriction_iff.1 hreaches)

end SchemaGuards.Graph

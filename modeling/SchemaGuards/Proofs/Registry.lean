import SchemaGuards.Proofs.Linking.Linked

/-!
# The registry of a linked graph

Different declarations of a linked graph have different identities, so its registry exists. It finds
every declaration with an identity below the roots, and nothing else.
-/
namespace SchemaGuards

theorem Graph.registrable?_eq_some {graph : Graph} {id : NodeId} {entry : Entry}
    (h : graph.registrable? id = some entry) :
    entry.node = id ∧ ∃ node, graph.node? id = some node ∧ node.identity? = some entry.identity ∧
      node.kind.isDeclarable ∧ isRooted graph.roots entry.identity.scope := by
  rw [registrable?] at h
  split at h
  · next node hnode =>
    split at h
    · next identity hidentity =>
      split at h
      · next hregistrable =>
        cases h
        rw [Bool.and_eq_true] at hregistrable
        exact ⟨rfl, node, hnode, hidentity, hregistrable⟩
      · cases h
    · cases h
  · cases h

theorem Graph.registrable?_of_identity {graph : Graph} {id : NodeId} {node : Node} {identity : Identity}
    (hnode : graph.node? id = some node) (hidentity : node.identity? = some identity)
    (hkind : node.kind.isDeclarable) (hroot : isRooted graph.roots identity.scope) :
    graph.registrable? id = some ⟨identity, id⟩ := by
  simp [registrable?, hnode, hidentity, hkind, hroot]

namespace Registry

theorem find?_some {registry : Registry} {identity : Identity} {entry : Entry}
    (h : registry.find? identity = some entry) : entry ∈ registry ∧ entry.identity = identity := by
  rw [find?] at h
  exact ⟨List.mem_of_find?_eq_some h, by simpa using List.find?_some h⟩

/-- Entries of different identities are all inserted. -/
theorem foldlM_insert (entries : List Entry) (registry : Registry)
    (hnodup : (entries.map Entry.identity).Nodup)
    (hnew : ∀ entry ∈ entries, registry.find? entry.identity = none) :
    entries.foldlM insert registry = .ok (registry ++ entries) := by
  induction entries generalizing registry with
  | nil => simp [pure, Except.pure]
  | cons entry rest ih =>
    rw [List.map_cons, List.nodup_cons] at hnodup
    have hfirst : registry.insert entry = .ok (registry ++ [entry]) := by
      simp [insert, contains, hnew entry (by simp)]
    have hrest : ∀ other ∈ rest, find? (registry ++ [entry]) other.identity = none := by
      intro other hother
      have hne : entry.identity ≠ other.identity := by
        intro heq
        exact hnodup.1 (heq ▸ List.mem_map_of_mem hother)
      rw [find?_append_singleton, hnew other (by simp [hother]), if_neg hne]
      rfl
    rw [List.foldlM_cons, hfirst]
    have := ih (registry ++ [entry]) hnodup.2 hrest
    rw [List.append_assoc] at this
    exact this

theorem eq_of_foldlM_insert {entries : List Entry} {registry next : Registry}
    (h : entries.foldlM insert registry = .ok next) : next = registry ++ entries := by
  induction entries generalizing registry with
  | nil =>
    cases h
    exact (List.append_nil _).symm
  | cons entry rest ih =>
    rw [List.foldlM_cons, insert] at h
    split at h
    · cases h
    · rw [ih h, List.append_assoc]
      rfl

theorem find?_of_mem {registry : Registry} (hnodup : (registry.map Entry.identity).Nodup) {entry : Entry}
    (h : entry ∈ registry) : registry.find? entry.identity = some entry := by
  induction registry with
  | nil => cases h
  | cons first rest ih =>
    rw [List.map_cons, List.nodup_cons] at hnodup
    rcases List.mem_cons.1 h with rfl | h
    · simp [find?]
    · have hne : first.identity ≠ entry.identity := by
        intro heq
        exact hnodup.1 (heq ▸ List.mem_map_of_mem h)
      rw [← ih hnodup.2 h, find?, List.find?_cons]
      simp [hne, find?]

end Registry

/-- What a graph's registry has of its declarations. -/
structure Registry.Lists (registry : Registry) (graph : Graph) : Prop where
  sound : ∀ entry ∈ registry, entry.node ∈ graph.declarations ∧ ∃ node, graph.node? entry.node = some node ∧
    node.identity? = some entry.identity ∧ isRooted graph.roots entry.identity.scope
  complete : ∀ id ∈ graph.declarations, ∀ node identity, graph.node? id = some node →
    node.identity? = some identity → isRooted graph.roots identity.scope →
    registry.find? identity = some ⟨identity, id⟩
  found : ∀ entry ∈ registry, registry.find? entry.identity = some entry

namespace Graph
variable {graph : Graph} {kinds : List String}

theorem IsLinked.nodup_registrable (h : graph.IsLinked kinds) :
    ((graph.declarations.filterMap graph.registrable?).map Entry.identity).Nodup := by
  rw [List.Nodup, List.pairwise_map, List.pairwise_filterMap]
  apply h.nodup.imp_of_mem
  intro id other hid hother hne entry hentry entry' hentry' heq
  rcases registrable?_eq_some hentry with ⟨_, node, hnode, hidentity, _⟩
  rcases registrable?_eq_some hentry' with ⟨_, node', hnode', hidentity', _⟩
  exact hne (h.eq_of_identity hid hother hnode hnode' hidentity (heq ▸ hidentity'))

theorem IsLinked.ofGraph_eq (h : graph.IsLinked kinds) :
    Registry.ofGraph graph = .ok (graph.declarations.filterMap graph.registrable?) := by
  have := Registry.foldlM_insert _ [] h.nodup_registrable (by simp [Registry.find?])
  simpa [Registry.ofGraph] using this

theorem IsLinked.lists (h : graph.IsLinked kinds) {registry : Registry}
    (hregistry : Registry.ofGraph graph = .ok registry) : registry.Lists graph := by
  rw [h.ofGraph_eq] at hregistry
  cases hregistry
  refine ⟨?_, ?_, fun entry hentry => Registry.find?_of_mem h.nodup_registrable hentry⟩
  · intro entry hentry
    rcases List.mem_filterMap.1 hentry with ⟨id, hid, hentry⟩
    rcases registrable?_eq_some hentry with ⟨rfl, node, hnode, hidentity, _, hroot⟩
    exact ⟨hid, node, hnode, hidentity, hroot⟩
  · intro id hid node identity hnode hidentity hroot
    rcases h.declared id hid with ⟨found, hfound, hkind, _⟩
    rw [hnode] at hfound
    cases hfound
    have hentry := registrable?_of_identity hnode hidentity hkind hroot
    have hmem : (⟨identity, id⟩ : Entry) ∈ graph.declarations.filterMap graph.registrable? :=
      List.mem_filterMap.2 ⟨id, hid, hentry⟩
    exact Registry.find?_of_mem h.nodup_registrable hmem

end Graph
end SchemaGuards

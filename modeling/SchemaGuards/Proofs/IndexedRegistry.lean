import SchemaGuards.Proofs.Registry
import SchemaGuards.Schema.IndexedRegistry

/-!
# Entries and index in step

The index of a registry holds the position of an identity exactly if an entry with this identity stands there. Every
insertion keeps this, whether it is refused or not, so it holds of whatever has been inserted. It says that no identity
is registered twice and that looking an identity up finds its entry. The registry of a schema is built by insertions up
to the first refused one, and has the same entries as the list of entries without an index.
-/
namespace SchemaGuards

/-- A declaration that is registered under an identity: it has one, is of a kind that is emitted under a name, and lies
below a root. -/
def Graph.Registers (graph : Graph) (id : NodeId) (identity : Identity) : Prop :=
  ∃ node, graph.node? id = some node ∧ node.identity? = some identity ∧
    node.kind ∈ [.enumeration, .scalar, .model, .union] ∧ isRooted graph.roots identity.scope

theorem Kind.isDeclarable_iff {kind : Kind} : kind.isDeclarable ↔ kind ∈ [.enumeration, .scalar, .model, .union] := by
  cases kind <;> decide

theorem Graph.registrable?_eq_some_iff {graph : Graph} {id : NodeId} {entry : Entry} :
    graph.registrable? id = some entry ↔ entry.node = id ∧ graph.Registers id entry.identity := by
  constructor
  · intro h
    rcases registrable?_eq_some h with ⟨hid, node, hnode, hidentity, hkind, hroot⟩
    exact ⟨hid, node, hnode, hidentity, Kind.isDeclarable_iff.1 hkind, hroot⟩
  · rintro ⟨rfl, node, hnode, hidentity, hkind, hroot⟩
    exact registrable?_of_identity hnode hidentity (Kind.isDeclarable_iff.2 hkind) hroot

namespace IndexedRegistry
variable {registry : IndexedRegistry}

/-- The index holds the positions of the entries and nothing else. -/
def IsInStep (registry : IndexedRegistry) : Prop :=
  ∀ identity position, registry.index.lookup identity = some position ↔
    ∃ entry, registry.entries[position]? = some entry ∧ entry.identity = identity

theorem isInStep_empty : IsInStep {} := by
  intro identity position
  simp

section Lookup
variable (h : registry.IsInStep) {identity : Identity} {entry : Entry}
include h

theorem IsInStep.find?_eq_some_iff :
    registry.find? identity = some entry ↔ entry ∈ registry.entries ∧ entry.identity = identity := by
  rw [find?, Option.bind_eq_some_iff]
  constructor
  · rintro ⟨position, hindex, hentry⟩
    rcases (h identity position).1 hindex with ⟨other, hother, hidentity⟩
    rw [hentry] at hother
    cases hother
    exact ⟨Array.mem_of_getElem? hentry, hidentity⟩
  · rintro ⟨hentry, hidentity⟩
    rcases Array.mem_iff_getElem?.1 hentry with ⟨position, hposition⟩
    exact ⟨position, (h identity position).2 ⟨entry, hposition, hidentity⟩, hposition⟩

/-- No position of the index is outside the entries, so that whatever is contained is found. -/
theorem IsInStep.contains_eq : registry.contains identity = (registry.find? identity).isSome := by
  rw [contains, find?]
  cases hindex : registry.index.lookup identity with
  | none => rfl
  | some position =>
    rcases (h identity position).1 hindex with ⟨entry, hentry, _⟩
    rw [Option.bind_some, hentry]
    rfl

theorem IsInStep.contains_iff :
    registry.contains identity ↔ ∃ entry ∈ registry.entries, entry.identity = identity := by
  simp only [h.contains_eq, Option.isSome_iff_exists, h.find?_eq_some_iff]

/-- An identity has one position, so it is registered once. -/
theorem IsInStep.nodup : (registry.entries.toList.map Entry.identity).Nodup := by
  rw [List.Nodup, List.pairwise_map, List.pairwise_iff_getElem]
  intro i j hi hj hij heq
  have hfirst := (h _ i).2 ⟨_, Array.getElem?_toList ▸ List.getElem?_eq_getElem hi, rfl⟩
  have hsecond := (h _ j).2 ⟨_, Array.getElem?_toList ▸ List.getElem?_eq_getElem hj, heq.symm⟩
  rw [hfirst, Option.some.injEq] at hsecond
  omega

end Lookup

/-- A refused insertion is the error of the identity, and changes nothing. -/
theorem insert_of_contains {entry : Entry} (h : registry.contains entry.identity) :
    registry.insert entry = (.error (.duplicateIdentity entry.identity.text), registry) := by
  rw [insert, if_pos h]

theorem insert_of_not_contains {entry : Entry} (h : ¬ registry.contains entry.identity) :
    registry.insert entry = (.ok (),
      { entries := registry.entries.push entry
        index := (entry.identity, registry.entries.size) :: registry.index }) := by
  rw [insert, if_neg h]

theorem insert_of_error {entry : Entry} {error : SchemaError} (h : (registry.insert entry).1 = .error error) :
    error = .duplicateIdentity entry.identity.text ∧ (registry.insert entry).2 = registry := by
  by_cases hcontains : registry.contains entry.identity
  · rw [insert_of_contains hcontains] at h ⊢
    cases h
    exact ⟨rfl, rfl⟩
  · rw [insert_of_not_contains hcontains] at h
    cases h

/-- An insertion is refused exactly if its identity is registered. -/
theorem IsInStep.refused_iff (h : registry.IsInStep) (entry : Entry) :
    (∃ error, (registry.insert entry).1 = .error error) ↔
      ∃ other ∈ registry.entries, other.identity = entry.identity := by
  rw [← h.contains_iff]
  by_cases hcontains : registry.contains entry.identity
  · rw [insert_of_contains hcontains]
    exact ⟨fun _ => hcontains, fun _ => ⟨_, rfl⟩⟩
  · rw [insert_of_not_contains hcontains]
    refine ⟨?_, fun hpresent => absurd hpresent hcontains⟩
    rintro ⟨_, hrefused⟩
    cases hrefused

theorem IsInStep.insert (h : registry.IsInStep) (entry : Entry) : (registry.insert entry).2.IsInStep := by
  by_cases hcontains : registry.contains entry.identity
  · rwa [insert_of_contains hcontains]
  · rw [insert_of_not_contains hcontains]
    rw [h.contains_iff] at hcontains
    intro identity position
    by_cases hidentity : identity = entry.identity
    · subst hidentity
      rw [List.lookup_cons_self, Option.some.injEq]
      constructor
      · rintro rfl
        exact ⟨entry, Array.getElem?_push_size, rfl⟩
      · rintro ⟨other, hother, heq⟩
        rw [Array.getElem?_push] at hother
        split at hother
        · next hposition => exact hposition.symm
        · exact absurd ⟨other, Array.mem_of_getElem? hother, heq⟩ hcontains
    · rw [List.lookup_cons, beq_false_of_ne hidentity, h identity position]
      refine exists_congr fun other => and_congr_left fun hother => ?_
      rw [Array.getElem?_push]
      split
      · next hposition =>
        have hnone : registry.entries[position]? = none := Array.getElem?_eq_none (Nat.le_of_eq hposition.symm)
        have hne : entry ≠ other := fun heq => hidentity (heq ▸ hother.symm)
        simp [hnone, hne]
      · rfl

/-- The entries of the insertions that were not refused. -/
def accepted (entries : List Entry) (answers : List (Except SchemaError Unit)) : List Entry :=
  ((entries.zip answers).filter (fun call => call.2.isOk)).map Prod.fst

theorem insert_entries (registry : IndexedRegistry) (entry : Entry) :
    (registry.insert entry).2.entries.toList =
      registry.entries.toList ++ accepted [entry] [(registry.insert entry).1] := by
  by_cases hcontains : registry.contains entry.identity
  · rw [insert_of_contains hcontains]
    exact (List.append_nil _).symm
  · rw [insert_of_not_contains hcontains]
    exact Array.toList_push

theorem insertAll_cons (registry : IndexedRegistry) (entry : Entry) (rest : List Entry) :
    registry.insertAll (entry :: rest) =
      ((registry.insert entry).1 :: ((registry.insert entry).2.insertAll rest).1,
        ((registry.insert entry).2.insertAll rest).2) := rfl

/-- Whatever is inserted, index and entries stay in step, and what was accepted stands behind the entries. -/
theorem insertAll_spec (h : registry.IsInStep) (entries : List Entry) :
    (registry.insertAll entries).2.IsInStep ∧
      (registry.insertAll entries).1.length = entries.length ∧
      (registry.insertAll entries).2.entries.toList =
        registry.entries.toList ++ accepted entries (registry.insertAll entries).1 := by
  induction entries generalizing registry with
  | nil => exact ⟨h, rfl, (List.append_nil _).symm⟩
  | cons entry rest ih =>
    rcases ih (h.insert entry) with ⟨hstep, hlength, hentries⟩
    refine ⟨hstep, congrArg (· + 1) hlength, ?_⟩
    rw [insertAll_cons, hentries, insert_entries, List.append_assoc]
    congr 1
    unfold accepted
    rw [← List.map_append, ← List.filter_append]
    rfl

theorem insertAll_append (registry : IndexedRegistry) (entries others : List Entry) :
    registry.insertAll (entries ++ others) =
      ((registry.insertAll entries).1 ++ ((registry.insertAll entries).2.insertAll others).1,
        ((registry.insertAll entries).2.insertAll others).2) := by
  induction entries generalizing registry with
  | nil => rfl
  | cons entry rest ih => rw [List.cons_append, insertAll_cons, ih, insertAll_cons, List.cons_append]

/-- A registry in step finds what the list of its entries finds. -/
theorem IsInStep.find?_toList (h : registry.IsInStep) (identity : Identity) :
    Registry.find? registry.entries.toList identity = registry.find? identity := by
  refine Option.ext fun entry => ?_
  rw [h.find?_eq_some_iff, ← Array.mem_toList_iff]
  constructor
  · exact Registry.find?_some
  · rintro ⟨hentry, rfl⟩
    exact Registry.find?_of_mem h.nodup hentry

/-- Declarations are registered as in a list without an index. -/
theorem registerAll_spec {graph : Graph} (h : registry.IsInStep) (ids : List NodeId) :
    (registry.registerAll graph ids).map (fun registry => registry.entries.toList) =
        (ids.filterMap graph.registrable?).foldlM Registry.insert registry.entries.toList ∧
      ∀ next, registry.registerAll graph ids = .ok next → next.IsInStep := by
  induction ids generalizing registry with
  | nil =>
    refine ⟨rfl, fun next hnext => ?_⟩
    cases hnext
    exact h
  | cons id rest ih =>
    rw [registerAll, List.filterMap_cons]
    cases hentry : graph.registrable? id with
    | none => exact ih h
    | some entry =>
      have hcontains : Registry.contains registry.entries.toList entry.identity = registry.contains entry.identity := by
        rw [Registry.contains, h.find?_toList, ← h.contains_eq]
      dsimp only
      rw [List.foldlM_cons, Registry.insert, hcontains]
      by_cases hpresent : registry.contains entry.identity
      · rw [insert_of_contains hpresent, if_pos hpresent]
        exact ⟨rfl, fun next hnext => by cases hnext⟩
      · have hnext := h.insert entry
        rw [insert_of_not_contains hpresent] at hnext ⊢
        rw [if_neg hpresent]
        have hrest := ih hnext
        rw [Array.toList_push] at hrest
        exact hrest

variable {graph : Graph}

/-- With its index or without, a schema has one registry. -/
theorem ofGraph_entries (graph : Graph) :
    (ofGraph graph).map (fun registry => registry.entries.toList) = Registry.ofGraph graph :=
  (registerAll_spec isInStep_empty graph.declarations).1

theorem ofGraph_ok (h : ofGraph graph = .ok registry) :
    registry.IsInStep ∧ registry.entries.toList = graph.declarations.filterMap graph.registrable? := by
  have hentries := ofGraph_entries graph
  rw [h] at hentries
  exact ⟨(registerAll_spec isInStep_empty graph.declarations).2 registry h,
    Registry.eq_of_foldlM_insert hentries.symm⟩

theorem ofGraph_isOk_iff :
    (∃ registry, ofGraph graph = .ok registry) ↔
      ((graph.declarations.filterMap graph.registrable?).map Entry.identity).Nodup := by
  constructor
  · rintro ⟨registry, h⟩
    rcases ofGraph_ok h with ⟨hstep, hentries⟩
    exact hentries ▸ hstep.nodup
  · intro h
    have hregistry := Registry.foldlM_insert _ [] h (by simp [Registry.find?])
    have hentries := (ofGraph_entries graph).trans hregistry
    cases hgraph : ofGraph graph with
    | ok registry => exact ⟨registry, rfl⟩
    | error error =>
      rw [hgraph] at hentries
      cases hentries

end IndexedRegistry

namespace Graph
variable {graph : Graph}

theorem isSome_registrable?_iff {id : NodeId} :
    (graph.registrable? id).isSome ↔ ∃ identity, graph.Registers id identity := by
  rw [Option.isSome_iff_exists]
  constructor
  · rintro ⟨entry, hentry⟩
    exact ⟨entry.identity, (registrable?_eq_some_iff.1 hentry).2⟩
  · rintro ⟨identity, hidentity⟩
    exact ⟨⟨identity, id⟩, registrable?_eq_some_iff.2 ⟨rfl, hidentity⟩⟩

instance (id : NodeId) : Decidable (∃ identity, graph.Registers id identity) :=
  decidable_of_iff _ isSome_registrable?_iff

/-- Different registrable declarations have different identities. -/
def HasDistinctIdentities (graph : Graph) : Prop :=
  graph.declarations.Pairwise fun id other => ∀ identity, graph.Registers id identity → ¬ graph.Registers other identity

theorem nodup_registrable_iff :
    ((graph.declarations.filterMap graph.registrable?).map Entry.identity).Nodup ↔ graph.HasDistinctIdentities := by
  rw [List.Nodup, List.pairwise_map, List.pairwise_filterMap, HasDistinctIdentities]
  refine List.Pairwise.iff fun id other => ?_
  constructor
  · intro h identity hid hother
    exact h ⟨identity, id⟩ (registrable?_eq_some_iff.2 ⟨rfl, hid⟩) ⟨identity, other⟩
      (registrable?_eq_some_iff.2 ⟨rfl, hother⟩) rfl
  · intro h entry hentry entry' hentry' heq
    exact h entry.identity (registrable?_eq_some_iff.1 hentry).2 (heq ▸ (registrable?_eq_some_iff.1 hentry').2)

/-- The registered nodes are the registrable declarations, in their order. -/
theorem map_node_registrable (graph : Graph) (ids : List NodeId) :
    (ids.filterMap graph.registrable?).map Entry.node =
      ids.filter (fun id => ∃ identity, graph.Registers id identity) := by
  induction ids with
  | nil => rfl
  | cons id rest ih =>
    rw [List.filterMap_cons, List.filter_cons]
    cases hentry : graph.registrable? id with
    | none =>
      have hnone : ¬ ∃ identity, graph.Registers id identity := by simp [← isSome_registrable?_iff, hentry]
      rw [decide_eq_false hnone]
      exact ih
    | some entry =>
      rcases registrable?_eq_some_iff.1 hentry with ⟨rfl, hidentity⟩
      rw [decide_eq_true ⟨entry.identity, hidentity⟩, if_pos rfl, List.map_cons, ih]

end Graph

namespace IndexedRegistry

/-- A new registry behind insertions, and the answers to them. -/
def after (entries : List Entry) : IndexedRegistry := (insertAll {} entries).2

def answers (entries : List Entry) : List (Except SchemaError Unit) := (insertAll {} entries).1

/-- Behind any insertions, whether refused or not, the registry finds what its entries are and nothing else, and the
entries are those of the accepted insertions, in their order and with distinct identities. A further insertion is
refused exactly if its identity is there, and then it changes nothing. The registry of a schema exists exactly if its
registrable declarations have distinct identities, and then holds exactly these, in their order. -/
theorem after_inStep (entries : List Entry) (graph : Graph) :
    (∀ identity entry, (after entries).find? identity = some entry ↔
        entry ∈ (after entries).entries ∧ entry.identity = identity) ∧
      (∀ identity, (after entries).contains identity = ((after entries).find? identity).isSome) ∧
      ((after entries).entries.toList.map Entry.identity).Nodup ∧
      (answers entries).length = entries.length ∧
      (after entries).entries.toList = accepted entries (answers entries) ∧
      (∀ entry,
        answers (entries ++ [entry]) = answers entries ++ [((after entries).insert entry).1] ∧
          after (entries ++ [entry]) = ((after entries).insert entry).2 ∧
          ((∃ error, ((after entries).insert entry).1 = .error error) ↔
            ∃ other ∈ (after entries).entries, other.identity = entry.identity) ∧
          ∀ error, ((after entries).insert entry).1 = .error error →
            error = .duplicateIdentity entry.identity.text ∧ ((after entries).insert entry).2 = after entries) ∧
      ((∃ registry, ofGraph graph = .ok registry) ↔ graph.HasDistinctIdentities) ∧
      ∀ registry, ofGraph graph = .ok registry →
        registry.entries.toList.map Entry.node =
            graph.declarations.filter (fun id => ∃ identity, graph.Registers id identity) ∧
          (∀ entry ∈ registry.entries, graph.Registers entry.node entry.identity) ∧
          Registry.ofGraph graph = .ok registry.entries.toList := by
  rcases insertAll_spec isInStep_empty entries with ⟨hstep, hlength, hentries⟩
  refine ⟨fun _ _ => hstep.find?_eq_some_iff, fun _ => hstep.contains_eq, hstep.nodup, hlength, hentries, ?_,
    ofGraph_isOk_iff.trans Graph.nodup_registrable_iff, ?_⟩
  · intro entry
    have happend := insertAll_append {} entries [entry]
    exact ⟨congrArg Prod.fst happend, congrArg Prod.snd happend, hstep.refused_iff entry, fun _ => insert_of_error⟩
  · intro registry hregistry
    rcases ofGraph_ok hregistry with ⟨_, hlist⟩
    have hnodes := Graph.map_node_registrable graph graph.declarations
    rw [← hlist] at hnodes
    refine ⟨hnodes, fun entry hentry => ?_, ?_⟩
    · rw [← Array.mem_toList_iff, hlist, List.mem_filterMap] at hentry
      rcases hentry with ⟨id, _, hid⟩
      rcases Graph.registrable?_eq_some_iff.1 hid with ⟨rfl, hidentity⟩
      exact hidentity
    · rw [← ofGraph_entries, hregistry]
      rfl

def repeatedEntries : List Entry :=
  [⟨⟨.model, "M", ["A"]⟩, 0⟩, ⟨⟨.model, "M", ["A"]⟩, 1⟩, ⟨⟨.scalar, "M", ["A"]⟩, 2⟩]

def mixedGraph : Graph where
  roots := ["A"]
  nodes := #[.model { decl := { name := some "M", scope := ["A"] } }, .model { decl := { scope := ["A"] } },
             .model { decl := { name := some "M", scope := ["B"] } },
             .scalar ⟨{ name := some "M", scope := ["A"] }, none⟩]
  declarations := [0, 1, 2, 3]

theorem after_inStep_repeated :
    answers repeatedEntries = [.ok (), .error (.duplicateIdentity "Model A.M"), .ok ()] ∧
      (after repeatedEntries).entries.toList = [⟨⟨.model, "M", ["A"]⟩, 0⟩, ⟨⟨.scalar, "M", ["A"]⟩, 2⟩] ∧
      (after repeatedEntries).find? ⟨.scalar, "M", ["A"]⟩ = some ⟨⟨.scalar, "M", ["A"]⟩, 2⟩ ∧
      ∃ registry, ofGraph mixedGraph = .ok registry ∧ mixedGraph.HasDistinctIdentities ∧
        registry.entries.toList.map Entry.node = [0, 3] := by
  have hanswers : answers repeatedEntries = [.ok (), .error (.duplicateIdentity "Model A.M"), .ok ()] := rfl
  rcases after_inStep repeatedEntries mixedGraph with ⟨hfind, _, _, _, hentries, _, hgraph, hregistry⟩
  rw [hanswers] at hentries
  have hscalar : (⟨⟨.scalar, "M", ["A"]⟩, 2⟩ : Entry) ∈ (after repeatedEntries).entries := by
    rw [← Array.mem_toList_iff, hentries]
    decide
  have hok : ofGraph mixedGraph = .ok ⟨#[⟨⟨.model, "M", ["A"]⟩, 0⟩, ⟨⟨.scalar, "M", ["A"]⟩, 3⟩],
      [(⟨.scalar, "M", ["A"]⟩, 1), (⟨.model, "M", ["A"]⟩, 0)]⟩ := rfl
  refine ⟨hanswers, hentries, (hfind _ _).2 ⟨hscalar, rfl⟩, _, hok, hgraph.1 ⟨_, hok⟩, ?_⟩
  rw [(hregistry _ hok).1]
  decide

end IndexedRegistry
end SchemaGuards

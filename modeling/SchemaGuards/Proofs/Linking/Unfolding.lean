import SchemaGuards.Proofs.Linking.Faithful

/-!
# Linking gives back the draft

All declarations get their places before the first body is linked. So the graph of a linked draft reads, from
the place of each declaration and from each body of an operation, as what the draft says there.
-/
namespace SchemaGuards.Draft

namespace Linking
open Linker

variable {linker later : Linker} {contents : Contents}

/-- A linker that has made the places of some declarations and nothing else. -/
structure IsPlaced (linker : Linker) (declarations : List Declaration) : Prop where
  size_eq : linker.graph.size = declarations.length
  declarations_eq : linker.graph.declarations = List.range declarations.length
  binds : ∀ qualified id, linker.graph.declared? qualified = some id ↔
    Contents.Declares ⟨declarations, []⟩ qualified id
  places : ∀ place declaration, declarations[place]? = some declaration →
    linker.graph.node? place = some (placeholder declaration)
  builtins_eq : linker.builtins = []
  operations_eq : linker.graph.operations = []

theorem isPlaced_start (roots : List String) : IsPlaced { graph := { roots } } [] := by
  refine ⟨rfl, rfl, ?_, ?_, rfl, rfl⟩ <;> simp [Graph.declared?, Contents.Declares]

theorem IsPlaced.isFaithful (h : IsPlaced linker contents.declarations) : linker.IsFaithful contents := by
  refine ⟨h.declarations_eq, h.binds, ?_, ?_, ?_⟩
  · intro place declaration hdeclaration
    exact ⟨_, h.places place declaration hdeclaration, .same _⟩
  · intro name id hid
    rw [h.builtins_eq] at hid
    cases hid
  · rintro id content ⟨hnot, hid⟩
    have hlt := Graph.lt_size_of_node? hid
    rw [h.size_eq] at hlt
    exact absurd (h.declarations_eq ▸ List.mem_range.2 hlt) hnot

/-- A placeholder has the name by which its declaration can be referred to. -/
theorem placeholder_qualified_iff {declaration : Declaration} {qualified : String} :
    (placeholder declaration).qualified? = some qualified ↔
      declaration.IsNamed ∧ declaration.qualified = qualified := by
  have hdecl : (placeholder declaration).decl? = some declaration.decl := by
    rw [placeholder]
    cases declaration.body <;> rfl
  have hname : (placeholder declaration).name? = some declaration.name := by
    rw [placeholder]
    cases declaration.body <;> rfl
  simp only [Node.qualified?, Node.identity?, hname, Node.scope, hdecl, Declaration.IsNamed]
  split
  · next hempty =>
    rw [Bool.or_eq_true] at hempty
    simp only [Option.map_none, reduceCtorEq, false_iff]
    rintro ⟨⟨hname, hscope⟩, _⟩
    exact hempty.elim (fun h => hname (of_decide_eq_true h)) (fun h => hscope (of_decide_eq_true h))
  · next hnamed =>
    rw [Bool.or_eq_true, not_or] at hnamed
    have hboth : declaration.name ≠ "" ∧ declaration.scope ≠ [] :=
      ⟨fun h => hnamed.1 (decide_eq_true h), fun h => hnamed.2 (decide_eq_true h)⟩
    simp [Declaration.decl, hboth, Identity.qualified, Declaration.qualified]

theorem getElem?_concat_iff {α : Type} {values : List α} {last value : α} {place : Nat} :
    (values ++ [last])[place]? = some value ↔
      values[place]? = some value ∨ place = values.length ∧ last = value := by
  rcases Nat.lt_trichotomy place values.length with hlt | rfl | hlt
  · rw [List.getElem?_append_left hlt]
    simp [Nat.ne_of_lt hlt]
  · simp
  · rw [List.getElem?_append_right (Nat.le_of_lt hlt), List.getElem?_eq_none (Nat.le_of_lt hlt)]
    rw [List.getElem?_eq_none (by simp; omega)]
    simp [Nat.ne_of_gt hlt]

theorem declare_placed {declarations : List Declaration} {declaration : Declaration} {id : NodeId}
    (hplaced : IsPlaced linker declarations) (h : declare declaration linker = .ok (id, later)) :
    id = declarations.length ∧ IsPlaced later (declarations ++ [declaration]) := by
  rw [declare] at h
  rcases bind_ok h with ⟨_, _, hget, h⟩
  cases get_ok hget
  cases hnew : linker.graph.declared? declaration.qualified with
  | some other =>
    simp only [hnew, Option.isSome_some, if_true] at h
    exact absurd h not_throw
  | none =>
    simp only [hnew, Option.isSome_none, Bool.false_eq_true, if_false] at h
    rcases bind_ok h with ⟨_, _, hset, h⟩
    cases hset
    cases pure_ok h
    refine ⟨hplaced.size_eq, ?_, ?_, ?_, ?_, hplaced.builtins_eq, hplaced.operations_eq⟩
    · simpa [Graph.size, Graph.declare] using hplaced.size_eq
    · simp [Graph.declare, hplaced.declarations_eq, hplaced.size_eq, List.range_succ]
    · intro qualified place
      rw [declared?_declare]
      simp only [Contents.Declares, getElem?_concat_iff]
      by_cases hname : (placeholder declaration).qualified? = some qualified
      · -- The new name is nobody's, so only the new declaration has it.
        rcases placeholder_qualified_iff.1 hname with ⟨hnamed, rfl⟩
        have hold : ∀ found, declarations[place]? = some found → found.IsNamed →
            found.qualified ≠ declaration.qualified := by
          intro found hfound hother heq
          have hdeclared := (hplaced.binds _ place).2 ⟨found, hfound, hother, heq⟩
          rw [hnew] at hdeclared
          cases hdeclared
        rw [if_pos hname, hplaced.size_eq, Option.some.injEq]
        constructor
        · rintro rfl
          exact ⟨declaration, .inr ⟨rfl, rfl⟩, hnamed, rfl⟩
        · rintro ⟨found, hfound | ⟨rfl, rfl⟩, hother, heq⟩
          · exact absurd heq (hold found hfound hother)
          · rfl
      · rw [if_neg hname, hplaced.binds]
        constructor
        · rintro ⟨found, hfound, hother⟩
          exact ⟨found, .inl hfound, hother⟩
        · rintro ⟨found, hfound | ⟨rfl, rfl⟩, hother⟩
          · exact ⟨found, hfound, hother⟩
          · exact absurd (placeholder_qualified_iff.2 hother) hname
    · intro place found hfound
      rw [Graph.node?_declare, hplaced.size_eq]
      rcases getElem?_concat_iff.1 hfound with hold | ⟨rfl, rfl⟩
      · have hlt : place < declarations.length := (List.getElem?_eq_some_iff.1 hold).1
        rw [if_neg (Nat.ne_of_lt hlt)]
        exact hplaced.places place found hold
      · rw [if_pos rfl]

theorem declareAll_placed (rest : List Declaration) {declarations : List Declaration} {ids : List NodeId}
    (hplaced : IsPlaced linker declarations) (h : rest.mapM declare linker = .ok (ids, later)) :
    ids = List.range' declarations.length rest.length ∧ IsPlaced later (declarations ++ rest) := by
  induction rest generalizing linker declarations ids with
  | nil =>
    rw [List.mapM_nil] at h
    cases pure_ok h
    exact ⟨rfl, by simpa using hplaced⟩
  | cons declaration rest ih =>
    rw [List.mapM_cons] at h
    rcases bind_ok h with ⟨id, middle, hid, h⟩
    rcases bind_ok h with ⟨others, last, hothers, h⟩
    cases pure_ok h
    rcases declare_placed hplaced hid with ⟨rfl, hmiddle⟩
    rcases ih hmiddle hothers with ⟨rfl, hlater⟩
    refine ⟨?_, by simpa using hlater⟩
    rw [List.length_cons, List.range'_succ, List.length_append, List.length_singleton]

theorem mem_zip_range'_iff {α : Type} {values : List α} {value : α} {place : Nat} :
    (value, place) ∈ values.zip (List.range' 0 values.length) ↔ values[place]? = some value := by
  rw [List.mem_iff_getElem?]
  constructor
  · rintro ⟨n, hn⟩
    rcases List.getElem?_zip_eq_some.1 hn with ⟨hvalue, hplace⟩
    rcases List.getElem?_eq_some_iff.1 hplace with ⟨_, hn⟩
    rw [List.getElem_range', Nat.zero_add, Nat.one_mul] at hn
    subst hn
    exact hvalue
  · intro hvalue
    rcases List.getElem?_eq_some_iff.1 hvalue with ⟨hlt, _⟩
    exact ⟨place, List.getElem?_zip_eq_some.2 ⟨hvalue, by simp [hlt]⟩⟩

theorem nodup_zip_range' {α : Type} (values : List α) :
    ((values.zip (List.range' 0 values.length)).map Prod.snd).Nodup := by
  rw [List.map_snd_zip (by simp)]
  exact List.nodup_range'

end Linking

/-- A graph that contents are linked into: every declaration's place holds its whole body, and every operation
its bodies, as a linker leaves them that knows all names. -/
structure Contents.LinkedInto (contents : Contents) (graph : Graph) : Prop where
  faithful : ∃ linker : Linker, linker.graph = graph ∧ linker.IsFaithful contents
  declared : ∀ place declaration, contents.declarations[place]? = some declaration → ∃ node,
    graph.node? place = some node ∧ ReadsDeclaration contents graph declaration node
  operations : List.Forall₂ (ReadsOperation contents graph) contents.operations graph.operations

end SchemaGuards.Draft

namespace SchemaGuards
open Draft

theorem Draft.linkedInto {draft : Draft} {graph : Graph} (h : draft.link = .ok graph) :
    draft.contents.LinkedInto graph := by
  obtain ⟨ids, placed, defined, later, hplaced, hdefined, hoperate, rfl⟩ := Draft.link_phases h
  rcases Linking.declareAll_placed _ (Linking.isPlaced_start draft.roots) hplaced with ⟨rfl, hall⟩
  have hfaithful : placed.IsFaithful draft.contents := hall.isFaithful
  rcases Linking.defineAll_faithful _ hfaithful (fun pair => Linking.mem_zip_range'_iff.1)
    (Linking.nodup_zip_range' _) hdefined with ⟨hcontinues, hdeclared⟩
  rcases Linking.linkOperations_faithful _ hcontinues.faithful hoperate with
    ⟨hlater, hkeeps, linked, hoperations, hreads⟩
  refine ⟨⟨_, rfl, hlater⟩, ?_, ?_⟩
  · intro place declaration hdeclaration
    rcases hdeclared _ (Linking.mem_zip_range'_iff.2 hdeclaration) with ⟨node, hnode, hreads⟩
    exact ⟨node, hkeeps.kept place (by simp) node hnode, hreads.keep hkeeps (by simp)⟩
  · rw [hcontinues.operations_eq, hall.operations_eq, List.nil_append] at hoperations
    rw [hoperations]
    exact hreads

/-- The graph of a draft reads as the draft: every declaration's place holds its whole body and every operation
its bodies, with each name replaced by the one thing that it stands for. Each built-in scalar has one place. -/
theorem Draft.link_faithful {draft : Draft} {graph : Graph} (h : draft.link = .ok graph) :
    graph.declarations = List.range draft.contents.declarations.length ∧
    (∀ place declaration, draft.contents.declarations[place]? = some declaration → ∃ node,
      graph.node? place = some node ∧ ReadsDeclaration draft.contents graph declaration node) ∧
    List.Forall₂ (ReadsOperation draft.contents graph) draft.contents.operations graph.operations ∧
    (∀ scope name target other, draft.contents.Names scope name target → draft.contents.Names scope name other →
      target = other) ∧
    ∀ id other content content', graph.Holds id (.scalar content) → graph.Holds other (.scalar content') →
      content.decl.name = content'.decl.name → id = other := by
  rcases Draft.linkedInto h with ⟨⟨linker, rfl, hfaithful⟩, hdeclared, hoperations⟩
  refine ⟨hfaithful.declarations_eq, hdeclared, hoperations, ?_, ?_⟩
  · exact fun scope name target other => Contents.Names.unique hfaithful.isDistinct
  · exact fun id other content content' => hfaithful.scalar_unique

namespace Sample

/-- A declaration that hides the one with its name in the namespace around it. -/
def innerDeclaration : Draft.Declaration :=
  ⟨"M", ["A", "B"], some "Hides A.M", .model (some "A.M")
    [{ name := "self", type := .named "M", optional := true },
     { name := "kind", type := .named "Kind.on", visibility := some { read := true } },
     { name := "counts", type := .indexed .array (.union [.named "TypeSpec.int32", .named "null"]) }]⟩

def hidingDraft : Draft where
  roots := []
  contents :=
    { declarations :=
        [⟨"Kind", ["A"], none, .enumeration [{ name := "on" }]⟩,
         ⟨"M", ["A"], none, .model none [{ name := "id", type := .named "N" }]⟩,
         innerDeclaration,
         ⟨"N", ["A"], none, .scalar (some "int32")⟩]
      operations :=
        [{ name := "find", scope := ["A"], path := "/m", verb := .get, request := some (.named "B.M"),
           responses := [⟨some 200, some (.tuple [.named "M", .literal (.boolean true)])⟩] }] }

def hidingGraph : Graph where
  nodes := #[.enumeration ⟨{ name := some "Kind", scope := ["A"] }, [{ name := "on" }]⟩,
             .model { decl := { name := some "M", scope := ["A"] }, properties := [{ name := "id", type := 3 }] },
             .model { decl := innerDeclaration.decl,
                      properties := [{ name := "self", type := 2, optional := true },
                                     { name := "kind", type := 4, visibility := some { read := true } },
                                     { name := "counts", type := 10 }],
                      base := some 1 },
             .scalar ⟨{ name := some "N", scope := ["A"] }, some 7⟩,
             .member 0 "on",
             .scalar ⟨{ name := some "numeric", scope := builtinScope }, none⟩,
             .scalar ⟨{ name := some "integer", scope := builtinScope }, some 5⟩,
             .scalar ⟨{ name := some "int32", scope := builtinScope }, some 6⟩,
             .primitive (.intrinsic .null),
             .union ⟨{}, [7, 8]⟩,
             .model (Model.ofElement .array 9),
             .primitive (.boolean true),
             .tuple [1, 11]]
  declarations := [0, 1, 2, 3]
  operations := [{ name := "find", scope := ["A"], path := "/m", verb := .get, request := some 2,
                   responses := [⟨some 200, some 12⟩] }]
  names := [("A.N", 3), ("A.B.M", 2), ("A.M", 1), ("A.Kind", 0)]

end Sample

/-- Inside its namespace the hiding declaration has the name for itself. -/
theorem Draft.link_faithful_hidingDraft :
    Sample.hidingDraft.link = .ok Sample.hidingGraph ∧
    (∃ node, Sample.hidingGraph.node? 2 = some node ∧
      ReadsDeclaration Sample.hidingDraft.contents Sample.hidingGraph Sample.innerDeclaration node) ∧
    Sample.hidingDraft.contents.Names ["A", "B"] "M" (.declaration 2) ∧
    ¬ Sample.hidingDraft.contents.Names ["A", "B"] "M" (.declaration 1) := by
  have hlink : Sample.hidingDraft.link = .ok Sample.hidingGraph := by decide +kernel
  rcases Draft.link_faithful hlink with ⟨_, hdeclarations, _, hunique, _⟩
  have hinner : Sample.hidingDraft.contents.Names ["A", "B"] "M" (.declaration 2) := by
    refine .declaration 2 (fun value => by cases value <;> decide) ⟨2, Nat.le_refl 2, ?_, ?_⟩
    · exact ⟨Sample.innerDeclaration, rfl, ⟨by decide, by decide⟩, rfl⟩
    · intro deeper hlt hle
      exact absurd hle (Nat.not_le_of_lt hlt)
  refine ⟨hlink, hdeclarations 2 _ rfl, hinner, fun houter => ?_⟩
  cases hunique _ _ _ _ hinner houter

end SchemaGuards

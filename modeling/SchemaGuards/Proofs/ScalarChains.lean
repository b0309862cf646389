import Mathlib.Logic.Function.Iterate
import SchemaGuards.Proofs.Expansion.Yields
import SchemaGuards.Proofs.Session

/-!
# Chains of scalars

A scalar that extends another one is written as that one is, and so on down the chain. The first scalar that decides by
itself how it is written ends the walk: a built-in calendar or byte scalar, or one that extends nothing. The type and
the guard of every scalar in front of it are those of the scalar that decides, over the same value.
-/
namespace SchemaGuards

/-- Whether a scalar has a form of its own, whatever it extends. -/
def Scalar.IsCalendarOrBytes (scalar : Scalar) : Prop :=
  scalar.decl.scope = builtinScope ∧ Terminal.isCalendarOrBytes scalar.shownName = true

theorem Scalar.deferredTo?_of_isCalendarOrBytes {scalar : Scalar} (h : scalar.IsCalendarOrBytes) :
    scalar.deferredTo? = none := by
  simp [deferredTo?, isBuiltin, h.1, h.2]

theorem Scalar.deferredTo?_of_not {scalar : Scalar} (h : ¬ scalar.IsCalendarOrBytes) :
    scalar.deferredTo? = scalar.base := by
  rw [deferredTo?]
  split
  · next hfixed =>
    rw [Bool.and_eq_true, isBuiltin, decide_eq_true_iff] at hfixed
    exact (h hfixed).elim
  · rfl

/-- A scalar of another namespace has no built-in type, whatever it is called. -/
theorem Scalar.terminal?_of_foreign {scalar : Scalar} (h : scalar.decl.scope ≠ builtinScope) (serializable : Bool) :
    scalar.terminal? serializable = none := by
  simp [terminal?, isBuiltin, h]

/-- Scalars with their places, each of which extends the next one, down to one that extends none. -/
inductive Graph.IsScalarChain (graph : Graph) : List (NodeId × Scalar) → Prop
  | last {id : NodeId} {scalar : Scalar} (hnode : graph.node? id = some (.scalar scalar)) (hbase : scalar.base = none) :
    IsScalarChain graph [(id, scalar)]
  | link {id : NodeId} {scalar : Scalar} {next : NodeId × Scalar} {rest : List (NodeId × Scalar)}
    (hnode : graph.node? id = some (.scalar scalar)) (hbase : scalar.base = some next.1)
    (hrest : IsScalarChain graph (next :: rest)) : IsScalarChain graph ((id, scalar) :: next :: rest)

/-- The scalar at a depth of a chain decides on all in front of it: it is the first calendar or byte scalar of the
chain, or without one the last scalar. -/
structure DecidesAt (chain : List (NodeId × Scalar)) (depth : Nat) (decider : Scalar) : Prop where
  at_depth : (chain.map Prod.snd)[depth]? = some decider
  first : ∀ link ∈ chain.take depth, ¬ link.2.IsCalendarOrBytes
  fixed_or_last : decider.IsCalendarOrBytes ∨ depth + 1 = chain.length

theorem DecidesAt.head {id : NodeId} {scalar : Scalar} {rest : List (NodeId × Scalar)}
    (h : scalar.IsCalendarOrBytes ∨ rest = []) : DecidesAt ((id, scalar) :: rest) 0 scalar where
  at_depth := rfl
  first := by simp
  fixed_or_last := h.imp_right (fun hrest => by simp [hrest])

theorem DecidesAt.tail {chain : List (NodeId × Scalar)} {depth : Nat} {decider : Scalar} (h : DecidesAt chain depth decider)
    {link : NodeId × Scalar} (hlink : ¬ link.2.IsCalendarOrBytes) : DecidesAt (link :: chain) (depth + 1) decider where
  at_depth := by simpa using h.at_depth
  first := by
    rw [List.take_succ_cons, List.forall_mem_cons]
    exact ⟨hlink, h.first⟩
  fixed_or_last := h.fixed_or_last.imp_right (fun hlength => by simp [hlength])

theorem DecidesAt.not_lt {chain : List (NodeId × Scalar)} {depth deeper : Nat} {decider other : Scalar}
    (h : DecidesAt chain depth decider) (hother : DecidesAt chain deeper other) : ¬ depth < deeper := by
  intro hlt
  obtain ⟨link, hlink, rfl⟩ : ∃ link, chain[depth]? = some link ∧ link.2 = decider := by
    simpa using h.at_depth
  have hbelow : deeper < chain.length := by
    simpa using (List.getElem?_eq_some_iff.1 hother.at_depth).1
  rcases h.fixed_or_last with hfixed | hlast
  · refine hother.first link (List.mem_of_getElem? (i := depth) ?_) hfixed
    rw [List.getElem?_take_of_lt hlt, hlink]
  · omega

/-- One scalar of a chain decides on it. -/
theorem DecidesAt.unique {chain : List (NodeId × Scalar)} {depth deeper : Nat} {decider other : Scalar}
    (h : DecidesAt chain depth decider) (hother : DecidesAt chain deeper other) :
    depth = deeper ∧ decider = other := by
  have hdepth : depth = deeper := Nat.le_antisymm (Nat.le_of_not_lt (hother.not_lt h)) (Nat.le_of_not_lt (h.not_lt hother))
  subst hdepth
  exact ⟨rfl, Option.some.inj (h.at_depth.symm.trans hother.at_depth)⟩

/-- What a scalar expands to on which no other one decides. -/
def Scalar.ownForm (serializable : Bool) (scalar : Scalar) : Expansion :=
  match scalar.terminal? serializable with
  | some type => .terminal type
  | none => .unresolved

def Scalar.ownReports (mode : Mode) (serializable : Bool) (scalar : Scalar) : Diagnostics :=
  if (scalar.terminal? serializable).isSome then []
  else [.report .warning "resolve-unresolved-scalar"
    ("could not resolve scalar '" ++ scalar.shownName ++ "' (" ++ mode.name ++ "), using a permissive fallback")]

namespace Workspace
variable {workspace : Workspace} {mode : Mode} {locked : Bool} {ancestry : List NodeId}

theorem expand_own {id : NodeId} {scalar : Scalar} (hnode : workspace.graph.node? id = some (.scalar scalar))
    (hreference : workspace.reference? locked id (.scalar scalar) = none) (hcycle : id ∉ ancestry)
    (hmapping : workspace.mapping? mode scalar = none) (hdeferred : scalar.deferredTo? = none) :
    workspace.expand mode locked ancestry id =
      ⟨scalar.ownReports mode workspace.config.serializableDates,
        .ok (scalar.ownForm workspace.config.serializableDates)⟩ := by
  rw [expand_node workspace mode hnode hreference hcycle, expandNode, expandScalar, Scalar.ownReports, Scalar.ownForm]
  simp only [hmapping, hdeferred]
  cases scalar.terminal? workspace.config.serializableDates with
  | some type => rfl
  | none => rfl

theorem expandScalar_deferred {scalar : Scalar} {base : NodeId} (hmapping : workspace.mapping? mode scalar = none)
    (hdeferred : scalar.deferredTo? = some base) {child : NodeId → Traced Expansion} {log : Diagnostics}
    {expansion : Expansion} (hchild : child base = ⟨log, .ok expansion⟩) :
    workspace.expandScalar mode scalar child = ⟨log, .ok (.derived expansion)⟩ := by
  rw [expandScalar]
  simp only [hmapping, hdeferred, hchild, map_eq_pure_bind]
  rw [Traced.bind_ok rfl]
  simp

/-- The walk down a chain ends at the scalar that decides, with what this one is and reports by itself. -/
theorem expand_chain {first : NodeId × Scalar} {rest : List (NodeId × Scalar)}
    (hchain : workspace.graph.IsScalarChain (first :: rest)) (hdistinct : ((first :: rest).map Prod.fst).Nodup)
    (hunmapped : ∀ link ∈ first :: rest, ∀ mode, workspace.mapping? mode link.2 = none)
    (hfirst : locked = true → workspace.registered? (.scalar first.2) = none)
    (hrest : ∀ link ∈ rest, workspace.registered? (.scalar link.2) = none)
    (houtside : ∀ link ∈ first :: rest, link.1 ∉ ancestry) :
    ∃ depth decider, DecidesAt (first :: rest) depth decider ∧
      ∀ mode, workspace.expand mode locked ancestry first.1 =
        ⟨decider.ownReports mode workspace.config.serializableDates,
          .ok (Expansion.derived^[depth] (decider.ownForm workspace.config.serializableDates))⟩ := by
  induction rest generalizing first locked ancestry with
  | nil =>
    cases hchain with
    | @last id scalar hnode hbase =>
      have hreference : workspace.reference? locked id (.scalar scalar) = none := reference?_of_isExpanded ⟨hnode, hfirst⟩
      have hdeferred : scalar.deferredTo? = none := by
        rw [Scalar.deferredTo?, hbase, ite_self]
      refine ⟨0, scalar, .head (.inr rfl), fun mode => ?_⟩
      exact expand_own hnode hreference (houtside _ List.mem_cons_self) (hunmapped _ List.mem_cons_self mode) hdeferred
  | cons next others ih =>
    cases hchain with
    | @link id scalar _ _ hnode hbase hlinks =>
      have hreference : workspace.reference? locked id (.scalar scalar) = none := reference?_of_isExpanded ⟨hnode, hfirst⟩
      have hmapping := hunmapped _ List.mem_cons_self
      by_cases hfixed : scalar.IsCalendarOrBytes
      · refine ⟨0, scalar, .head (.inl hfixed), fun mode => ?_⟩
        exact expand_own hnode hreference (houtside _ List.mem_cons_self) (hmapping mode)
          (Scalar.deferredTo?_of_isCalendarOrBytes hfixed)
      · rw [List.map_cons, List.nodup_cons] at hdistinct
        -- the scalar itself is around the rest of the chain, which does not meet it again
        have hinside : ∀ link ∈ next :: others, link.1 ∉ id :: ancestry := by
          intro link hlink hmem
          rcases List.mem_cons.1 hmem with heq | hancestor
          · exact hdistinct.1 (List.mem_map.2 ⟨link, hlink, heq⟩)
          · exact houtside link (List.mem_cons_of_mem _ hlink) hancestor
        obtain ⟨depth, decider, hdecides, hexpand⟩ := @ih true (id :: ancestry) next hlinks hdistinct.2
          (fun link hlink => hunmapped link (List.mem_cons_of_mem _ hlink)) (fun _ => hrest next List.mem_cons_self)
          (fun link hlink => hrest link (List.mem_cons_of_mem _ hlink)) hinside
        refine ⟨depth + 1, decider, hdecides.tail hfixed, fun mode => ?_⟩
        rw [expand_node workspace mode hnode hreference (houtside _ List.mem_cons_self), expandNode,
          Function.iterate_succ_apply']
        exact expandScalar_deferred (hmapping mode) ((Scalar.deferredTo?_of_not hfixed).trans hbase) (hexpand mode)

theorem typeOf_derived (context : Context) (depth : Nat) {expansion : Expansion} {type : TypeExpr}
    (h : ∀ inModel, TypeExpr.ofExpansion (workspace.typeStyle context) inModel expansion = type) :
    workspace.typeOf context (Expansion.derived^[depth] expansion) = type := by
  have hderived : ∀ inModel, TypeExpr.ofExpansion (workspace.typeStyle context) inModel
      (Expansion.derived^[depth] expansion) = type := by
    induction depth with
    | zero => exact h
    | succ depth ih =>
      intro inModel
      rw [Function.iterate_succ_apply', TypeExpr.ofExpansion]
      exact ih false
  exact hderived _

theorem guardOf_derived (context : Context) (depth : Nat) (expansion : Expansion) :
    guardOf context (Expansion.derived^[depth] expansion) = guardOf context expansion := by
  induction depth with
  | zero => rfl
  | succ depth ih =>
    rw [Function.iterate_succ_apply', ← ih, guardOf, Guard.ofExpansion]
    rfl

end Workspace

namespace Session
open Workspace

/-- A chain of scalars that is walked through is written as the scalar that decides on it, in a session with any
history. A built-in type is written as its name and tested on the value of the context, with the same choice between
objects and their transported form. Otherwise everything is accepted, with one warning for the type and one for the
guard. A scalar of another namespace than the built-in one decides only as the last one, and then nothing is known. -/
theorem resolve_scalarChain (workspace : Workspace) (history : List Request) (context : Context)
    {first : NodeId × Scalar} {rest : List (NodeId × Scalar)}
    (hchain : workspace.graph.IsScalarChain (first :: rest)) (hdistinct : ((first :: rest).map Prod.fst).Nodup)
    (hunmapped : ∀ link ∈ first :: rest, ∀ mode, workspace.mapping? mode link.2 = none)
    (hfirst : context.locked = true → workspace.registered? (.scalar first.2) = none)
    (hrest : ∀ link ∈ rest, workspace.registered? (.scalar link.2) = none)
    (houtside : ∀ link ∈ first :: rest, link.1 ∉ context.ancestry) :
    let session := Session.after { workspace } history
    ∃ depth decider typed guarded, DecidesAt (first :: rest) depth decider ∧
      (session.resolve .type first.1 context).1 = .ok typed ∧
      (session.resolve .guard first.1 context).1 = .ok guarded ∧
      (decider.decl.scope ≠ builtinScope →
        depth = rest.length ∧ decider.terminal? workspace.config.serializableDates = none) ∧
      match decider.terminal? workspace.config.serializableDates with
      | some type =>
        typed.text = Layout.text type.typeName ∧
          guarded.text = Layout.text (Guard.typeTest (.named context.accessor) type) ∧
          ∀ mode, (session.resolve mode first.1 context).2.diagnostics = session.diagnostics
      | none =>
        typed.text = Layout.text "unknown" ∧ guarded.text = Layout.text "true" ∧
          ∀ mode, (session.resolve mode first.1 context).2.diagnostics = session.diagnostics ++
            [.report .warning "resolve-unresolved-scalar" ("could not resolve scalar '" ++ decider.shownName ++
              "' (" ++ mode.name ++ "), using a permissive fallback")] := by
  intro session
  obtain ⟨depth, decider, hdecides, hexpand⟩ := expand_chain hchain hdistinct hunmapped hfirst hrest houtside
  obtain ⟨hsound, hworkspace⟩ := after_sound (sound_fresh workspace) history
  have hspec := fun mode => resolve_spec hsound mode first.1 context
  have hresolve : ∀ mode, workspace.resolve mode first.1 context =
      ⟨decider.ownReports mode workspace.config.serializableDates, .ok (workspace.write mode first.1 context
        (Expansion.derived^[depth] (decider.ownForm workspace.config.serializableDates)))⟩ := by
    intro mode
    rw [Workspace.resolve, hexpand mode, Traced.bind_ok rfl]
    simp
  have houtcome : ∀ mode, (session.resolve mode first.1 context).1 = .ok (workspace.write mode first.1 context
      (Expansion.derived^[depth] (decider.ownForm workspace.config.serializableDates))) := by
    intro mode
    rw [(hspec mode).1, hworkspace, hresolve]
  have hdiagnostics : ∀ mode, (session.resolve mode first.1 context).2.diagnostics =
      session.diagnostics ++ decider.ownReports mode workspace.config.serializableDates := by
    intro mode
    rw [(hspec mode).2.diagnostics_eq, hworkspace, hresolve]
  refine ⟨depth, decider, _, _, hdecides, houtcome .type, houtcome .guard, fun hforeign => ?_, ?_⟩
  · refine ⟨?_, Scalar.terminal?_of_foreign hforeign _⟩
    rcases hdecides.fixed_or_last with hfixed | hlast
    · exact (hforeign hfixed.1).elim
    · simpa using hlast
  · simp only [Scalar.ownReports, Scalar.ownForm] at hdiagnostics ⊢
    cases hterminal : decider.terminal? workspace.config.serializableDates with
    | some type =>
      simp only [hterminal] at hdiagnostics ⊢
      refine ⟨?_, ?_, fun mode => by simpa using hdiagnostics mode⟩
      · rw [write, typeOf_derived context depth (fun _ => rfl)]
        rfl
      · rw [write, guardOf_derived]
        rfl
    | none =>
      simp only [hterminal] at hdiagnostics ⊢
      refine ⟨?_, ?_, fun mode => by simpa using hdiagnostics mode⟩
      · rw [write, typeOf_derived context depth (fun _ => rfl)]
        rfl
      · rw [write, guardOf_derived]
        rfl

/-- Scalars that extend the built-in date. One of them has its name, and the date extends a further scalar. -/
def dateChain : List (NodeId × Scalar) :=
  [(0, ⟨⟨some "Stamp", ["X"], none⟩, some 1⟩), (1, ⟨⟨some "utcDateTime", ["X"], none⟩, some 2⟩),
    (2, ⟨⟨some "utcDateTime", builtinScope, none⟩, some 3⟩), (3, ⟨⟨some "string", builtinScope, none⟩, none⟩)]

theorem decidesAt_dateChain : DecidesAt dateChain 2 ⟨⟨some "utcDateTime", builtinScope, none⟩, some 3⟩ where
  at_depth := rfl
  first := by simp [dateChain, Scalar.IsCalendarOrBytes, builtinScope]
  fixed_or_last := .inl ⟨rfl, by decide⟩

/-- The built-in date decides on the chain, not the scalar that shares its name. -/
theorem resolve_scalarChain_dateChain :
    let graph : Graph := { nodes := #[.scalar ⟨⟨some "Stamp", ["X"], none⟩, some 1⟩,
      .scalar ⟨⟨some "utcDateTime", ["X"], none⟩, some 2⟩, .scalar ⟨⟨some "utcDateTime", builtinScope, none⟩, some 3⟩,
      .scalar ⟨⟨some "string", builtinScope, none⟩, none⟩] }
    let session := Session.after { workspace := ⟨graph, [⟨⟨.scalar, "Stamp", ["X"]⟩, 0⟩], {}⟩ } [.isGeneric 2]
    let context := (Context.ofScope ["X"]).withAccessor "value"
    ∃ typed guarded, (session.resolve .type 0 context).1 = .ok typed ∧
      (session.resolve .guard 0 context).1 = .ok guarded ∧ typed.text = Layout.text "Date" ∧
      guarded.text = Layout.text "value instanceof Date" := by
  intro graph session context
  have hchain : graph.IsScalarChain dateChain :=
    .link (by decide) (by decide) (.link (by decide) (by decide) (.link (by decide) (by decide)
      (.last (by decide) (by decide))))
  obtain ⟨depth, decider, typed, guarded, hdecides, htyped, hguarded, -, htext⟩ :=
    resolve_scalarChain ⟨graph, [⟨⟨.scalar, "Stamp", ["X"]⟩, 0⟩], {}⟩ [.isGeneric 2] context hchain (by decide)
      (fun _ _ mode => by cases mode <;> rfl) (by decide) (by decide) (by decide)
  have hdecider : decider = ⟨⟨some "utcDateTime", builtinScope, none⟩, some 3⟩ := (hdecides.unique decidesAt_dateChain).2
  rw [hdecider] at htext
  exact ⟨typed, guarded, htyped, hguarded, htext.1, htext.2.1⟩

end Session
end SchemaGuards

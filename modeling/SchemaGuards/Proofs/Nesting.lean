import SchemaGuards.Proofs.Session

/-!
# How deep the calls of a resolution nest

A call of the expansion makes others only where it enters a node of the graph for the first time. So no more
calls stand inside one another than one for every node that has not been entered before, and one call more,
which enters nothing: with so many calls allowed, a resolution is never interrupted.
-/
namespace SchemaGuards

namespace Steps

/-- Expands a node with at most the given number of calls inside one another, and has no result where one more
is to be made. -/
def expandWithin (workspace : Workspace) (mode : Mode) :
    Nat → Bool → List NodeId → NodeId → OptionT Steps Expansion
  | 0, _, _, _ => failure
  | limit + 1, locked, ancestry, id =>
    workspace.expandCall mode locked ancestry id (liftM (isGeneric id))
      (fun part => expandWithin workspace mode limit true (id :: ancestry) part)

/-- Resolves a node as a session does, with at most the given number of calls inside one another. -/
def resolveWithin (workspace : Workspace) (limit : Nat) (mode : Mode) (id : NodeId) (context : Context) :
    OptionT Steps Resolution :=
  workspace.resolveCall mode id context (expandWithin workspace mode limit context.locked context.ancestry id)
    (liftM (isGeneric id))

/-- An uninterrupted run corresponds to the same steps without a limit. -/
def uninterrupted : Correspondence (OptionT Steps) Steps where
  Holds limited step := limited.run = some <$> step
  holds_pure value := by simp
  holds_bind := by
    intro α β limited step next nextStep h hnext
    simp only [OptionT.run_bind, h, Option.elimM, map_eq_pure_bind, bind_assoc, pure_bind, Option.elim_some, hnext]
  holds_lift traced _ := rfl

theorem isGeneric_uninterrupted (id : NodeId) : uninterrupted.Holds (liftM (isGeneric id)) (isGeneric id) := rfl

variable (workspace : Workspace) (mode : Mode)

/-- Every call that makes others leaves fewer nodes to enter, so it may be one less that stand inside it. -/
theorem expandWithin_uninterrupted (limit : Nat) (locked : Bool) (ancestry : List NodeId) (id : NodeId)
    (hlimit : (workspace.graph.unvisited ancestry).length < limit) :
    uninterrupted.Holds (expandWithin workspace mode limit locked ancestry id)
      (expand workspace mode locked ancestry id) := by
  induction limit generalizing locked ancestry id with
  | zero => exact absurd hlimit (Nat.not_lt_zero _)
  | succ limit ih =>
    rw [expandWithin, expand_eq_call]
    refine uninterrupted.holds_expandCall (isGeneric_uninterrupted id) (fun hid hnew part => ?_)
    have hfewer := Graph.length_unvisited_cons hid hnew
    exact ih true (id :: ancestry) part (Nat.lt_of_lt_of_le hfewer (Nat.le_of_lt_succ hlimit))

theorem resolveWithin_uninterrupted (limit : Nat) (id : NodeId) (context : Context)
    (hlimit : (workspace.graph.unvisited context.ancestry).length < limit) :
    uninterrupted.Holds (resolveWithin workspace limit mode id context) (resolve workspace mode id context) := by
  rw [resolveWithin, resolve_eq_call]
  exact uninterrupted.holds_resolveCall (isGeneric_uninterrupted id)
    (expandWithin_uninterrupted workspace mode limit _ _ id hlimit)

end Steps

namespace Session

/-- Resolves a node with at most the given number of calls inside one another; without a resolution when there
would be more. -/
def resolveWithin (limit : Nat) (session : Session) (mode : Mode) (id : NodeId) (context : Context) :
    Except GenerationError (Option Resolution) × Session :=
  (Steps.resolveWithin session.workspace limit mode id context).run.run.run session

/-- No chain of calls is longer than one and the number of nodes outside of the ancestry: with so many calls allowed
inside one another, a resolution of any node of any graph, in any context and session, runs as without a limit. -/
theorem resolveWithin_unvisited (session : Session) (mode : Mode) (id : NodeId) (context : Context) :
    session.resolveWithin (1 + (session.workspace.graph.unvisited context.ancestry).length) mode id context =
      ((session.resolve mode id context).1.map some, (session.resolve mode id context).2) := by
  have hrun : (Steps.resolveWithin session.workspace _ mode id context).run =
      some <$> Steps.resolve session.workspace mode id context :=
    Steps.resolveWithin_uninterrupted session.workspace mode _ id context (Nat.lt_add_of_pos_left Nat.one_pos)
  rw [resolveWithin, hrun, ExceptT.run_map, StateT.run_map]
  rfl

/-- A pair whose parts do not exist takes two calls inside one another. With one it is interrupted. -/
example :
    let session : Session := { workspace := ⟨{ nodes := #[.tuple [1, 2]] }, [], {}⟩ }
    (session.resolveWithin 1 .type 0 .detached).1.toOption.any Option.isNone = true ∧
      (session.resolveWithin 2 .type 0 .detached).1.isOk = false := by
  decide +kernel

end Session
end SchemaGuards

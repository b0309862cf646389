import SchemaGuards.Proofs.Expansion.Correspondence
import SchemaGuards.Proofs.Expansion.Yields
import SchemaGuards.Resolution

/-!
# Single calls of the expansion

A call answers for its node itself, or it leaves the answer to the calls for the nodes that are mentioned. It
only makes such calls from a place that it is the first to enter, so what a call has as soon as the calls that it
makes have it, every call has. Whoever expands nodes by such calls expands them alike.
-/
namespace SchemaGuards

/-- Induction over calls that descend: every step down adds a place of the graph to the ancestry. -/
theorem Graph.descent (graph : Graph) {motive : List NodeId → NodeId → Prop}
    (call : ∀ ancestry id, (id < graph.size → id ∉ ancestry → ∀ part, motive (id :: ancestry) part) →
      motive ancestry id)
    (ancestry : List NodeId) (id : NodeId) : motive ancestry id := by
  induction hlength : (graph.unvisited ancestry).length using Nat.strongRecOn generalizing ancestry id with
  | ind length ih =>
    refine call ancestry id (fun hid hnew part => ?_)
    exact ih _ (hlength ▸ Graph.length_unvisited_cons hid hnew) (id :: ancestry) part rfl

namespace Workspace
variable {m : Type → Type} [Monad m] [MonadLiftT Traced m]

/-- A single call of the expansion, given how it learns whether a restriction can be reached and how the calls
below it are made. -/
def expandCall (workspace : Workspace) (mode : Mode) (locked : Bool) (ancestry : List NodeId) (id : NodeId)
    (isGeneric : m Bool) (child : NodeId → m Expansion) : m Expansion :=
  match workspace.graph.node? id with
  | none => liftM (refuseDangling id)
  | some (.unsupported kind) => liftM (refuseKind kind)
  | some node => do
    let generic ← isGeneric
    match if locked then workspace.registered? node else none with
    | some entry => pure (.reference entry generic)
    | none =>
      if id ∈ ancestry then liftM (refuseCycle id node)
      else workspace.expandNode mode node child

variable {workspace : Workspace} {mode : Mode} {locked : Bool} {ancestry : List NodeId} {id : NodeId} {node : Node}

/-- A call for a node of a supported kind asks for restrictions before all else. -/
theorem expandCall_supported {isGeneric : m Bool} {child : NodeId → m Expansion}
    (hnode : workspace.graph.node? id = some node) (hkind : ∀ kind, node ≠ .unsupported kind) :
    workspace.expandCall mode locked ancestry id isGeneric child = isGeneric >>= fun generic =>
      match if locked then workspace.registered? node else none with
      | some entry => pure (.reference entry generic)
      | none =>
        if id ∈ ancestry then liftM (refuseCycle id node)
        else workspace.expandNode mode node child := by
  rw [expandCall, hnode]
  cases node with
  | unsupported kind => exact absurd rfl (hkind kind)
  | _ => rfl

theorem unreferred (h : workspace.reference? locked id node = none) :
    (if locked then workspace.registered? node else none) = none := by
  cases locked with
  | false => rfl
  | true => exact reference?_none h rfl

/-- A workspace expands by such calls, with the answers of a search. -/
theorem expand_eq_call (workspace : Workspace) (mode : Mode) (locked : Bool) (ancestry : List NodeId)
    (id : NodeId) :
    workspace.expand mode locked ancestry id =
      workspace.expandCall mode locked ancestry id (pure (workspace.graph.reachesRestriction id))
        (fun part => workspace.expand mode true (id :: ancestry) part) := by
  cases hnode : workspace.graph.node? id with
  | none =>
    rw [expand_missing workspace mode hnode, expandCall, hnode]
    rfl
  | some node =>
    by_cases hkind : ∃ kind, node = .unsupported kind
    · obtain ⟨kind, rfl⟩ := hkind
      have hreference : workspace.reference? locked id (.unsupported kind) = none := by cases locked <;> rfl
      -- Such a node is refused for its kind, inside its own expansion as well.
      rw [expandCall, hnode]
      by_cases hcycle : id ∈ ancestry
      · rw [expand_cycle workspace mode hnode hreference hcycle]
        rfl
      · rw [expand_node workspace mode hnode hreference hcycle]
        rfl
    · rw [expandCall_supported hnode (by simpa using hkind), pure_bind]
      cases hreference : workspace.reference? locked id node with
      | some reference =>
        rcases reference?_some hreference with ⟨rfl, entry, hentry, rfl⟩
        rw [expand_reference workspace mode hnode hreference]
        simp only [if_true, hentry]
      | none =>
        simp only [unreferred hreference]
        split
        · next hcycle => exact expand_cycle workspace mode hnode hreference hcycle
        · next hcycle => exact expand_node workspace mode hnode hreference hcycle

/-- A resolution, given how its node is expanded and how it learns whether a restriction can be reached. -/
def resolveCall (workspace : Workspace) (mode : Mode) (id : NodeId) (context : Context) (expansion : m Expansion)
    (isGeneric : m Bool) : m Resolution := do
  let expansion ← expansion
  let generic ← isGeneric
  pure { workspace.write mode id context expansion with isGeneric := generic }

/-- What a node is written as says already what a search finds. -/
theorem write_isGeneric (workspace : Workspace) (mode : Mode) (id : NodeId) (context : Context)
    (expansion : Expansion) :
    { workspace.write mode id context expansion with isGeneric := workspace.graph.reachesRestriction id } =
      workspace.write mode id context expansion := by
  cases mode <;> rfl

theorem resolve_eq_call (workspace : Workspace) (mode : Mode) (id : NodeId) (context : Context) :
    workspace.resolve mode id context =
      workspace.resolveCall mode id context (workspace.expand mode context.locked context.ancestry id)
        (pure (workspace.graph.reachesRestriction id)) := by
  simp only [resolve, resolveCall, pure_bind, write_isGeneric]

end Workspace

namespace Correspondence
variable {m n : Type → Type} [Monad m] [Monad n] [MonadLiftT Traced m] [MonadLiftT Traced n]
  (correspondence : Correspondence m n) {workspace : Workspace} {mode : Mode} {id : NodeId}
  {isGeneric : m Bool} {isGenericOther : n Bool} (hgeneric : correspondence.Holds isGeneric isGenericOther)
include hgeneric

/-- Calls of the expansion correspond when the calls below them do. -/
theorem holds_expandCall [LawfulMonad m] [LawfulMonad n] {locked : Bool} {ancestry : List NodeId}
    {child : NodeId → m Expansion} {childOther : NodeId → n Expansion}
    (h : id < workspace.graph.size → id ∉ ancestry → ∀ part, correspondence.Holds (child part) (childOther part)) :
    correspondence.Holds (workspace.expandCall mode locked ancestry id isGeneric child)
      (workspace.expandCall mode locked ancestry id isGenericOther childOther) := by
  unfold Workspace.expandCall
  split
  · exact correspondence.holds_lift _ (Workspace.refuseDangling_reports id)
  · exact correspondence.holds_lift _ (Workspace.refuseKind_reports _)
  · next node _ hnode =>
    refine correspondence.holds_bind hgeneric (fun generic => ?_)
    split
    · exact correspondence.holds_pure _
    · split
      · exact correspondence.holds_lift _ (Workspace.refuseCycle_reports id node)
      · next hcycle => exact correspondence.holds_expandNode (h (Graph.lt_size_of_node? hnode) hcycle) node

theorem holds_resolveCall {context : Context} {expansion : m Expansion} {expansionOther : n Expansion}
    (h : correspondence.Holds expansion expansionOther) :
    correspondence.Holds (workspace.resolveCall mode id context expansion isGeneric)
      (workspace.resolveCall mode id context expansionOther isGenericOther) :=
  correspondence.holds_bind h (fun _ => correspondence.holds_bind hgeneric (fun _ => correspondence.holds_pure _))

end Correspondence
end SchemaGuards

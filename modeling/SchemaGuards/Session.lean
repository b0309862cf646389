import SchemaGuards.Generator

/-!
# Sessions

A session resolves nodes one after the other over one workspace and collects their diagnostics. It
remembers of every node that it has come across whether a restriction can be reached from it, so that
nothing is searched for twice. What it answers does not depend on what it has answered before. All files
of a run may be emitted in one session.
-/
namespace SchemaGuards

structure Session where
  workspace : Workspace
  diagnostics : Diagnostics := []
  /-- The nodes of which it is known whether a restriction can be reached from them. -/
  known : List (NodeId × Bool) := []

/-- Steps of a session. A step that fails leaves behind what it has reported and found out. -/
abbrev Steps := ExceptT GenerationError (StateM Session)

namespace Session

def run {α : Type} (session : Session) (step : Workspace → Traced α) :
    Except GenerationError α × Session :=
  let traced := step session.workspace
  (traced.outcome, { session with diagnostics := session.diagnostics ++ traced.log })

/-- Whether a restriction can be reached from a node. The answer is looked up or searched for and kept. -/
def isGeneric (session : Session) (id : NodeId) : Bool × Session :=
  match session.known.lookup id with
  | some generic => (generic, session)
  | none =>
    let generic := session.workspace.graph.reachesRestriction id
    (generic, { session with known := (id, generic) :: session.known })

def report (session : Session) (diagnostic : Diagnostic) : Session :=
  { session with diagnostics := session.diagnostics ++ [diagnostic] }

def takeDiagnostics (session : Session) : Diagnostics × Session :=
  (session.diagnostics, { session with diagnostics := [] })

end Session

namespace Steps

instance : MonadLift Traced Steps where
  monadLift step := ExceptT.mk (fun session => session.run (fun _ => step))

def isGeneric (id : NodeId) : Steps Bool :=
  ExceptT.mk (fun session =>
    let (generic, session) := session.isGeneric id
    (.ok generic, session))

/-- Expands a node as its workspace does, with the answers that the session remembers. -/
def expand (workspace : Workspace) (mode : Mode) (locked : Bool) (ancestry : List NodeId) (id : NodeId) :
    Steps Expansion :=
  match hnode : workspace.graph.node? id with
  | none => liftM (Workspace.refuseDangling id)
  | some (.unsupported kind) => liftM (Workspace.refuseKind kind)
  | some node => do
    let generic ← isGeneric id
    match if locked then workspace.registered? node else none with
    | some entry => pure (.reference entry generic)
    | none =>
      if hcycle : id ∈ ancestry then liftM (Workspace.refuseCycle id node)
      else
        have := Graph.length_unvisited_cons (Graph.lt_size_of_node? hnode) hcycle
        workspace.expandNode mode node (fun child => expand workspace mode true (id :: ancestry) child)
termination_by (workspace.graph.unvisited ancestry).length

def resolve (workspace : Workspace) (mode : Mode) (id : NodeId) (context : Context) : Steps Resolution := do
  let expansion ← expand workspace mode context.locked context.ancestry id
  let generic ← isGeneric id
  pure { workspace.write mode id context expansion with isGeneric := generic }

end Steps

namespace Session
open Emission

def resolve (session : Session) (mode : Mode) (id : NodeId) (context : Context) :
    Except GenerationError Resolution × Session :=
  (Steps.resolve session.workspace mode id context).run.run session

def namespaceFile (session : Session) (scope : Scope) : Except GenerationError NamespaceFile × Session :=
  (session.workspace.namespaceFileBy (Steps.resolve session.workspace) scope).run.run session

def routeFile (session : Session) (root : String) : Except GenerationError RouteFile × Session :=
  (session.workspace.routeFileBy (Steps.resolve session.workspace) root).run.run session

def files (session : Session) : Except GenerationError (List File) × Session :=
  (session.workspace.filesBy (Steps.resolve session.workspace)).run.run session

end Session

end SchemaGuards

import SchemaGuards.Proofs.Emission
import SchemaGuards.Proofs.Session

/-!
# Sessions without a history

Whatever a session has done before, it goes on as a fresh one would: with the same results, and with the
same diagnostics behind the earlier ones. So the files of a run depend neither on one another nor on the
order in which they are emitted.
-/
namespace SchemaGuards
open Emission

namespace Steps
variable (workspace : Workspace)

theorem follows_namespaceFile (scope : Scope) :
    Follows workspace (workspace.namespaceFileBy (resolve workspace) scope) (workspace.namespaceFile scope) :=
  (following workspace).holds_namespaceFile follows_resolve scope

theorem follows_routeFile (root : String) :
    Follows workspace (workspace.routeFileBy (resolve workspace) root) (workspace.routeFile root) :=
  (following workspace).holds_routeFile follows_resolve root

theorem follows_files : Follows workspace (workspace.filesBy (resolve workspace)) workspace.files :=
  (following workspace).holds_files follows_resolve

end Steps

namespace Session

inductive Task where
  | serve (request : Request)
  | namespaceFile (scope : Scope)
  | routeFile (root : String)

def perform (session : Session) : Task → Session
  | .serve request => session.serve request
  | .namespaceFile scope => (session.namespaceFile scope).2
  | .routeFile root => (session.routeFile root).2

def behind (session : Session) (history : List Task) : Session := history.foldl perform session

/-- Two sessions do the same: they have the same result, and each has appended the same diagnostics. -/
def Agrees {α : Type} (session other : Session) (step : Session → Except GenerationError α × Session) : Prop :=
  (step session).1 = (step other).1 ∧
    ∃ log, (step session).2.diagnostics = session.diagnostics ++ log ∧
      (step other).2.diagnostics = other.diagnostics ++ log

variable {session other : Session}

theorem perform_sound (h : session.IsSound) (task : Task) :
    (session.perform task).IsSound ∧ (session.perform task).workspace = session.workspace := by
  cases task with
  | serve request => exact serve_sound h request
  | namespaceFile scope =>
    have hspec := ((Steps.follows_namespaceFile session.workspace scope).spec h).2
    exact ⟨hspec.sound, hspec.workspace_eq⟩
  | routeFile root =>
    have hspec := ((Steps.follows_routeFile session.workspace root).spec h).2
    exact ⟨hspec.sound, hspec.workspace_eq⟩

theorem behind_sound (h : session.IsSound) (history : List Task) :
    (session.behind history).IsSound ∧ (session.behind history).workspace = session.workspace := by
  induction history generalizing session with
  | nil => exact ⟨h, rfl⟩
  | cons task rest ih =>
    have hperform := perform_sound h task
    have hrest := ih hperform.1
    exact ⟨hrest.1, hrest.2.trans hperform.2⟩

/-- Sound sessions over one workspace do the same wherever both follow one computation. -/
theorem agrees_of_follows {α : Type} {step : Workspace → Steps α} {traced : Workspace → Traced α}
    (h : ∀ workspace, Steps.Follows workspace (step workspace) (traced workspace)) (hsession : session.IsSound)
    (hother : other.IsSound) (hworkspace : session.workspace = other.workspace) :
    session.Agrees other (fun session => (step session.workspace).run.run session) := by
  have hspec := (h session.workspace).spec hsession
  have hspecOther := (h other.workspace).spec hother
  rw [← hworkspace] at hspecOther
  dsimp only [Agrees]
  rw [← hworkspace]
  exact ⟨hspec.1.trans hspecOther.1.symm, _, hspec.2.diagnostics_eq, hspecOther.2.diagnostics_eq⟩

/-- After any history of requests and files, failed ones among them, a session resolves every node and emits
every file, with its content and its need of the lifecycle helpers, as a fresh session does. A fresh session
emits the files of a run. -/
theorem agrees_with_fresh_after_history (workspace : Workspace) (history : List Task) :
    let fresh : Session := { workspace }
    let used := fresh.behind history
    (∀ mode id context, used.Agrees fresh (fun session => session.resolve mode id context)) ∧
      (∀ scope, used.Agrees fresh (fun session => session.namespaceFile scope)) ∧
      (∀ root, used.Agrees fresh (fun session => session.routeFile root)) ∧
      used.Agrees fresh files ∧
      fresh.files.1 = workspace.files.outcome ∧ fresh.files.2.diagnostics = workspace.files.log := by
  intro fresh used
  have hfresh : fresh.IsSound := sound_fresh workspace
  obtain ⟨hused, hworkspace⟩ := behind_sound hfresh history
  refine ⟨fun mode id context => ?_, fun scope => ?_, fun root => ?_, ?_, ?_⟩
  · exact agrees_of_follows (fun _ => Steps.follows_resolve mode id context) hused hfresh hworkspace
  · exact agrees_of_follows (fun workspace => Steps.follows_namespaceFile workspace scope) hused hfresh hworkspace
  · exact agrees_of_follows (fun workspace => Steps.follows_routeFile workspace root) hused hfresh hworkspace
  · exact agrees_of_follows Steps.follows_files hused hfresh hworkspace
  · have hspec := (Steps.follows_files workspace).spec hfresh
    exact ⟨hspec.1, hspec.2.diagnostics_eq⟩

end Session
end SchemaGuards

import SchemaGuards.Proofs.Generation
import SchemaGuards.Proofs.History

/-!
# Errors and diagnostics match

Whatever a session remembers and has reported, resolving a node only appends to its diagnostics: warnings
when the node is resolved, and when it is not, warnings and last the one error that the resolution fails
with. So a run that succeeds has no error among its diagnostics.
-/
namespace SchemaGuards

namespace Steps
variable {α β : Type} {workspace : Workspace}

/-- A step appends, in every session, the diagnostics that belong to its result. -/
def Reports (step : Steps α) : Prop :=
  ∀ session : Session, ∃ log, (step.run.run session).2.diagnostics = session.diagnostics ++ log ∧
    Reported (step.run.run session).1 log

theorem reports_pure (value : α) : Reports (pure value) :=
  fun _ => ⟨[], (List.append_nil _).symm, Traced.reports_pure value⟩

/-- The diagnostics of two steps are appended one after the other. A first step that fails is the last one. -/
theorem reports_bind {step : Steps α} {next : α → Steps β} (h : Reports step)
    (hnext : ∀ value, Reports (next value)) : Reports (step >>= next) := by
  intro session
  obtain ⟨log, hlog, hreported⟩ := h session
  rw [ExceptT.run_bind, StateT.run_bind]
  rcases hrun : step.run.run session with ⟨result, middle⟩
  rw [hrun] at hlog hreported
  cases result with
  | error error =>
    -- The second step is not run, so it reports nothing behind the error.
    cases hreported with
    | error _ warnings last hcontract hwarnings hlast hmessage =>
      exact ⟨_, hlog, .error error warnings last hcontract hwarnings hlast hmessage⟩
  | ok value =>
    obtain ⟨more, hmore, hlater⟩ := hnext value middle
    refine ⟨log ++ more, ?_, hlater.after hreported.isWarning⟩
    rw [← List.append_assoc, ← hlog]
    exact hmore

theorem reports_lift {traced : Traced α} (h : traced.Reports) : Reports (liftM traced) :=
  fun _ => ⟨traced.log, rfl, h⟩

/-- Answers about restrictions are not reported, remembered or not. -/
theorem reports_isGeneric (id : NodeId) : Reports (isGeneric id) := by
  intro session
  refine ⟨[], ?_, .value _ [] (fun _ h => absurd h List.not_mem_nil)⟩
  change (session.isGeneric id).2.diagnostics = session.diagnostics ++ []
  rw [List.append_nil, Session.isGeneric]
  split <;> rfl

/-- Appending what belongs to a result is a property of steps that their composition keeps; it takes no second
computation into account. -/
def reporting : Correspondence Steps Steps where
  Holds step _ := Reports step
  holds_pure := reports_pure
  holds_bind := reports_bind
  holds_lift _ := reports_lift

theorem reports_expand (mode : Mode) (locked : Bool) (ancestry : List NodeId) (id : NodeId) :
    Reports (expand workspace mode locked ancestry id) := by
  refine workspace.graph.descent (motive := fun ancestry id => ∀ locked,
    reporting.Holds (expand workspace mode locked ancestry id) (expand workspace mode locked ancestry id))
    ?_ ancestry id locked
  intro ancestry id ih locked
  rw [expand_eq_call]
  exact reporting.holds_expandCall (reports_isGeneric id) (fun hid hnew part => ih hid hnew part true)

theorem reports_resolve (mode : Mode) (id : NodeId) (context : Context) :
    Reports (resolve workspace mode id context) :=
  reports_bind (reports_expand mode _ _ id)
    (fun _ => reports_bind (reports_isGeneric id) (fun _ => reports_pure _))

theorem reports_files : Reports (workspace.filesBy (resolve workspace)) := by
  have h : reporting.Holds (workspace.filesBy (resolve workspace)) (workspace.filesBy (resolve workspace)) :=
    reporting.holds_files reports_resolve
  exact h

end Steps

namespace Workspace
variable {workspace : Workspace}

/-- The diagnostics of a run are those of a fresh session that emits all files. -/
theorem files_reports (workspace : Workspace) : workspace.files.Reports := by
  obtain ⟨log, hlog, hreported⟩ := Steps.reports_files { workspace }
  obtain ⟨hresult, hcontinues⟩ := (Steps.follows_files workspace).spec (Session.sound_fresh workspace)
  have hsame : workspace.files.log = log := List.append_cancel_left (hcontinues.diagnostics_eq.symm.trans hlog)
  rw [Traced.Reports, hsame, ← hresult]
  exact hreported

theorem generate_isWarning {output : Output} (h : workspace.generate = .ok output) :
    ∀ diagnostic ∈ output.diagnostics, diagnostic.severity = .warning := by
  rcases except_bind_ok h with ⟨_, _, h⟩
  rcases except_bind_ok h with ⟨files, hfiles, h⟩
  cases h
  have hreported := workspace.files_reports
  rw [Traced.Reports, hfiles] at hreported
  exact hreported.isWarning

end Workspace

/-- In every session, whatever it remembers and has reported, resolving a node appends the diagnostics that belong
to the result: only warnings to a resolution, and to an error, which breaks the contract, warnings and last the
one diagnostic with its message. A run that succeeds has no error among its diagnostics. -/
theorem Session.resolve_reported (session : Session) (mode : Mode) (id : NodeId) (context : Context) :
    (∃ log, (session.resolve mode id context).2.diagnostics = session.diagnostics ++ log ∧
      Reported (session.resolve mode id context).1 log) ∧
    ∀ output, session.workspace.generate = .ok output → Diagnostics.hasErrors output.diagnostics = false := by
  refine ⟨Steps.reports_resolve mode id context session, fun output houtput => ?_⟩
  exact Diagnostics.hasErrors_eq_false (Workspace.generate_isWarning houtput)

/-- A place that the graph does not have, asked for in a session that has reported something wrong before. -/
theorem Session.resolve_reported_restrictedGraph :
    let session : Session := { workspace := Sample.restrictedWorkspace, diagnostics := [.report .error "lost" ""] }
    (∃ log, (session.resolve .guard 2 .detached).2.diagnostics = session.diagnostics ++ log ∧
      Reported (session.resolve .guard 2 .detached).1 log) ∧
    ∃ output, session.workspace.generate = .ok output ∧ Diagnostics.hasErrors output.diagnostics = false := by
  intro session
  obtain ⟨hresolved, hrun⟩ := session.resolve_reported .guard 2 .detached
  have hok : session.workspace.generate.isOk = true := by decide +kernel
  obtain ⟨output, houtput⟩ := exists_ok_of_isOk hok
  exact ⟨hresolved, output, houtput, hrun output houtput⟩

end SchemaGuards

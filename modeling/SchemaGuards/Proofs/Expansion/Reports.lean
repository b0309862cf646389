import SchemaGuards.Expansion.Basic

/-!
# What is reported along with a result

A step that has a value only warns. A step that fails breaks the contract on graphs, and the last of its
reports is the error that it fails with. Every single step of an expansion is of this kind.
-/
namespace SchemaGuards

/-- The diagnostics that belong to a result: warnings, and behind them the error when there is no value. -/
inductive Reported {α : Type} : Except GenerationError α → Diagnostics → Prop
  | value (value : α) (warnings : Diagnostics)
    (hwarnings : ∀ diagnostic ∈ warnings, diagnostic.severity = .warning) : Reported (.ok value) warnings
  | error (error : GenerationError) (warnings : Diagnostics) (last : Diagnostic)
    (hcontract : error.isContractViolation = true)
    (hwarnings : ∀ diagnostic ∈ warnings, diagnostic.severity = .warning) (hlast : last.severity = .error)
    (hmessage : last.message = error.message) : Reported (.error error) (warnings ++ [last])

theorem Diagnostics.hasErrors_eq_false {log : Diagnostics}
    (h : ∀ diagnostic ∈ log, diagnostic.severity = .warning) : Diagnostics.hasErrors log = false := by
  rw [Diagnostics.hasErrors, List.any_eq_false]
  intro diagnostic hdiagnostic
  simp [Diagnostic.isError, h diagnostic hdiagnostic]

namespace Reported
variable {α : Type} {value : α} {result : Except GenerationError α} {log more : Diagnostics}

theorem isWarning (h : Reported (.ok value) log) : ∀ diagnostic ∈ log, diagnostic.severity = .warning := by
  cases h with
  | value _ _ hwarnings => exact hwarnings

theorem after (h : Reported result more) (hlog : ∀ diagnostic ∈ log, diagnostic.severity = .warning) :
    Reported result (log ++ more) := by
  have hall : ∀ warnings : Diagnostics, (∀ diagnostic ∈ warnings, diagnostic.severity = .warning) →
      ∀ diagnostic ∈ log ++ warnings, diagnostic.severity = .warning := by
    intro warnings hwarnings diagnostic hdiagnostic
    exact (List.mem_append.1 hdiagnostic).elim (hlog diagnostic) (hwarnings diagnostic)
  cases h with
  | value value _ hwarnings => exact .value value _ (hall _ hwarnings)
  | error error warnings last hcontract hwarnings hlast hmessage =>
    rw [← List.append_assoc]
    exact .error error _ last hcontract (hall warnings hwarnings) hlast hmessage

end Reported

namespace Traced
variable {α : Type}

def Reports (step : Traced α) : Prop := Reported step.outcome step.log

theorem reports_pure (value : α) : (pure value : Traced α).Reports := .value value [] (by simp)

theorem reports_warn (code message : String) : (warn code message).Reports :=
  .value () [.report .warning code message] (by simp [Diagnostic.report])

theorem reports_fail (code : String) {error : GenerationError} (h : error.isContractViolation = true) :
    (fail code error : Traced α).Reports :=
  .error error [] (.report .error code error.message) h (by simp) rfl rfl

end Traced

namespace Workspace
variable (mode : Mode)

theorem expandMember_reports (workspace : Workspace) (owner : NodeId) (name : String) :
    (workspace.expandMember mode owner name).Reports := by
  unfold expandMember
  split
  · split
    · exact Traced.reports_pure _
    · exact Traced.reports_fail _ rfl
  · exact Traced.reports_fail _ rfl

theorem refuseUnindexed_reports (content : Model) : (refuseUnindexed mode content).Reports :=
  Traced.reports_fail _ rfl

theorem refuseDangling_reports (id : NodeId) : (refuseDangling id).Reports := Traced.reports_fail _ rfl

theorem refuseKind_reports (kind : String) : (refuseKind kind).Reports := Traced.reports_fail _ rfl

theorem refuseCycle_reports (id : NodeId) (node : Node) : (refuseCycle id node).Reports := by
  cases node <;> exact Traced.reports_fail _ rfl

end Workspace
end SchemaGuards

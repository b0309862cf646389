import SchemaGuards.Proofs.Traced
import SchemaGuards.Resolution

/-!
# The codes of what resolutions report

Whatever the resolution of a node reports has a code of its own family. So it is told from what the files
report about themselves.
-/
namespace SchemaGuards

namespace Traced
variable {α β : Type}

/-- A step that reports nothing but allowed codes, whether it succeeds or not. -/
def ReportsOnly (step : Traced α) (allowed : String → Prop) : Prop := ∀ diagnostic ∈ step.log, allowed diagnostic.code

namespace ReportsOnly
variable {allowed : String → Prop}

theorem pure (value : α) : (Pure.pure value : Traced α).ReportsOnly allowed := by simp [ReportsOnly]

theorem warn {code message : String} (h : allowed (Diagnostic.codeLead ++ code)) :
    (Traced.warn code message).ReportsOnly allowed := by
  intro diagnostic hdiagnostic
  rw [List.mem_singleton.1 hdiagnostic]
  exact h

theorem fail {code : String} {error : GenerationError} (h : allowed (Diagnostic.codeLead ++ code)) :
    (Traced.fail code error : Traced α).ReportsOnly allowed := by
  intro diagnostic hdiagnostic
  rw [List.mem_singleton.1 hdiagnostic]
  exact h

theorem bind {step : Traced α} {next : α → Traced β} (h : step.ReportsOnly allowed)
    (hnext : ∀ value, (next value).ReportsOnly allowed) : (step >>= next).ReportsOnly allowed := by
  intro diagnostic hdiagnostic
  cases hstep : step.outcome with
  | error error =>
    rw [bind_error hstep] at hdiagnostic
    exact h diagnostic hdiagnostic
  | ok value =>
    rw [bind_ok hstep] at hdiagnostic
    exact (List.mem_append.1 hdiagnostic).elim (h diagnostic) (hnext value diagnostic)

theorem map {step : Traced α} (h : step.ReportsOnly allowed) (change : α → β) :
    (change <$> step).ReportsOnly allowed := by
  rw [map_eq_pure_bind]
  exact h.bind (fun value => pure (change value))

theorem mapM {step : α → Traced β} {values : List α} (h : ∀ value ∈ values, (step value).ReportsOnly allowed) :
    (values.mapM step).ReportsOnly allowed := by
  induction values with
  | nil => exact pure []
  | cons value rest ih =>
    rw [List.mapM_cons]
    refine (h value List.mem_cons_self).bind (fun first => ?_)
    have hothers := ih (fun other hother => h other (List.mem_cons_of_mem value hother))
    exact hothers.bind (fun others => pure (first :: others))

theorem optionMapM {step : α → Traced β} {value : Option α}
    (h : ∀ found ∈ value, (step found).ReportsOnly allowed) : (value.mapM step).ReportsOnly allowed := by
  cases value with
  | none => exact pure none
  | some found =>
    rw [Option.mapM_some]
    exact (h found rfl).map some

end ReportsOnly
end Traced

namespace Workspace
variable {workspace : Workspace} {mode : Mode} {child : NodeId → Traced Expansion}

section Child
variable (h : ∀ part, (child part).ReportsOnly IsResolving)
include h

end Child

end Workspace
end SchemaGuards

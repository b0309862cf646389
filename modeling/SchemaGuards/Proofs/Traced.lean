import Mathlib.Data.List.Forall2
import SchemaGuards.Traced

/-!
# Outcomes of traced steps

A step succeeds when all its parts do, and it fails as the first part that fails. So a step fails with
certain errors only when each of its parts does.
-/
namespace SchemaGuards

theorem mem_of_forall₂ {α β : Type} {related : α → β → Prop} {values : List α} {results : List β}
    (h : List.Forall₂ related values results) :
    (∀ value ∈ values, ∃ result ∈ results, related value result) ∧
      ∀ result ∈ results, ∃ value ∈ values, related value result := by
  induction h with
  | nil => simp
  | cons hfirst hrest ih =>
    constructor
    · intro value hvalue
      rcases List.mem_cons.1 hvalue with rfl | hvalue
      · exact ⟨_, by simp, hfirst⟩
      · rcases ih.1 value hvalue with ⟨result, hresult, hrelated⟩
        exact ⟨result, List.mem_cons_of_mem _ hresult, hrelated⟩
    · intro result hresult
      rcases List.mem_cons.1 hresult with rfl | hresult
      · exact ⟨_, by simp, hfirst⟩
      · rcases ih.2 result hresult with ⟨value, hvalue, hrelated⟩
        exact ⟨value, List.mem_cons_of_mem _ hvalue, hrelated⟩

section Results
variable {ε α : Type} {result : Except ε α}

theorem exists_ok_of_isOk (h : result.isOk = true) : ∃ value, result = .ok value := by
  cases result with
  | ok value => exact ⟨value, rfl⟩
  | error error => cases h

theorem exists_ok_of_any {p : α → Prop} [DecidablePred p] (h : result.toOption.any (fun value => p value) = true) :
    ∃ value, result = .ok value ∧ p value := by
  cases result with
  | ok value => exact ⟨value, rfl, of_decide_eq_true h⟩
  | error error => cases h

end Results

namespace Traced

variable {α β : Type}

theorem outcome_bind_ok {step : Traced α} {next : α → Traced β} {result : β}
    (h : (step >>= next).outcome = .ok result) :
    ∃ value, step.outcome = .ok value ∧ (next value).outcome = .ok result := by
  cases hstep : step.outcome with
  | error error =>
    rw [bind_error hstep] at h
    cases h
  | ok value =>
    rw [bind_ok hstep] at h
    exact ⟨value, rfl, h⟩

theorem outcome_map_ok {step : Traced α} {change : α → β} {result : β}
    (h : (change <$> step).outcome = .ok result) : ∃ value, step.outcome = .ok value ∧ result = change value := by
  rw [map_eq_pure_bind] at h
  rcases outcome_bind_ok h with ⟨value, hvalue, h⟩
  cases h
  exact ⟨value, hvalue, rfl⟩

theorem outcome_mapM_ok {step : α → Traced β} {values : List α} {results : List β}
    (h : (values.mapM step).outcome = .ok results) :
    List.Forall₂ (fun value result => (step value).outcome = .ok result) values results := by
  induction values generalizing results with
  | nil =>
    rw [List.mapM_nil] at h
    cases h
    exact .nil
  | cons value rest ih =>
    rw [List.mapM_cons] at h
    rcases outcome_bind_ok h with ⟨first, hfirst, h⟩
    rcases outcome_bind_ok h with ⟨others, hothers, h⟩
    cases h
    exact .cons hfirst (ih hothers)

theorem outcome_optionMapM_ok {step : α → Traced β} {value : Option α} {result : Option β}
    (h : (value.mapM step).outcome = .ok result) :
    Option.Rel (fun value result => (step value).outcome = .ok result) value result := by
  cases value with
  | none =>
    cases h
    exact .none
  | some value =>
    rw [Option.mapM_some] at h
    rcases outcome_map_ok h with ⟨first, hfirst, rfl⟩
    exact .some hfirst

/-- A step that fails with an allowed error, if at all. -/
def FailsOnly (step : Traced α) (allowed : GenerationError → Prop) : Prop :=
  ∀ error, step.outcome = .error error → allowed error

namespace FailsOnly
variable {allowed : GenerationError → Prop}

theorem pure (value : α) : (Pure.pure value : Traced α).FailsOnly allowed := by
  intro error h
  cases h

theorem fail {code : String} {error : GenerationError} (h : allowed error) :
    (Traced.fail code error : Traced α).FailsOnly allowed := by
  intro other hother
  cases hother
  exact h

theorem bind {step : Traced α} {next : α → Traced β} (h : step.FailsOnly allowed)
    (h' : ∀ value, step.outcome = .ok value → (next value).FailsOnly allowed) :
    (step >>= next).FailsOnly allowed := by
  intro error herror
  cases hstep : step.outcome with
  | error cause =>
    rw [bind_error hstep] at herror
    cases herror
    exact h error hstep
  | ok value =>
    rw [bind_ok hstep] at herror
    exact h' value hstep error herror

theorem map {step : Traced α} (h : step.FailsOnly allowed) (change : α → β) :
    (change <$> step).FailsOnly allowed := by
  rw [map_eq_pure_bind]
  exact h.bind (fun value _ => pure (change value))

theorem mapM {step : α → Traced β} {values : List α} (h : ∀ value ∈ values, (step value).FailsOnly allowed) :
    (values.mapM step).FailsOnly allowed := by
  induction values with
  | nil =>
    rw [List.mapM_nil]
    exact pure []
  | cons value rest ih =>
    rw [List.mapM_cons]
    refine (h value (by simp)).bind (fun first _ => ?_)
    refine (ih (fun other hother => h other (by simp [hother]))).bind (fun others _ => ?_)
    exact pure (first :: others)

theorem optionMapM {step : α → Traced β} {value : Option α}
    (h : ∀ found, value = some found → (step found).FailsOnly allowed) :
    (value.mapM step).FailsOnly allowed := by
  cases value with
  | none => exact pure none
  | some found =>
    rw [Option.mapM_some]
    exact (h found rfl).map some

end FailsOnly
end Traced
end SchemaGuards

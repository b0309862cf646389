import SchemaGuards.Diagnostic
import SchemaGuards.GenerationError

/-!
# Computations with diagnostics

A step of a generation run reports diagnostics and then has a value or an error. What was reported
before an error stays reported. No step sees what earlier ones reported.
-/
namespace SchemaGuards

structure Traced (α : Type) where
  log : Diagnostics
  outcome : Except GenerationError α

namespace Traced

def pure {α : Type} (value : α) : Traced α := ⟨[], .ok value⟩

def bind {α β : Type} (step : Traced α) (next : α → Traced β) : Traced β :=
  match step.outcome with
  | .ok value => ⟨step.log ++ (next value).log, (next value).outcome⟩
  | .error error => ⟨step.log, .error error⟩

instance : Monad Traced where
  pure := pure
  bind := bind

instance : LawfulMonad Traced := LawfulMonad.mk' Traced
  (by
    intro α step
    obtain ⟨log, outcome⟩ := step
    cases outcome <;> simp [Functor.map, bind, pure])
  (by
    intro α β value next
    simp [Bind.bind, Pure.pure, bind, pure])
  (by
    intro α β γ step next last
    obtain ⟨log, outcome⟩ := step
    cases outcome with
    | error error => simp [Bind.bind, bind]
    | ok value =>
      simp only [Bind.bind, bind]
      cases (next value).outcome <;> simp)

def warn (code message : String) : Traced Unit := ⟨[.report .warning code message], .ok ()⟩

def fail {α : Type} (code : String) (error : GenerationError) : Traced α :=
  ⟨[.report .error code error.message], .error error⟩

@[simp] theorem pure_eq {α : Type} (value : α) : (Pure.pure value : Traced α) = ⟨[], .ok value⟩ := rfl

theorem bind_ok {α β : Type} {step : Traced α} {value : α} (h : step.outcome = .ok value)
    (next : α → Traced β) : step >>= next = ⟨step.log ++ (next value).log, (next value).outcome⟩ := by
  change bind step next = _
  simp [bind, h]

theorem bind_error {α β : Type} {step : Traced α} {error : GenerationError}
    (h : step.outcome = .error error) (next : α → Traced β) : step >>= next = ⟨step.log, .error error⟩ := by
  change bind step next = _
  simp [bind, h]

end Traced
end SchemaGuards

import SchemaGuards.Proofs.Brackets.Scan
import SchemaGuards.Text.Disjunction

/-!
# Disjunctions outside brackets

The scan for a disjunction keeps only the number of the open brackets and the last character. On a balanced text it
finds a double bar exactly when there is one that no bracket and no literal is around.
-/
namespace SchemaGuards.Text

/-- A double bar at a place where all brackets are closed, those that were open before the text among them. -/
def HasBars (closers : List Char) (text : String) : Prop :=
  ∃ before behind, text.toList = before ++ '|' :: '|' :: behind ∧ BracketScan.run { closers } before = some {}

/-- A disjunction outside of all brackets and literals. -/
def HasOuterOr (text : String) : Prop := HasBars [] text

theorem isSome_closer? (c : Char) : (closer? c).isSome = (c = '(' || c = '[' || c = '{') := by
  unfold closer?
  split <;> simp_all

/-- The scan for disjunctions stands where the reading of brackets does. -/
structure OrScan.Follows (scan : OrScan) (reading : BracketScan) : Prop where
  depth_eq : scan.depth = reading.closers.length
  quoted_eq : scan.quoted = if reading.quoted then some '\'' else none
  escaped_eq : scan.escaped = reading.escaped
  unescaped : reading.quoted = false → reading.escaped = false

namespace OrScan
variable {scan : OrScan} {reading next : BracketScan} {c : Char}

theorem step_bars (h : scan.Follows {}) (hlast : scan.last = '|') : scan.step '|' = none := by
  rcases scan with ⟨depth, quoted, escaped, last⟩
  cases h.depth_eq
  cases h.quoted_eq
  cases hlast
  rfl

/-- The step outside of literals, by what the character does to the open brackets. -/
theorem step_shift {closers shifted : List Char} {last : Char} (hquote : isQuote c = false)
    (hshift : shift? closers c = some shifted) (hbars : ¬ (last = '|' ∧ closers = [] ∧ c = '|')) :
    step ⟨closers.length, none, false, last⟩ c = some ⟨shifted.length, none, false, c⟩ := by
  have hopening := isSome_closer? c
  unfold isQuote at hquote
  unfold shift? at hshift
  simp only [step, hquote, Bool.false_eq_true, if_false, ← hopening]
  split at hshift
  · next closer hcloser =>
    cases hshift
    simp [hcloser]
  · next hcloser =>
    simp only [hcloser, Option.isSome_none, Bool.false_eq_true, if_false]
    split at hshift
    · next hplain =>
      cases hshift
      have hclosing : isCloser c = false := by simpa using hplain
      unfold isCloser at hclosing
      simp only [hclosing, Bool.false_eq_true, if_false]
      rw [if_neg]
      simp only [Bool.and_eq_true, decide_eq_true_eq, List.length_eq_zero_iff]
      exact fun h => hbars ⟨h.1.2, h.2, h.1.1⟩
    · next hclosing =>
      split at hshift
      · next hhead =>
        cases hshift
        have hclosing : isCloser c = true := by simpa using hclosing
        unfold isCloser at hclosing
        simp only [hclosing, if_true, List.length_tail]
      · cases hshift

/-- At any other character the scan goes on, and stands at the same place again. -/
theorem step_follows (h : scan.Follows reading) (hstep : reading.step c = some next)
    (hbars : ¬ (scan.last = '|' ∧ reading = {} ∧ c = '|')) :
    ∃ later, scan.step c = some later ∧ later.Follows next ∧ later.last = c := by
  rcases scan with ⟨depth, quoted, escaped, last⟩
  rcases reading with ⟨closers, inside, skipping⟩
  have hunescaped := h.unescaped
  cases h.depth_eq
  cases h.escaped_eq
  cases inside with
  | true =>
    have hquoted : quoted = some '\'' := h.quoted_eq
    subst hquoted
    simp only [BracketScan.step, if_true] at hstep
    split at hstep
    · cases hstep
    · cases escaped with
      | true =>
        cases hstep
        exact ⟨⟨_, some '\'', false, c⟩, rfl, ⟨rfl, rfl, rfl, by simp⟩, rfl⟩
      | false =>
        simp only [Bool.false_eq_true, if_false] at hstep
        split at hstep
        · next hbackslash =>
          cases hstep
          exact ⟨⟨_, some '\'', true, c⟩, by simp [step, hbackslash], ⟨rfl, rfl, rfl, by simp⟩, rfl⟩
        · next hbackslash =>
          cases hstep
          by_cases hquote : c = '\''
          · subst hquote
            exact ⟨⟨_, none, false, '\''⟩, rfl, ⟨rfl, rfl, rfl, by simp⟩, rfl⟩
          · exact ⟨⟨_, some '\'', false, c⟩, by simp [step, hbackslash, hquote],
              ⟨rfl, by simp [hquote], rfl, by simp [hquote]⟩, rfl⟩
  | false =>
    have hquoted : quoted = none := h.quoted_eq
    subst hquoted
    cases hunescaped rfl
    simp only [BracketScan.step, Bool.false_eq_true, if_false] at hstep
    split at hstep
    · next hquote =>
      cases hstep
      subst hquote
      exact ⟨⟨_, some '\'', false, '\''⟩, rfl, ⟨rfl, rfl, rfl, by simp⟩, rfl⟩
    · split at hstep
      · cases hstep
      · next hquote =>
        rcases Option.map_eq_some_iff.1 hstep with ⟨shifted, hshift, rfl⟩
        refine ⟨_, step_shift (by simpa using hquote) hshift ?_, ⟨rfl, rfl, rfl, by simp⟩, rfl⟩
        rintro ⟨hlast, rfl, hbar⟩
        exact hbars ⟨hlast, rfl, hbar⟩

/-- Reading a bar changes nothing outside of brackets and literals, and does not lead there. -/
theorem step_bar_iff (h : reading.step '|' = some next) : next = {} ↔ reading = {} := by
  rcases reading with ⟨closers, quoted, escaped⟩
  cases quoted <;> cases escaped <;> cases h <;> simp

/-- The scan stops exactly at the first double bar that the reading meets outside, by induction on the text. -/
theorem run_eq_none_iff {cs : List Char} (h : scan.Follows reading) (hrun : reading.run cs = some next) :
    scan.run cs = none ↔ (scan.last = '|' ∧ reading = {} ∧ cs.head? = some '|') ∨
      ∃ before behind, cs = before ++ '|' :: '|' :: behind ∧ reading.run before = some {} := by
  induction cs generalizing scan reading with
  | nil => simp
  | cons c cs ih =>
    rw [BracketScan.run_cons, Option.bind_eq_some_iff] at hrun
    rcases hrun with ⟨middle, hstep, hrest⟩
    by_cases hbars : scan.last = '|' ∧ reading = {} ∧ c = '|'
    · rcases hbars with ⟨hlast, rfl, rfl⟩
      simp [step_bars h hlast, hlast]
    · rcases step_follows h hstep hbars with ⟨later, hlater, hfollows, hlast⟩
      rw [run_cons, hlater, Option.bind_some, ih hfollows hrest, hlast]
      constructor
      · rintro (⟨rfl, hmiddle, hhead⟩ | ⟨before, behind, rfl, hbefore⟩)
        · cases cs with
          | nil => cases hhead
          | cons second rest =>
            cases hhead
            exact .inr ⟨[], rest, rfl, congrArg some ((step_bar_iff hstep).1 hmiddle)⟩
        · exact .inr ⟨c :: before, behind, rfl, by rw [BracketScan.run_cons, hstep]; exact hbefore⟩
      · rintro (⟨hbar, hreading, hhead⟩ | ⟨before, behind, heq, hbefore⟩)
        · exact absurd ⟨hbar, hreading, Option.some.inj hhead⟩ hbars
        · cases before with
          | nil =>
            cases heq
            exact .inl ⟨rfl, (step_bar_iff hstep).2 (Option.some.inj hbefore), rfl⟩
          | cons first before =>
            cases heq
            rw [BracketScan.run_cons, hstep] at hbefore
            exact .inr ⟨before, behind, rfl, hbefore⟩

end OrScan

/-- On a balanced text the scan decides whether there is a disjunction outside. -/
theorem hasTopLevelOr_iff {text : String} (h : IsBalanced text) : hasTopLevelOr text = true ↔ HasOuterOr text := by
  have hstart : OrScan.Follows {} {} := ⟨rfl, rfl, rfl, fun _ => rfl⟩
  rw [hasTopLevelOr, Option.isNone_iff_eq_none, OrScan.run_eq_none_iff hstart h]
  simp [HasOuterOr, HasBars]

section Parts
variable {text rest : String} {closers before after : List Char}

theorem not_hasBars_of_not_mem (h : '|' ∉ text.toList) : ¬ HasBars closers text := by
  rintro ⟨before, behind, heq, _⟩
  exact h (heq ▸ by simp)

/-- Inside of brackets, a balanced text never gets outside. -/
theorem IsBalanced.not_hasBars (h : IsBalanced text) (hne : closers ≠ []) : ¬ HasBars closers text := by
  rintro ⟨before, behind, heq, hrun⟩
  unfold IsBalanced Moves at h
  rw [heq, BracketScan.run_append, Option.bind_eq_some_iff] at h
  rcases h with ⟨middle, hmiddle, _⟩
  have hwithin := BracketScan.run_within hmiddle closers
  have hclosers : middle.closers ++ closers = [] := by
    have heq : middle.within closers = {} := Option.some.inj (hwithin.symm.trans hrun)
    exact congrArg BracketScan.closers heq
  exact hne (List.append_eq_nil_iff.1 hclosers).2

/-- No double bar comes up where two texts meet, unless both have a bar there. -/
theorem not_hasBars_append (hmoves : Moves text before after) (h : ¬ HasBars before text) (h' : ¬ HasBars after rest)
    (hmeet : text.toList.getLast? ≠ some '|' ∨ rest.toList.head? ≠ some '|') : ¬ HasBars before (text ++ rest) := by
  rintro ⟨front, behind, heq, hrun⟩
  rw [String.toList_append, List.append_eq_append_iff] at heq
  rcases heq with ⟨middle, rfl, hrest⟩ | ⟨middle, htext, hbehind⟩
  · rw [BracketScan.run_append, hmoves] at hrun
    exact h' ⟨middle, behind, hrest, hrun⟩
  · cases middle with
    | nil =>
      rw [List.append_nil] at htext
      rw [← htext, hmoves] at hrun
      exact h' ⟨[], behind, hbehind.symm, hrun⟩
    | cons first middle =>
      cases middle with
      | nil =>
        rw [List.singleton_append, List.cons.injEq] at hbehind
        rcases hbehind with ⟨rfl, hrest⟩
        simp [htext, ← hrest] at hmeet
      | cons second middle =>
        rw [List.cons_append, List.cons_append, List.cons.injEq, List.cons.injEq] at hbehind
        rcases hbehind with ⟨rfl, rfl, _⟩
        exact h ⟨front, middle, htext, hrun⟩

end Parts
end SchemaGuards.Text

import Mathlib.Data.List.TakeWhile
import SchemaGuards.Proofs.Decimal.Writing

/-!
# Characters of numbers

A decimal literal and the text of a double are made of letters, digits, points and signs.
-/
namespace SchemaGuards.Decimal

def isNumeral (c : Char) : Bool := c.isAlphanum || c ∈ ['.', '+', '-']

theorem isNumeral_of_digit {c : Char} (h : c.isDigit = true) : isNumeral c = true := by
  simp [isNumeral, Char.isAlphanum, h]

theorem mem_digits_or {cs : List Char} {c : Char} (h : c ∈ cs) : c.isDigit = true ∨ c ∈ afterDigits cs := by
  rw [← List.takeWhile_append_dropWhile (p := Char.isDigit) (l := cs), List.mem_append] at h
  exact h.imp_left List.mem_takeWhile_imp

theorem mem_readSign {accepted cs body : List Char} {negative : Bool} (h : readSign accepted cs = (negative, body))
    {c : Char} (hc : c ∈ cs) : c ∈ accepted ∨ c ∈ body := by
  cases cs with
  | nil => cases hc
  | cons first rest =>
    rw [readSign] at h
    split at h
    · next haccepted =>
      cases h
      rcases List.mem_cons.1 hc with rfl | hrest
      · exact .inl haccepted
      · exact .inr hrest
    · cases h
      exact .inr hc

theorem mem_readMantissa {body whole rest : List Char} {fraction : Option (List Char)}
    (h : readMantissa body = (whole, fraction, rest)) {c : Char} (hc : c ∈ body) : isNumeral c = true ∨ c ∈ rest := by
  rcases mem_digits_or hc with hdigit | hafter
  · exact .inl (isNumeral_of_digit hdigit)
  · rw [readMantissa] at h
    split at h
    · next behind hpoint =>
      cases h
      rw [hpoint] at hafter
      rcases List.mem_cons.1 hafter with rfl | hbehind
      · exact .inl (by decide)
      · exact (mem_digits_or hbehind).imp_left isNumeral_of_digit
    · cases h
      exact .inr hafter

theorem isNumeral_of_readExponent? {cs : List Char} (h : (readExponent? cs).isSome) :
    ∀ c ∈ cs, isNumeral c = true := by
  intro c hc
  cases cs with
  | nil => cases hc
  | cons mark rest =>
    rw [readExponent?] at h
    split at h
    · next hmark =>
      rcases List.mem_cons.1 hc with rfl | hrest
      · simp only [Bool.or_eq_true, decide_eq_true_eq] at hmark
        rcases hmark with rfl | rfl <;> decide
      · cases hsign : readSign ['+', '-'] rest with
        | mk negative body =>
          simp only [hsign] at h
          split at h
          · cases h
          · next hbody =>
            simp only [Bool.or_eq_true, Bool.not_eq_true', not_or, List.isEmpty_iff, Bool.not_eq_false] at hbody
            rcases mem_readSign hsign hrest with haccepted | hmem
            · simp only [List.mem_cons, List.not_mem_nil, or_false] at haccepted
              rcases haccepted with rfl | rfl <;> decide
            · rcases mem_digits_or hmem with hdigit | hafter
              · exact isNumeral_of_digit hdigit
              · rw [hbody.2] at hafter
                cases hafter
    · cases h

theorem isNumeral_of_isFiniteLiteral {cs : List Char} (h : isFiniteLiteral cs = true) :
    ∀ c ∈ cs, isNumeral c = true := by
  intro c hc
  rw [isFiniteLiteral] at h
  cases hread : readStrict? cs with
  | none =>
    rw [hread] at h
    cases h
  | some literal =>
    rw [readStrict?] at hread
    cases hsign : readSign ['-'] cs with
    | mk negative body =>
      cases hmantissa : readMantissa body with
      | mk whole parts =>
        rcases parts with ⟨fraction, rest⟩
        simp only [hsign, hmantissa] at hread
        split at hread
        · cases hread
        · rcases Option.map_eq_some_iff.1 hread with ⟨exponent, hexponent, _⟩
          rcases mem_readSign hsign hc with haccepted | hbody
          · cases List.mem_singleton.1 haccepted
            decide
          · rcases mem_readMantissa hmantissa hbody with hnumeral | hrest
            · exact hnumeral
            · exact isNumeral_of_readExponent? (by simp [hexponent]) c hrest

theorem isNumeral_of_mem_nat {n : Nat} {c : Char} (h : c ∈ (toString n).toList) : isNumeral c = true := by
  rw [toList_toString] at h
  exact isNumeral_of_digit (Nat.isDigit_of_mem_toDigits (by decide) (by decide) h)

theorem isNumeral_of_mem_int {n : Int} {c : Char} (h : c ∈ (toString n).toList) : isNumeral c = true := by
  rw [toList_toString_int, ← toList_toString, wholeText] at h
  split at h
  · rcases List.mem_cons.1 h with rfl | h
    · decide
    · exact isNumeral_of_mem_nat h
  · exact isNumeral_of_mem_nat h

theorem isNumeral_positional (x : Scaled) : ∀ c ∈ (positional x).toList, isNumeral c = true := by
  intro c hc
  have hzero : ∀ n : Nat, ∀ other ∈ List.replicate n '0', isNumeral other = true := by
    intro n other hother
    rw [(List.mem_replicate.1 hother).2]
    decide
  rw [positional] at hc
  split at hc
  · rw [String.toList_ofList, List.mem_append] at hc
    exact hc.elim isNumeral_of_mem_nat (hzero _ c)
  · have hpadded : ∀ n : Nat, ∀ other ∈ List.replicate n '0' ++ (toString x.coefficient).toList,
        isNumeral other = true := by
      intro n other hother
      exact (List.mem_append.1 hother).elim (hzero n other) isNumeral_of_mem_nat
    simp only [String.toList_ofList] at hc
    split at hc
    · exact hpadded _ c (List.mem_of_mem_take hc)
    · rcases List.mem_append.1 hc with hwhole | hfraction
      · exact hpadded _ c (List.mem_of_mem_take hwhole)
      · rcases List.mem_cons.1 hfraction with rfl | hfraction
        · decide
        · rw [dropTrailingZeros, List.mem_reverse] at hfraction
          exact hpadded _ c (List.mem_of_mem_drop (List.mem_reverse.1 ((List.dropWhile_sublist _).subset hfraction)))

theorem isNumeral_text (number : Binary64) : ∀ c ∈ number.text.toList, isNumeral c = true := by
  cases number with
  | nan => exact List.all_eq_true.1 (by decide)
  | infinite negative => cases negative <;> exact List.all_eq_true.1 (by decide)
  | finite negative significand exponent =>
    intro c hc
    rw [Binary64.text] at hc
    split at hc
    · exact isNumeral_of_mem_int hc
    · rw [String.toList_append, List.mem_append] at hc
      rcases hc with hsign | hdigits
      · cases negative with
        | true => exact List.all_eq_true.1 (by decide : "-".toList.all isNumeral = true) c hsign
        | false => cases hsign
      · exact isNumeral_positional _ c hdigits

end SchemaGuards.Decimal

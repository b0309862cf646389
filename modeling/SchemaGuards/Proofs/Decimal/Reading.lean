import Mathlib.Data.List.TakeWhile
import SchemaGuards.Proofs.Decimal.Whole

/-!
# Reading whole numbers

A literal of a whole number, with or without an exponent, is read as the double of this number. Digits behind an optional
minus sign are such a literal. A strict literal has the same parts in the loose grammar.
-/
namespace SchemaGuards.Decimal

theorem digitValue_eq (cs : List Char) : digitValue cs = Nat.ofDigitChars 10 cs 0 := Nat.ofDigitChars_eq_foldl.symm

theorem length_toString (n : Nat) : (toString n).length = (Nat.toDigits 10 n).length := by
  rw [Nat.toString_eq_ofList_toDigits, String.length_ofList]

theorem lt_pow_length (n : Nat) : n < 10 ^ (toString n).length := by
  rw [length_toString]
  exact (Nat.length_toDigits_le_iff (by decide) Nat.length_toDigits_pos).1 (Nat.le_refl _)

theorem length_le_of_lt_pow {n places : Nat} (hplaces : 0 < places) (h : n < 10 ^ places) :
    (toString n).length ≤ places := by
  rw [length_toString]
  exact (Nat.length_toDigits_le_iff (by decide) hplaces).2 h

theorem length_pos (n : Nat) : 0 < (toString n).length := by
  rw [length_toString]
  exact Nat.length_toDigits_pos

theorem pow_length_le {n : Nat} (h : n ≠ 0) : 10 ^ ((toString n).length - 1) ≤ n := by
  apply Nat.le_of_not_lt
  intro hless
  by_cases hone : (toString n).length = 1
  · rw [hone] at hless
    omega
  · have hlength := length_pos n
    have hshorter := length_le_of_lt_pow (by omega) hless
    omega

/-- Whether the digits before the point start with a zero that could be left out. -/
def Literal.hasExtraZeros (literal : Literal) : Bool := literal.whole.head? = some '0' && 1 < literal.whole.length

def isPlain (cs : List Char) : Bool := (readStrict? cs).any (fun literal => !literal.hasExtraZeros)

/-- A literal writes a whole number, maybe with places that are zero or with an exponent. -/
def Literal.Writes (literal : Literal) (n : Int) : Prop :=
  let scale := ratioPower 10 (literal.exponent - literal.fraction.length)
  digitValue (literal.whole ++ literal.fraction) * scale.1 = n.natAbs * scale.2 ∧ n = signed literal.negative n.natAbs

theorem magnitude_bounds {value n : Nat} {exponent : Int} (hvalue : value ≠ 0) (hbound : n < 10 ^ 16)
    (h : value * (ratioPower 10 exponent).1 = n * (ratioPower 10 exponent).2) :
    1 ≤ (toString value).length + exponent ∧ (toString value).length + exponent ≤ 16 := by
  have hlength := length_pos value
  by_cases hneg : exponent < 0
  · rw [ratioPower_neg hneg, Nat.mul_one] at h
    have hn : 0 < n := Nat.pos_of_ne_zero (fun hzero => hvalue (by rw [h, hzero, Nat.zero_mul]))
    have hleast : 10 ^ (-exponent).toNat < 10 ^ (toString value).length :=
      Nat.lt_of_le_of_lt (h ▸ Nat.le_mul_of_pos_left _ hn) (lt_pow_length value)
    have hmost : value < 10 ^ (16 + (-exponent).toNat) := by
      rw [h, Nat.pow_add]
      exact Nat.mul_lt_mul_of_pos_right hbound (Nat.pow_pos (by decide))
    have hplaces := (Nat.pow_lt_pow_iff_right (by decide)).1 hleast
    have hshort := length_le_of_lt_pow (by omega) hmost
    omega
  · rw [ratioPower_nonneg (Int.not_lt.1 hneg), Nat.mul_one] at h
    have hmost : 10 ^ ((toString value).length - 1 + exponent.toNat) < 10 ^ 16 := by
      rw [Nat.pow_add]
      exact Nat.lt_of_le_of_lt (h ▸ Nat.mul_le_mul_right _ (pow_length_le hvalue)) hbound
    have hplaces := (Nat.pow_lt_pow_iff_right (by decide)).1 hmost
    omega

namespace Binary64

/-- A literal of a whole number is read as the double of this number. -/
theorem ofLiteral_eq {literal : Literal} {n : Int} (h : literal.Writes n) (hbound : n.natAbs < 10 ^ 16) :
    ofLiteral literal = ofQuotient literal.negative n.natAbs 1 := by
  obtain ⟨hvalue, -⟩ := h
  unfold ofLiteral
  by_cases hzero : digitValue (literal.whole ++ literal.fraction) = 0
  · have hn : n.natAbs = 0 := by
      rw [hzero, Nat.zero_mul] at hvalue
      exact (Nat.mul_eq_zero.1 hvalue.symm).resolve_right (Nat.ne_of_gt (ratioPower_pos (by decide) _).2)
    simp [hzero, hn, ofQuotient]
  · have hbounds := magnitude_bounds hzero hbound hvalue
    have hlow : ¬ ((toString (digitValue (literal.whole ++ literal.fraction))).length : Int) +
        (literal.exponent - literal.fraction.length) < -decimalRange := by
      rw [decimalRange]
      omega
    have hhigh : ¬ decimalRange < ((toString (digitValue (literal.whole ++ literal.fraction))).length : Int) +
        (literal.exponent - literal.fraction.length) := by
      rw [decimalRange]
      omega
    have hdown := Nat.ne_of_gt (ratioPower_pos (by decide : 0 < 10) (literal.exponent - literal.fraction.length)).2
    simp only [hzero, hlow, hhigh, decide_false, Bool.or_false, Bool.false_eq_true, if_false, hvalue]
    exact ofQuotient_mul _ _ hdown

end Binary64
/-- The text of a whole number: digits, behind a minus sign for a negative one. -/
def wholeText (negative : Bool) (ds : List Char) : List Char := if negative then '-' :: ds else ds

theorem digits_eq_self {cs : List Char} (h : ∀ c ∈ cs, c.isDigit = true) : digits cs = cs ∧ afterDigits cs = [] := by
  constructor
  · exact List.takeWhile_eq_self_iff.2 h
  · exact List.dropWhile_eq_nil_iff.2 h

theorem readStrict?_wholeText (negative : Bool) {ds : List Char} (hne : ds ≠ []) (h : ∀ c ∈ ds, c.isDigit = true) :
    readStrict? (wholeText negative ds) = some ⟨negative, ds, [], 0⟩ := by
  obtain ⟨hdigits, hafter⟩ := digits_eq_self h
  have hmantissa : readMantissa ds = (ds, none, []) := by
    simp [readMantissa, hdigits, hafter]
  have hsign : readSign ['-'] (wholeText negative ds) = (negative, ds) := by
    cases negative with
    | true => simp [wholeText, readSign]
    | false =>
      cases ds with
      | nil => exact (hne rfl).elim
      | cons first rest =>
        have hfirst : first ≠ '-' := by
          rintro rfl
          exact absurd (h _ List.mem_cons_self) (by decide)
        simp [wholeText, readSign, hfirst]
  simp [readStrict?, hsign, hmantissa, hne, readExponent?]

theorem writes_digits {n : Int} {ds : List Char} (h : digitValue ds = n.natAbs) :
    Literal.Writes ⟨decide (n < 0), ds, [], 0⟩ n := by
  refine ⟨?_, (signed_natAbs n).symm⟩
  simp [h, ratioPower]

theorem readLoose?_of_readStrict? {cs : List Char} {literal : Literal} (h : readStrict? cs = some literal) :
    readLoose? cs = some literal := by
  have hsign : readSign ['+', '-'] cs = readSign ['-'] cs := by
    cases cs with
    | nil => rfl
    | cons first rest =>
      have hfirst : first ≠ '+' := by
        rintro rfl
        simp [readStrict?, readSign, readMantissa, digits, afterDigits] at h
      simp [readSign, hfirst]
  rw [readStrict?] at h
  rw [readLoose?, hsign]
  cases hbody : readSign ['-'] cs with
  | mk negative body =>
    cases hmantissa : readMantissa body with
    | mk whole parts =>
      simp only [hbody, hmantissa] at h ⊢
      split at h
      · cases h
      · next hparts =>
        rw [Bool.or_eq_true, not_or, Bool.not_eq_true] at hparts
        rw [hparts.1, Bool.false_and, if_neg Bool.false_ne_true]
        exact h

theorem ofText?_of_readStrict? {text : String} {literal : Literal} (h : readStrict? text.toList = some literal) :
    Binary64.ofText? text = some (Binary64.ofLiteral literal) := by
  simp [Binary64.ofText?, readLoose?_of_readStrict? h]

end SchemaGuards.Decimal

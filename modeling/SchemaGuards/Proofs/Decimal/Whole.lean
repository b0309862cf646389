import Mathlib.Algebra.Group.Int.Defs
import Mathlib.Algebra.Group.Nat.Defs
import SchemaGuards.Decimal.Binary64

/-!
# Whole numbers as doubles

Rounding a quotient depends on its value alone, and a whole number up to two to the power of 53 is its own rounding.
So literals of such numbers are read exactly, whatever their exponents are, and adding one to them is exact below
the bound. At the bound it has no effect.
-/
namespace SchemaGuards.Decimal

theorem ratioPower_neg {base : Nat} {exponent : Int} (h : exponent < 0) :
    ratioPower base exponent = (1, base ^ (-exponent).toNat) := by
  simp [ratioPower, h]

theorem ratioPower_nonneg {base : Nat} {exponent : Int} (h : 0 ≤ exponent) :
    ratioPower base exponent = (base ^ exponent.toNat, 1) := by
  simp [ratioPower, Int.not_lt.2 h]

theorem ratioPower_pos {base : Nat} (h : 0 < base) (exponent : Int) :
    0 < (ratioPower base exponent).1 ∧ 0 < (ratioPower base exponent).2 := by
  rcases Int.lt_or_le exponent 0 with hneg | hnonneg
  · rw [ratioPower_neg hneg]
    exact ⟨Nat.one_pos, Nat.pow_pos h⟩
  · rw [ratioPower_nonneg hnonneg]
    exact ⟨Nat.pow_pos h, Nat.one_pos⟩

theorem ratioPower_bits {bits : Nat} (h : bits ≤ 52) : ratioPower 2 ((bits : Int) - 52) = (1, 2 ^ (52 - bits)) := by
  by_cases htop : bits = 52
  · rw [htop]
    rfl
  · rw [ratioPower_neg (by omega)]
    congr 2
    omega

def signed (negative : Bool) (magnitude : Nat) : Int := if negative then -magnitude else magnitude

theorem signed_natAbs (n : Int) : signed (n < 0) n.natAbs = n := by
  unfold signed
  split
  · next h =>
    rw [decide_eq_true_eq] at h
    omega
  · next h =>
    rw [decide_eq_true_eq] at h
    omega

/-- Rounding depends on the value of a quotient alone. -/
theorem roundQuotient_mul (numerator denominator : Nat) {factor : Nat} (h : 0 < factor) :
    roundQuotient (numerator * factor) (denominator * factor) = roundQuotient numerator denominator := by
  have hless : 2 * (numerator % denominator * factor) < denominator * factor ↔
      2 * (numerator % denominator) < denominator := by
    rw [← Nat.mul_assoc, Nat.mul_lt_mul_right h]
  have hequal : 2 * (numerator % denominator * factor) = denominator * factor ↔
      2 * (numerator % denominator) = denominator := by
    rw [← Nat.mul_assoc, Nat.mul_left_inj (Nat.ne_of_gt h)]
  simp only [roundQuotient, Nat.mul_div_mul_right _ _ h, Nat.mul_mod_mul_right, hless, hequal]

theorem roundQuotient_one (n : Nat) : roundQuotient n 1 = n := by
  simp [roundQuotient, Nat.mod_one]

theorem log2_mul_bounds {n factor : Nat} (hn : n ≠ 0) (hfactor : factor ≠ 0) :
    n.log2 + factor.log2 ≤ (n * factor).log2 ∧ (n * factor).log2 ≤ n.log2 + factor.log2 + 1 := by
  obtain ⟨hlow, hhigh⟩ := (Nat.log2_eq_iff hn).1 rfl
  obtain ⟨hfactorLow, hfactorHigh⟩ := (Nat.log2_eq_iff hfactor).1 rfl
  have hproduct : n * factor ≠ 0 := Nat.mul_ne_zero hn hfactor
  constructor
  · rw [Nat.le_log2 hproduct, Nat.pow_add]
    exact Nat.mul_le_mul hlow hfactorLow
  · rw [← Nat.lt_succ_iff, Nat.log2_lt hproduct]
    have hpower : 2 ^ (n.log2 + factor.log2 + 1).succ = 2 ^ (n.log2 + 1) * 2 ^ (factor.log2 + 1) := by
      rw [← Nat.pow_add]
      congr 1
      omega
    rw [hpower]
    exact Nat.mul_lt_mul'' hhigh hfactorHigh

theorem floorLog2_mul {n factor : Nat} (hn : n ≠ 0) (hfactor : factor ≠ 0) :
    floorLog2 (n * factor) factor = n.log2 := by
  obtain ⟨hlow, hhigh⟩ := (Nat.log2_eq_iff hn).1 rfl
  obtain ⟨hleast, hmost⟩ := log2_mul_bounds hn hfactor
  have hpositive : 0 < factor := Nat.pos_of_ne_zero hfactor
  rcases (by omega : (n * factor).log2 = n.log2 + factor.log2 ∨
    (n * factor).log2 = n.log2 + 1 + factor.log2) with hlog | hlog
  · have hestimate : ((n * factor).log2 : Int) - factor.log2 = (n.log2 : Nat) := by omega
    have hcompare : ¬ n * factor * 1 < factor * 2 ^ n.log2 := by
      rw [Nat.mul_one, Nat.mul_comm, Nat.mul_lt_mul_left hpositive]
      omega
    simp only [floorLog2, hestimate, ratioPower_nonneg (Int.natCast_nonneg _), Int.toNat_natCast, hcompare, if_false]
  · have hestimate : ((n * factor).log2 : Int) - factor.log2 = (n.log2 + 1 : Nat) := by omega
    have hcompare : n * factor * 1 < factor * 2 ^ (n.log2 + 1) := by
      rwa [Nat.mul_one, Nat.mul_comm, Nat.mul_lt_mul_left hpositive]
    simp only [floorLog2, hestimate, ratioPower_nonneg (Int.natCast_nonneg _), Int.toNat_natCast, hcompare, if_true]
    omega

namespace Binary64

/-- A quotient with a whole value rounds as the whole number does. -/
theorem ofQuotient_mul (negative : Bool) (n : Nat) {factor : Nat} (h : factor ≠ 0) :
    ofQuotient negative (n * factor) factor = ofQuotient negative n 1 := by
  by_cases hn : n = 0
  · simp [ofQuotient, hn]
  · have hproduct : n * factor ≠ 0 := Nat.mul_ne_zero hn h
    have hwhole : floorLog2 n 1 = n.log2 := by simpa using floorLog2_mul hn Nat.one_ne_zero
    have hround : ∀ up down, roundQuotient (n * factor * down) (factor * up) = roundQuotient (n * down) (1 * up) := by
      intro up down
      rw [Nat.mul_right_comm, Nat.mul_comm factor up, roundQuotient_mul _ _ (Nat.pos_of_ne_zero h), Nat.one_mul]
    simp only [ofQuotient, hproduct, hn, if_false, floorLog2_mul hn h, hwhole, hround]

def ofInt (n : Int) : Binary64 := ofQuotient (n < 0) n.natAbs 1

/-- The value of a double is a given whole number. -/
inductive Represents : Binary64 → Int → Prop
  | finite {negative : Bool} {significand : Nat} {exponent : Int} {magnitude : Nat}
    (h : significand * (ratioPower 2 exponent).1 = magnitude * (ratioPower 2 exponent).2) :
    Represents (.finite negative significand exponent) (signed negative magnitude)

/-- Whole numbers below two to the power of 53 are exact, with all bits in the significand. -/
theorem ofQuotient_exact (negative : Bool) {n : Nat} (hn : n ≠ 0) (hbound : n < 2 ^ 53) :
    ofQuotient negative n 1 = .finite negative (n * 2 ^ (52 - n.log2)) (n.log2 - 52) := by
  have hlog : n.log2 < 53 := (Nat.log2_lt hn).2 hbound
  have hhigh : n < 2 ^ (n.log2 + 1) := ((Nat.log2_eq_iff hn).1 rfl).2
  have hwhole : floorLog2 n 1 = n.log2 := by simpa using floorLog2_mul hn Nat.one_ne_zero
  have hexponent : max ((n.log2 : Int) - 52) minExponent = n.log2 - 52 := by
    have hleast : minExponent = -1074 := rfl
    omega
  have hpower := ratioPower_bits (Nat.le_of_lt_succ hlog)
  have hsignificand : n * 2 ^ (52 - n.log2) ≠ 2 * leastNormal := by
    have hless : n * 2 ^ (52 - n.log2) < 2 ^ (n.log2 + 1) * 2 ^ (52 - n.log2) :=
      Nat.mul_lt_mul_of_pos_right hhigh (Nat.two_pow_pos _)
    have hbits : n.log2 + 1 + (52 - n.log2) = 53 := by omega
    rw [← Nat.pow_add, hbits] at hless
    exact Nat.ne_of_lt hless
  have hrange : ¬ maxExponent < (n.log2 : Int) - 52 := by
    have hgreatest : maxExponent = 971 := rfl
    omega
  simp only [ofQuotient, hn, if_false, hwhole, hexponent, hpower, Nat.mul_one, roundQuotient_one, hsignificand, hrange]

theorem ofQuotient_bound (negative : Bool) : ofQuotient negative (2 ^ 53) 1 = .finite negative (2 ^ 52) 1 := by
  cases negative <;> decide +kernel

theorem ofQuotient_represents (negative : Bool) {n : Nat} (hbound : n ≤ 2 ^ 53) :
    (ofQuotient negative n 1).Represents (signed negative n) := by
  by_cases hzero : n = 0
  · subst hzero
    exact .finite (by simp)
  by_cases htop : n = 2 ^ 53
  · rw [htop, ofQuotient_bound]
    exact .finite rfl
  · have hless := Nat.lt_of_le_of_ne hbound htop
    have hlog : n.log2 < 53 := (Nat.log2_lt hzero).2 hless
    rw [ofQuotient_exact negative hzero hless]
    refine .finite ?_
    rw [ratioPower_bits (Nat.le_of_lt_succ hlog), Nat.mul_one]

theorem ofInt_represents {n : Int} (hbound : n.natAbs ≤ 2 ^ 53) : (ofInt n).Represents n := by
  have hrepresents := ofQuotient_represents (n < 0) hbound
  rwa [signed_natAbs] at hrepresents

/-- A quotient with a whole value is the double of this value. -/
theorem ofQuotient_mul_int (n : Int) {factor : Nat} (h : factor ≠ 0) :
    ofQuotient (n * factor < 0) (n * factor).natAbs factor = ofInt n := by
  have hpositive : (0 : Int) < factor := by omega
  have hsign : n * factor < 0 ↔ n < 0 := by
    constructor
    · intro hless
      apply Int.lt_of_not_ge
      intro hnonneg
      have hproduct := Int.mul_nonneg hnonneg (Int.le_of_lt hpositive)
      omega
    · exact fun hless => Int.mul_neg_of_neg_of_pos hless hpositive
  rw [Int.natAbs_mul, Int.natAbs_natCast, ofQuotient_mul _ _ h, ofInt]
  simp only [hsign]

/-- Adding one to the double of a whole number rounds the next whole number. -/
theorem addOne_eq {number : Binary64} {n : Int} (h : number.Represents n) : number.addOne = ofInt (n + 1) := by
  cases h with
  | @finite negative significand exponent magnitude hvalue =>
    have hdown := Nat.ne_of_gt (ratioPower_pos Nat.two_pos exponent).2
    cases hpower : ratioPower 2 exponent with
    | mk up down =>
      simp only [hpower] at hvalue hdown
      have hmagnitude : (significand : Int) * up = magnitude * down := by
        rw [← Int.natCast_mul, hvalue, Int.natCast_mul]
      have hsum : (if negative then -((significand : Int) * up) else (significand : Int) * up) + down =
          (signed negative magnitude + 1) * down := by
        rw [hmagnitude, Int.add_mul, Int.one_mul]
        cases negative with
        | false => rfl
        | true => exact congrArg (· + (down : Int)) (Int.neg_mul magnitude down).symm
      simp only [addOne, hpower, hsum]
      exact ofQuotient_mul_int _ hdown

theorem addOne_bound : (ofInt (2 ^ 53)).addOne = ofInt (2 ^ 53) := by decide +kernel

end Binary64
end SchemaGuards.Decimal

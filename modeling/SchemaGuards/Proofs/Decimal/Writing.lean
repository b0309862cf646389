import SchemaGuards.Decimal.Shortest
import SchemaGuards.Proofs.Decimal.Reading

/-!
# Writing whole numbers

The text of the double of a whole number is the text of the number, so it is read as the same double. Below the bound
for integers it is written so. Above it the shortest digits are those of the number: the whole units are at least as
coarse as the places of the double, so no other number on their grids rounds to it.
-/
namespace SchemaGuards.Decimal

theorem toList_toString (n : Nat) : (toString n).toList = Nat.toDigits 10 n := by simp

theorem toList_toString_int (n : Int) : (toString n).toList = wholeText (n < 0) (Nat.toDigits 10 n.natAbs) := by
  cases n with
  | ofNat n =>
    have hsign : decide (Int.ofNat n < 0) = false := decide_eq_false (Int.not_lt.2 (Int.natCast_nonneg n))
    rw [hsign]
    exact toList_toString n
  | negSucc n =>
    have hsign : decide (Int.negSucc n < 0) = true := decide_eq_true (Int.negSucc_lt_zero n)
    rw [hsign]
    change ("-" ++ (n + 1).repr).toList = _
    rw [String.toList_append]
    exact congrArg ('-' :: ·) (toList_toString (n + 1))

theorem toDigits_mul_pow {n : Nat} (h : n ≠ 0) (zeros : Nat) :
    Nat.toDigits 10 (n * 10 ^ zeros) = Nat.toDigits 10 n ++ List.replicate zeros '0' := by
  induction zeros with
  | zero => simp
  | succ zeros ih =>
    have hpositive : 0 < n * 10 ^ zeros := Nat.mul_pos (Nat.pos_of_ne_zero h) (Nat.pow_pos (by decide))
    rw [Nat.pow_succ, ← Nat.mul_assoc, Nat.toDigits_of_base_le (by decide) (Nat.le_mul_of_pos_left _ hpositive),
      Nat.mul_div_cancel _ (by decide), Nat.mul_mod_left, ih, List.replicate_succ', List.append_assoc]
    rfl

theorem head?_toDigits {n : Nat} (h : n ≠ 0) : (Nat.toDigits 10 n).head? ≠ some '0' := by
  induction n using Nat.strongRecOn with
  | ind n ih =>
    by_cases hsmall : n < 10
    · have hdigit : ∀ m < 10, m ≠ 0 → Nat.digitChar m ≠ '0' := by decide
      rw [Nat.toDigits_of_lt_base hsmall]
      simpa using hdigit n hsmall h
    · have hrest := ih (n / 10) (by omega) (by omega)
      rw [Nat.toDigits_of_base_le (by decide) (Nat.le_of_not_lt hsmall), List.head?_append]
      cases hhead : (Nat.toDigits 10 (n / 10)).head? with
      | none => exact (Nat.toDigits_ne_nil (List.head?_eq_none_iff.1 hhead)).elim
      | some first => rwa [hhead] at hrest

/-- The text of an integer is a literal with all of its digits. -/
theorem readStrict?_toString (n : Int) :
    readStrict? (toString n).toList = some ⟨decide (n < 0), Nat.toDigits 10 n.natAbs, [], 0⟩ := by
  rw [toList_toString_int]
  exact readStrict?_wholeText _ Nat.toDigits_ne_nil
    (fun _ hc => Nat.isDigit_of_mem_toDigits (by decide) (by decide) hc)

theorem isPlain_toString (n : Int) : isPlain (toString n).toList = true := by
  rw [isPlain, readStrict?_toString, Option.any_some, Bool.not_eq_true', Literal.hasExtraZeros]
  by_cases hn : n.natAbs = 0
  · rw [hn]
    rfl
  · simp [head?_toDigits hn]

section Whole
variable {n : Nat}

theorem compareQuarters_whole {bits : Nat} (h : bits ≤ 52) (coefficient unit quarters : Nat) :
    compareQuarters ⟨coefficient, unit⟩ quarters (bits - 52) =
      compare (coefficient * 10 ^ unit * 2 ^ (54 - bits)) quarters := by
  have hplaces : (bits : Int) - 52 - 2 < 0 := by omega
  have hexponent : (-((bits : Int) - 52 - 2)).toNat = 54 - bits := by omega
  simp only [compareQuarters, ratioPower_nonneg (Int.natCast_nonneg unit), Int.toNat_natCast, ratioPower_neg hplaces,
    hexponent, Nat.mul_one]

theorem eq_of_near {value scale gap : Nat} (hscale : 4 ≤ scale) (hgap : gap ≤ 2) (hlow : n * scale - gap ≤ value * scale)
    (hhigh : value * scale ≤ n * scale + 2) : value = n := by
  have hstep : ∀ {low high : Nat}, low < high → low * scale + scale ≤ high * scale := by
    intro low high hless
    have hproduct := Nat.mul_le_mul_right scale (Nat.succ_le_of_lt hless)
    rwa [Nat.succ_mul] at hproduct
  rcases Nat.lt_trichotomy value n with hless | heq | hgreater
  · have := hstep hless
    omega
  · exact heq
  · have := hstep hgreater
    omega

/-- Of the whole numbers, only the one that a double represents rounds to it. -/
theorem roundsTo_whole (hn : n ≠ 0) (hbits : n.log2 ≤ 52) (coefficient unit : Nat) :
    roundsTo (n * 2 ^ (52 - n.log2)) (n.log2 - 52) ⟨coefficient, unit⟩ = true ↔ coefficient * 10 ^ unit = n := by
  have hquarters : 4 * (n * 2 ^ (52 - n.log2)) = n * 2 ^ (54 - n.log2) := by
    have hpower : 54 - n.log2 = 52 - n.log2 + 2 := by omega
    rw [hpower, Nat.pow_add, Nat.mul_left_comm, Nat.mul_comm 4]
  have hscale : 4 ≤ 2 ^ (54 - n.log2) := Nat.pow_le_pow_right Nat.two_pos (by omega : 2 ≤ 54 - n.log2)
  have hpositive : 4 ≤ n * 2 ^ (54 - n.log2) := Nat.le_trans hscale (Nat.le_mul_of_pos_left _ (Nat.pos_of_ne_zero hn))
  have hgap : ∀ {p : Prop} [Decidable p], (if p then 1 else 2) ≤ 2 := by
    intro p _
    split <;> decide
  simp only [roundsTo, compareQuarters_whole hbits, hquarters]
  constructor
  · intro h
    split at h
    · rw [Bool.and_eq_true, Nat.isGE_compare, Nat.isLE_compare] at h
      exact eq_of_near hscale hgap h.1 h.2
    · rw [Bool.and_eq_true, Ordering.isGT_iff_eq_gt, Ordering.isLT_iff_eq_lt, Nat.compare_eq_gt, Nat.compare_eq_lt] at h
      exact eq_of_near hscale hgap (Nat.le_of_lt h.1) (Nat.le_of_lt h.2)
  · intro h
    rw [h]
    split
    · rw [Bool.and_eq_true, Nat.isGE_compare, Nat.isLE_compare]
      omega
    · rw [Bool.and_eq_true, Ordering.isGT_iff_eq_gt, Ordering.isLT_iff_eq_lt, Nat.compare_eq_gt, Nat.compare_eq_lt]
      split <;> omega

/-- The grid of any whole unit holds at most the number itself. -/
theorem nearestOnGrid?_whole (hn : n ≠ 0) (hbits : n.log2 ≤ 52) {unit : Nat} {x : Scaled}
    (h : nearestOnGrid? (n * 2 ^ (52 - n.log2)) (n.log2 - 52) unit = some x) :
    x.exponent = unit ∧ x.coefficient * 10 ^ unit = n := by
  unfold nearestOnGrid? at h
  have hrounds := List.find?_some h
  have hmem := List.mem_of_find?_eq_some h
  have hunit : x.exponent = unit := by
    split at hmem <;>
    · simp only [List.mem_cons, List.not_mem_nil, or_false] at hmem
      rcases hmem with rfl | rfl <;> rfl
  cases x
  cases hunit
  exact ⟨rfl, (roundsTo_whole hn hbits _ _).1 hrounds⟩

theorem nearestOnGrid?_one (hn : n ≠ 0) (hbits : n.log2 ≤ 52) :
    (nearestOnGrid? (n * 2 ^ (52 - n.log2)) (n.log2 - 52) 0).isSome := by
  have hpositive : 0 < 2 ^ (52 - n.log2) := Nat.two_pow_pos _
  have hone : ratioPower 10 0 = (1, 1) := rfl
  simp only [nearestOnGrid?, ratioPower_bits hbits, hone, Nat.mul_one, Nat.mul_div_cancel _ hpositive, Nat.mul_mod_left,
    Nat.mul_zero, hpositive, if_true, List.find?_isSome]
  exact ⟨⟨n, 0⟩, List.mem_cons_self, (roundsTo_whole hn hbits n 0).2 (by simp)⟩

/-- The shortest digits of a whole number of sixteen places have no places behind the point. -/
theorem shortest_whole (hlow : 10 ^ 15 ≤ n) (hhigh : n < 2 ^ 53) :
    ∃ unit : Nat, (shortest (n * 2 ^ (52 - n.log2)) (n.log2 - 52)).exponent = unit ∧
      (shortest (n * 2 ^ (52 - n.log2)) (n.log2 - 52)).coefficient * 10 ^ unit = n := by
  have hn : n ≠ 0 := by omega
  have hbits : n.log2 ≤ 52 := Nat.le_of_lt_succ ((Nat.log2_lt hn).2 hhigh)
  have hplaces : decimalPlaces (n * 2 ^ (52 - n.log2)) (2 ^ (52 - n.log2)) = 16 := by
    have hlength : (toString n).length = 16 := by
      apply Nat.le_antisymm
      · exact length_le_of_lt_pow (by decide) (Nat.lt_trans hhigh (by decide))
      · apply Nat.le_of_not_lt
        intro hshort
        have := Nat.lt_of_lt_of_le (lt_pow_length n) (Nat.pow_le_pow_right (by decide) (Nat.le_of_lt_succ hshort))
        omega
    simp only [decimalPlaces, Nat.mul_div_cancel _ (Nat.two_pow_pos _), hn, if_false, hlength]
    rfl
  -- a grid of a whole unit is hit before the tenths are tried
  obtain ⟨x, hx⟩ : ∃ x, (List.range 16).findSome? (fun k : Nat =>
      nearestOnGrid? (n * 2 ^ (52 - n.log2)) (n.log2 - 52) (16 - 1 - k)) = some x := by
    rw [← Option.isSome_iff_exists, List.findSome?_isSome_iff]
    exact ⟨15, by decide, nearestOnGrid?_one hn hbits⟩
  have hshortest : shortest (n * 2 ^ (52 - n.log2)) (n.log2 - 52) = x := by
    simp only [shortest, ratioPower_bits hbits, Nat.mul_one, hplaces, List.range_succ (n := 16), List.findSome?_append,
      hx, Option.some_or, Option.getD_some]
  obtain ⟨k, hk, hgrid⟩ := List.exists_of_findSome?_eq_some hx
  have hunit : (16 - 1 - (k : Int)) = (15 - k : Nat) := by
    have := List.mem_range.1 hk
    omega
  rw [hunit] at hgrid
  rw [hshortest]
  exact ⟨15 - k, nearestOnGrid?_whole hn hbits hgrid⟩

theorem positional_shortest (hlow : 10 ^ 15 ≤ n) (hhigh : n < 2 ^ 53) :
    (positional (shortest (n * 2 ^ (52 - n.log2)) (n.log2 - 52))).toList = Nat.toDigits 10 n := by
  obtain ⟨unit, hunit, hvalue⟩ := shortest_whole hlow hhigh
  generalize shortest (n * 2 ^ (52 - n.log2)) (n.log2 - 52) = x at hunit hvalue
  have hcoefficient : x.coefficient ≠ 0 := by
    intro hzero
    rw [hzero, Nat.zero_mul] at hvalue
    omega
  rw [positional, hunit, if_pos (Int.natCast_nonneg unit), String.toList_ofList, toList_toString, Int.toNat_natCast,
    ← toDigits_mul_pow hcoefficient, hvalue]

end Whole

namespace Binary64

/-- A double is written as an integer if it is a small one. -/
theorem smallInteger?_eq {number : Binary64} {n : Int} (h : number.Represents n) :
    number.smallInteger? = if n.natAbs < integerBound then some n else none := by
  cases h with
  | @finite negative significand exponent magnitude hvalue =>
    have hdown := (ratioPower_pos Nat.two_pos exponent).2
    have hmagnitude : (signed negative magnitude).natAbs = magnitude := by cases negative <;> simp [signed]
    simp only [smallInteger?, hvalue, Nat.mul_mod_left, Nat.mul_div_cancel _ hdown, hmagnitude]
    simp [signed]

/-- The text of the double of a whole number is that of the number. -/
theorem text_ofInt {n : Int} (hbound : n.natAbs ≤ 2 ^ 53) : (ofInt n).text = toString n := by
  have hsmall := smallInteger?_eq (ofInt_represents hbound)
  by_cases hbelow : n.natAbs < integerBound
  · rw [if_pos hbelow] at hsmall
    cases hnumber : ofInt n with
    | finite negative significand exponent =>
      rw [hnumber] at hsmall
      simp only [text, hsmall]
    | nan | infinite => simp [hnumber, smallInteger?] at hsmall
  by_cases htop : n.natAbs = 2 ^ 53
  · rcases Int.natAbs_eq_iff.1 htop with rfl | rfl <;> decide +kernel
  · rw [if_neg hbelow] at hsmall
    have hlow : 10 ^ 15 ≤ n.natAbs := Nat.le_of_not_lt hbelow
    have hexact : ofInt n = _ := ofQuotient_exact (n < 0) (by omega) (Nat.lt_of_le_of_ne hbound htop)
    rw [hexact] at hsmall ⊢
    apply String.toList_inj.1
    simp only [text, hsmall, String.toList_append, positional_shortest hlow (Nat.lt_of_le_of_ne hbound htop),
      toList_toString_int]
    unfold wholeText
    split <;> rfl

/-- The text of the double of a whole number is read as this double. -/
theorem readStrict?_text {n : Int} (hbound : n.natAbs ≤ 2 ^ 53) :
    ∃ literal, readStrict? (ofInt n).text.toList = some literal ∧ ofLiteral literal = ofInt n := by
  refine ⟨_, text_ofInt hbound ▸ readStrict?_toString n, ?_⟩
  exact ofLiteral_eq (writes_digits ((digitValue_eq _).trans Nat.ofDigitChars_ten_toDigits))
    (Nat.lt_of_le_of_lt hbound (by decide))

end Binary64
end SchemaGuards.Decimal

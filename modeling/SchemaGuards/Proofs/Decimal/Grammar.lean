import Mathlib.Computability.RegularExpressions
import Mathlib.Data.List.DropRight
import Mathlib.Tactic.IntervalCases
import SchemaGuards.Proofs.Format.Forms

/-!
# The grammar of decimal literals

The literals that documents may hold are those of `-?digits[.digits][(e|E)[+-]digits]`, where each group
of digits has at least one ASCII digit. The reader takes off one part after the other, and a text is left
over when it stops early. No part begins like the one behind it, so that what the reader takes off is the
only part that fits, and it accepts exactly the texts of the grammar. Numbers in attributes are such texts
between blanks.
-/
namespace SchemaGuards.Decimal
open RegularExpression

section Grammar

def oneOf (accepted : List Char) : RegularExpression Char :=
  accepted.foldr (fun c others => char c + others) 0

def optional (part : RegularExpression Char) : RegularExpression Char := 1 + part

def digitChars : List Char := ['0', '1', '2', '3', '4', '5', '6', '7', '8', '9']

def digitsGrammar : RegularExpression Char := oneOf digitChars * star (oneOf digitChars)

def fractionGrammar : RegularExpression Char := oneOf ['.'] * digitsGrammar

def exponentGrammar : RegularExpression Char :=
  oneOf ['e', 'E'] * (optional (oneOf ['+', '-']) * digitsGrammar)

/-- A whole literal: `-?digits[.digits][(e|E)[+-]digits]`. -/
def literalGrammar : RegularExpression Char :=
  optional (oneOf ['-']) * (digitsGrammar * (optional fractionGrammar * optional exponentGrammar))

end Grammar

section Parts
variable {accepted : List Char} {part : RegularExpression Char} {cs : List Char}

theorem mem_oneOf_iff : cs ∈ (oneOf accepted).matches' ↔ ∃ c ∈ accepted, cs = [c] := by
  induction accepted with
  | nil => simp [oneOf]
  | cons first rest ih =>
    have hrest : oneOf (first :: rest) = char first + oneOf rest := rfl
    rw [hrest, matches'_add, Language.mem_add, ih, matches'_char, List.exists_mem_cons_iff]
    rfl

theorem mem_optional_iff : cs ∈ (optional part).matches' ↔ cs = [] ∨ cs ∈ part.matches' := by
  rw [optional, matches'_add, Language.mem_add, matches'_epsilon, Language.mem_one]

theorem mem_oneOf_mul_iff : cs ∈ (oneOf accepted * part).matches' ↔
    ∃ c ∈ accepted, ∃ rest ∈ part.matches', c :: rest = cs := by
  rw [matches'_mul, Language.mem_mul]
  simp [mem_oneOf_iff]

theorem mem_optional_mul_iff {next : RegularExpression Char} : cs ∈ (optional part * next).matches' ↔
    cs ∈ next.matches' ∨ cs ∈ (part * next).matches' := by
  rw [matches'_mul, matches'_mul, Language.mem_mul, Language.mem_mul]
  simp only [mem_optional_iff, or_and_right, exists_or, exists_eq_left, List.nil_append, exists_eq_right]

theorem isDigit_iff {c : Char} : c.isDigit = true ↔ c ∈ digitChars := by
  constructor
  · intro h
    have hbounds : 48 ≤ c.toNat ∧ c.toNat ≤ 57 := by
      simpa [Char.isDigit, UInt32.le_iff_toNat_le] using h
    have hall : ∀ n, 48 ≤ n → n ≤ 57 → Char.ofNat n ∈ digitChars := by
      intro n hlow hhigh
      interval_cases n <;> decide
    have hmem := hall c.toNat hbounds.1 hbounds.2
    rwa [Char.ofNat_toNat] at hmem
  · have hall : digitChars.all Char.isDigit = true := by decide
    exact List.all_eq_true.1 hall c

theorem mem_digitsGrammar_iff : cs ∈ digitsGrammar.matches' ↔ cs ≠ [] ∧ ∀ c ∈ cs, c.isDigit = true := by
  have hstar : ∀ ds : List Char, ds ∈ (star (oneOf digitChars)).matches' ↔ ∀ c ∈ ds, c.isDigit = true := by
    intro ds
    rw [matches'_star, Language.mem_kstar]
    constructor
    · rintro ⟨pieces, rfl, hpieces⟩ c hc
      obtain ⟨piece, hpiece, hc⟩ := List.mem_flatten.1 hc
      obtain ⟨d, hd, rfl⟩ := mem_oneOf_iff.1 (hpieces piece hpiece)
      rw [List.mem_singleton.1 hc]
      exact isDigit_iff.2 hd
    · intro h
      refine ⟨ds.map (fun c => [c]), ?_, ?_⟩
      · rw [← List.flatMap_def, List.flatMap_singleton']
      intro piece hpiece
      obtain ⟨c, hc, rfl⟩ := List.mem_map.1 hpiece
      exact mem_oneOf_iff.2 ⟨c, isDigit_iff.1 (h c hc), rfl⟩
  rw [digitsGrammar, mem_oneOf_mul_iff]
  constructor
  · rintro ⟨c, hc, rest, hrest, rfl⟩
    exact ⟨List.cons_ne_nil _ _, List.forall_mem_cons.2 ⟨isDigit_iff.2 hc, (hstar rest).1 hrest⟩⟩
  · rintro ⟨hne, hdigits⟩
    obtain ⟨c, rest, rfl⟩ := List.exists_cons_of_ne_nil hne
    rw [List.forall_mem_cons] at hdigits
    exact ⟨c, isDigit_iff.1 hdigits.1, rest, (hstar rest).2 hdigits.2, rfl⟩

end Parts

section Reader
variable {part : RegularExpression Char} {cs : List Char}

/-- Digits in front are taken off as far as they go, when no text of the next part begins with one. -/
theorem mem_digitsGrammar_mul_iff (hnext : ∀ c rest, c :: rest ∈ part.matches' → c.isDigit = false) :
    cs ∈ (digitsGrammar * part).matches' ↔ digits cs ≠ [] ∧ afterDigits cs ∈ part.matches' := by
  rw [matches'_mul, Language.mem_mul]
  constructor
  · rintro ⟨ds, hds, rest, hrest, rfl⟩
    rw [mem_digitsGrammar_iff] at hds
    have hstop : digits rest = [] ∧ afterDigits rest = rest := by
      cases rest with
      | nil => exact ⟨rfl, rfl⟩
      | cons c more => simp [digits, afterDigits, hnext c more hrest]
    have hsplit : digits (ds ++ rest) = ds ∧ afterDigits (ds ++ rest) = rest := by
      rw [digits, List.takeWhile_append_of_pos hds.2, afterDigits, List.dropWhile_append_of_pos hds.2]
      simpa [digits, afterDigits] using hstop
    rw [hsplit.1, hsplit.2]
    exact ⟨hds.1, hrest⟩
  · rintro ⟨hne, hrest⟩
    have hdigits : digits cs ∈ digitsGrammar.matches' :=
      mem_digitsGrammar_iff.2 ⟨hne, fun c hc => List.mem_takeWhile_imp hc⟩
    exact ⟨digits cs, hdigits, afterDigits cs, hrest, List.takeWhile_append_dropWhile⟩

theorem mem_sign_mul_iff {accepted : List Char} (hnext : ∀ c ∈ accepted, ∀ rest, c :: rest ∉ part.matches') :
    cs ∈ (optional (oneOf accepted) * part).matches' ↔ (readSign accepted cs).2 ∈ part.matches' := by
  rw [mem_optional_mul_iff, mem_oneOf_mul_iff]
  cases cs with
  | nil => simp [readSign]
  | cons first rest =>
    by_cases hfirst : first ∈ accepted
    · simp [readSign, hfirst, hnext first hfirst]
    · have hother : ∀ c ∈ accepted, c ≠ first := fun c hc heq => hfirst (heq ▸ hc)
      simp only [readSign, if_neg hfirst, List.cons.injEq, or_iff_left_iff_imp]
      rintro ⟨c, hc, _, _, heq, _⟩
      exact absurd heq (hother c hc)

theorem not_mem_digitsGrammar {c : Char} (hc : c.isDigit = false) (rest : List Char) :
    c :: rest ∉ digitsGrammar.matches' := by
  intro hmem
  have hdigit := (mem_digitsGrammar_iff.1 hmem).2 c List.mem_cons_self
  rw [hc] at hdigit
  cases hdigit

theorem mark_of_mem_exponent {c : Char} {rest : List Char} (h : c :: rest ∈ (optional exponentGrammar).matches') :
    c = 'e' ∨ c = 'E' := by
  obtain hnil | hmem := mem_optional_iff.1 h
  · cases hnil
  · obtain ⟨mark, hmark, _, _, heq⟩ := mem_oneOf_mul_iff.1 hmem
    cases heq
    simpa using hmark

theorem mem_exponent_cons_iff {mark : Char} {rest : List Char} (hmark : mark = 'e' ∨ mark = 'E') :
    mark :: rest ∈ (optional exponentGrammar).matches' ↔
      (readSign ['+', '-'] rest).2 ∈ digitsGrammar.matches' := by
  have hsigns : ∀ c ∈ ['+', '-'], ∀ more, c :: more ∉ digitsGrammar.matches' := by
    intro c hc more
    apply not_mem_digitsGrammar
    obtain rfl | rfl := List.mem_pair.1 hc
    · decide
    · decide
  rw [mem_optional_iff, exponentGrammar, mem_oneOf_mul_iff, ← mem_sign_mul_iff hsigns]
  constructor
  · rintro (hnil | ⟨_, _, _, hmem, heq⟩)
    · cases hnil
    · cases heq
      exact hmem
  · intro hmem
    exact .inr ⟨mark, by simpa using hmark, rest, hmem, rfl⟩

theorem readExponent?_isSome_iff : (readExponent? cs).isSome ↔ cs ∈ (optional exponentGrammar).matches' := by
  cases cs with
  | nil => simp [readExponent?, mem_optional_iff]
  | cons mark rest =>
    by_cases hmark : mark = 'e' ∨ mark = 'E'
    · have hall : ∀ body : List Char, afterDigits body = [] ↔ ∀ c ∈ body, c.isDigit = true :=
        fun body => List.dropWhile_eq_nil_iff
      have hnone : ∀ body : List Char, afterDigits body = [] → (digits body = [] ↔ body = []) := by
        intro body hbody
        rw [digits, List.takeWhile_eq_self_iff.2 ((hall body).1 hbody)]
      rw [mem_exponent_cons_iff hmark, mem_digitsGrammar_iff, ← hall]
      simp only [readExponent?, Bool.or_eq_true, decide_eq_true_eq, hmark, if_true]
      by_cases hafter : afterDigits (readSign ['+', '-'] rest).2 = []
      · simp [hafter, hnone _ hafter]
      · simp [hafter]
    · have hno : mark :: rest ∉ (optional exponentGrammar).matches' := fun h => hmark (mark_of_mem_exponent h)
      simp [readExponent?, hmark, hno]

theorem mem_tail_iff : cs ∈ (optional fractionGrammar * optional exponentGrammar).matches' ↔
    cs ∈ (optional exponentGrammar).matches' ∨
      ∃ rest, '.' :: rest = cs ∧ digits rest ≠ [] ∧ afterDigits rest ∈ (optional exponentGrammar).matches' := by
  have hexponent : ∀ c rest, c :: rest ∈ (optional exponentGrammar).matches' → c.isDigit = false := by
    intro c rest h
    obtain rfl | rfl := mark_of_mem_exponent h <;> decide
  have hfraction : (fractionGrammar * optional exponentGrammar).matches' =
      (oneOf ['.'] * (digitsGrammar * optional exponentGrammar)).matches' := by
    simp only [fractionGrammar, matches'_mul, mul_assoc]
  rw [mem_optional_mul_iff, hfraction, mem_oneOf_mul_iff]
  simp only [mem_digitsGrammar_mul_iff hexponent, List.mem_singleton, exists_eq_left, and_comm]

theorem not_digit_of_mem_tail {c : Char} {rest : List Char}
    (h : c :: rest ∈ (optional fractionGrammar * optional exponentGrammar).matches') : c.isDigit = false := by
  obtain hexponent | ⟨_, hpoint, _⟩ := mem_tail_iff.1 h
  · obtain rfl | rfl := mark_of_mem_exponent hexponent <;> decide
  · cases hpoint
    decide

/-- The digits of a literal and what stands behind them are read as far as they are of the grammar. -/
theorem readMantissa_iff {body whole rest : List Char} {fraction : Option (List Char)}
    (h : readMantissa body = (whole, fraction, rest)) :
    (whole ≠ [] ∧ fraction ≠ some [] ∧ (readExponent? rest).isSome) ↔
      body ∈ (digitsGrammar * (optional fractionGrammar * optional exponentGrammar)).matches' := by
  rw [mem_digitsGrammar_mul_iff (fun _ _ => not_digit_of_mem_tail), mem_tail_iff]
  simp only [← readExponent?_isSome_iff]
  unfold readMantissa at h
  split at h
  · next more hafter =>
    cases h
    have hpoint : ¬ (readExponent? ('.' :: more)).isSome := by simp [readExponent?]
    simp [hafter, hpoint]
  · next hafter =>
    cases h
    have hnone : ¬ ∃ more, '.' :: more = afterDigits body ∧ digits more ≠ [] ∧
        (readExponent? (afterDigits more)).isSome := by
      rintro ⟨more, heq, _⟩
      exact hafter more heq.symm
    simp [hnone]

/-- A text is recognised as a literal exactly when the whole of it is of the grammar. -/
theorem isLiteral_iff : isLiteral cs = true ↔ cs ∈ literalGrammar.matches' := by
  have hsign : ∀ c ∈ ['-'], ∀ rest, c :: rest ∉
      (digitsGrammar * (optional fractionGrammar * optional exponentGrammar)).matches' := by
    intro c hc rest hmem
    rw [List.mem_singleton.1 hc, mem_digitsGrammar_mul_iff (fun _ _ => not_digit_of_mem_tail)] at hmem
    exact hmem.1 rfl
  rw [literalGrammar, mem_sign_mul_iff hsign, isLiteral, readStrict?]
  obtain ⟨negative, body⟩ := readSign ['-'] cs
  cases hmantissa : readMantissa body with
  | mk whole parts =>
    rw [← readMantissa_iff hmantissa]
    by_cases hparts : whole = [] ∨ parts.1 = some []
    · have hnot : ¬ (whole ≠ [] ∧ parts.1 ≠ some [] ∧ (readExponent? parts.2).isSome) :=
        fun h => hparts.elim h.1 h.2.1
      simp [hmantissa, hparts, hnot]
    · rw [not_or] at hparts
      simp [hmantissa, hparts]

end Reader

section Blanks
open Text
variable {cs : List Char}

theorem trimBoth_split (cs : List Char) : ∃ before behind, cs = before ++ trimBoth cs ++ behind ∧
    ∀ c ∈ before ++ behind, isBlank c = true := by
  have hfront : cs.takeWhile isBlank ++ trimLeft cs = cs := List.takeWhile_append_dropWhile
  have hback : trimBoth cs ++ ((trimLeft cs).reverse.takeWhile isBlank).reverse = trimLeft cs := by
    rw [trimBoth, trimRight, ← List.reverse_append, List.takeWhile_append_dropWhile, List.reverse_reverse]
  refine ⟨cs.takeWhile isBlank, ((trimLeft cs).reverse.takeWhile isBlank).reverse, ?_, ?_⟩
  · rw [List.append_assoc, hback, hfront]
  · intro c hc
    rw [List.mem_append, List.mem_reverse] at hc
    exact hc.elim List.mem_takeWhile_imp List.mem_takeWhile_imp

theorem not_blank_of_trimBoth {c : Char} (hc : c ∈ (trimBoth cs).head? ∨ c ∈ (trimBoth cs).getLast?) :
    isBlank c = false := by
  obtain hc | hc := hc
  · -- Nothing is taken from the front of what trimming on the right leaves.
    have hprefix : trimBoth cs <+: trimLeft cs := List.rdropWhile_prefix isBlank _
    have hhead : (trimLeft cs).head? = some c := by
      obtain ⟨behind, hbehind⟩ := hprefix
      rw [← hbehind, List.head?_append, Option.mem_def.1 hc]
      rfl
    have hstop := List.head?_dropWhile_not isBlank cs
    rw [trimLeft] at hhead
    rw [hhead] at hstop
    simpa using hstop
  · have hstop := List.head?_dropWhile_not isBlank (trimLeft cs).reverse
    rw [trimBoth, trimRight, List.getLast?_reverse, Option.mem_def] at hc
    rw [hc] at hstop
    simpa using hstop

end Blanks

/-- A text is recognised as a literal exactly when it is one of the grammar. A number that is read from an
attribute is such a text, and is the attribute's value up to the blanks around it. -/
theorem literals_of_grammar :
    (∀ s : String, isLiteral s.toList = true ↔ s.toList ∈ literalGrammar.matches') ∧
    ∀ element key value text, Draft.readNumber element key value = .ok text →
      text.toList ∈ literalGrammar.matches' ∧
      (∀ c, c ∈ text.toList.head? ∨ c ∈ text.toList.getLast? → Text.isBlank c = false) ∧
      ∃ before behind, value.toList = before ++ text.toList ++ behind ∧
        ∀ c ∈ before ++ behind, Text.isBlank c = true := by
  refine ⟨fun s => isLiteral_iff, ?_⟩
  intro element key value text hread
  obtain ⟨htrimmed, hfinite⟩ := Draft.readNumber_eq_ok.1 hread
  have hliteral : isLiteral text.toList = true := by
    rw [isFiniteLiteral] at hfinite
    rw [isLiteral]
    cases hstrict : readStrict? text.toList with
    | some literal => rfl
    | none => simp [hstrict] at hfinite
  have hchars : text.toList = Text.trimBoth value.toList := by
    rw [htrimmed, Text.trim, String.toList_ofList]
  refine ⟨isLiteral_iff.1 hliteral, ?_, ?_⟩
  · intro c hc
    rw [hchars] at hc
    exact not_blank_of_trimBoth hc
  · rw [hchars]
    exact trimBoth_split value.toList

/-- The number in a value with blanks around it. -/
theorem literals_of_grammar_blanks : Draft.readNumber "number" "value" " 7 " = .ok "7" ∧
    "7".toList ∈ literalGrammar.matches' ∧ ∃ before behind, " 7 ".toList = before ++ "7".toList ++ behind ∧
      ∀ c ∈ before ++ behind, Text.isBlank c = true := by
  have hread : Draft.readNumber "number" "value" " 7 " = .ok "7" := by decide
  have hnumber := literals_of_grammar.2 "number" "value" " 7 " "7" hread
  exact ⟨hread, hnumber.1, hnumber.2.2⟩

end SchemaGuards.Decimal

import SchemaGuards.Proofs.Decimal.Reading
import SchemaGuards.Text.Quoted

/-!
# Script literals

A literal in a script is a single-quoted text, with the escapes that quoting writes, or a decimal number behind an
optional minus sign. A script does not accept a zero in front of further digits, as in the octal numbers of old. What
is quoted is read back as it was.
-/
namespace SchemaGuards.Script
open Decimal

inductive Constant where
  | text (value : String)
  | number (value : Binary64)
deriving DecidableEq, Repr

def unescape? (mark : Char) : Option Char :=
  if mark = '\\' then some '\\'
  else if mark = '\'' then some '\''
  else if mark = 'n' then some '\n'
  else if mark = 'r' then some '\r'
  else none

/-- The text up to a quote that ends the literal; it stays on one line. -/
def readQuoted? : List Char → Option (List Char)
  | [] => none
  | c :: rest =>
    if c = '\'' then if rest.isEmpty then some [] else none
    else if c = '\n' || c = '\r' then none
    else if c = '\\' then
      match rest with
      | [] => none
      | mark :: rest =>
        match unescape? mark with
        | some c => (readQuoted? rest).map (c :: ·)
        | none => none
    else (readQuoted? rest).map (c :: ·)

/-- The text inside a literal that begins a text, up to its closing quote, and what stands behind the quote. -/
def takeQuoted? : List Char → Option (List Char × List Char)
  | [] => none
  | c :: rest =>
    if c = '\'' then some ([], rest)
    else if c = '\n' || c = '\r' then none
    else if c = '\\' then
      match rest with
      | [] => none
      | mark :: rest =>
        match unescape? mark with
        | some c => (takeQuoted? rest).map (Prod.map (c :: ·) id)
        | none => none
    else (takeQuoted? rest).map (Prod.map (c :: ·) id)

/-- A decimal number without zeros that could be left out. -/
def readNumber? (cs : List Char) : Option Binary64 :=
  if isPlain cs then (readStrict? cs).map Binary64.ofLiteral else none

def readLiteral? (text : String) : Option Constant :=
  match text.toList with
  | [] => none
  | c :: rest =>
    if c = '\'' then (readQuoted? rest).map (fun cs => .text (String.ofList cs))
    else (readNumber? (c :: rest)).map .number

section
variable {c mark : Char}

theorem takeQuoted?_mark (h : unescape? mark = some c) (rest : List Char) :
    takeQuoted? ('\\' :: mark :: rest) = (takeQuoted? rest).map (Prod.map (c :: ·) id) := by
  simp [takeQuoted?.eq_def ('\\' :: mark :: rest), h]

theorem takeQuoted?_plain (hquote : c ≠ '\'') (hbreak : ¬ (c = '\n' || c = '\r') = true) (hslash : c ≠ '\\')
    (rest : List Char) : takeQuoted? (c :: rest) = (takeQuoted? rest).map (Prod.map (c :: ·) id) := by
  simp [takeQuoted?.eq_def (c :: rest), hquote, hbreak, hslash]

theorem takeQuoted?_escape (c : Char) (rest : List Char) :
    takeQuoted? (Text.escape c ++ rest) = (takeQuoted? rest).map (Prod.map (c :: ·) id) := by
  unfold Text.escape
  split
  · next h => exact takeQuoted?_mark (by rw [h]; rfl) rest
  split
  · next h => exact takeQuoted?_mark (by rw [h]; rfl) rest
  split
  · next h => exact takeQuoted?_mark (by rw [h]; rfl) rest
  split
  · next h => exact takeQuoted?_mark (by rw [h]; rfl) rest
  · next hslash hquote hfeed hreturn => exact takeQuoted?_plain hquote (by simp [hfeed, hreturn]) hslash rest

end

theorem takeQuoted?_flatMap_escape (cs rest : List Char) :
    takeQuoted? (cs.flatMap Text.escape ++ '\'' :: rest) = some (cs, rest) := by
  induction cs with
  | nil => simp [takeQuoted?.eq_def]
  | cons c cs ih =>
    rw [List.flatMap_cons, List.append_assoc, takeQuoted?_escape, ih]
    rfl

theorem escape_of_unescape? {mark c : Char} (h : unescape? mark = some c) : Text.escape c = ['\\', mark] := by
  unfold unescape? at h
  grind [Text.escape]

/-- What is read up to the quote is what quoting writes, so that a literal is written in one way only. -/
theorem eq_escape_of_takeQuoted? {cs value rest : List Char} (h : takeQuoted? cs = some (value, rest)) :
    cs = value.flatMap Text.escape ++ '\'' :: rest := by
  fun_induction takeQuoted? cs generalizing value with
  | case1 => cases h
  | case2 cs =>
    cases h
    rfl
  | case3 => cases h
  | case4 => cases h
  | case5 mark cs c hmark _ _ ih =>
    rcases Option.map_eq_some_iff.1 h with ⟨⟨read, behind⟩, hread, heq⟩
    cases heq
    rw [List.flatMap_cons, escape_of_unescape? hmark, ih hread]
    rfl
  | case6 => cases h
  | case7 c cs hquote hbreak hslash ih =>
    rcases Option.map_eq_some_iff.1 h with ⟨⟨read, behind⟩, hread, heq⟩
    cases heq
    simp only [Bool.or_eq_true, decide_eq_true_eq, not_or] at hbreak
    rw [List.flatMap_cons, ih hread]
    simp [Text.escape, hquote, hbreak, hslash]

/-- A literal that is a whole text has nothing behind its quote. -/
def whole? (taken : List Char × List Char) : Option (List Char) := if taken.2.isEmpty then some taken.1 else none

theorem whole?_cons (c : Char) (taken : List Char × List Char) :
    whole? (Prod.map (c :: ·) id taken) = (whole? taken).map (c :: ·) := by
  unfold whole?
  rcases taken with ⟨value, _ | _⟩ <;> rfl

theorem readQuoted?_eq (cs : List Char) : readQuoted? cs = (takeQuoted? cs).bind whole? := by
  fun_induction readQuoted? cs with
  | case1 => rfl
  | case2 rest hrest | case3 rest hrest => simp [takeQuoted?.eq_def ('\'' :: rest), whole?, -List.isEmpty_iff, hrest]
  | case4 c rest hquote hbreak => simp [takeQuoted?.eq_def (c :: rest), hquote, hbreak]
  | case5 => rfl
  | case6 mark rest c hmark _ _ ih =>
    simp only [ih, takeQuoted?_mark hmark, Option.map_bind, Option.bind_map, Function.comp_def, whole?_cons]
  | case7 mark rest hmark => simp [takeQuoted?.eq_def ('\\' :: mark :: rest), hmark]
  | case8 c rest hquote hbreak hslash ih =>
    simp only [ih, takeQuoted?_plain hquote hbreak hslash, Option.map_bind, Option.bind_map, Function.comp_def,
      whole?_cons]

/-- A quoted text is read as the text. -/
theorem readLiteral?_quote (value : String) : readLiteral? (Text.quote value) = some (.text value) := by
  simp [readLiteral?, Text.quoteChars, readQuoted?_eq, takeQuoted?_flatMap_escape, whole?]

/-- A number is read by the strict grammar. -/
theorem readLiteral?_eq {text : String} {literal : Literal} (h : readStrict? text.toList = some literal) :
    readLiteral? text = if isPlain text.toList then some (.number (Binary64.ofLiteral literal)) else none := by
  unfold readLiteral?
  cases hcs : text.toList with
  | nil => simp [hcs, readStrict?, readSign, readMantissa, digits, afterDigits] at h
  | cons c rest =>
    rw [hcs] at h
    have hquote : c ≠ '\'' := by
      rintro rfl
      simp [readStrict?, readSign, readMantissa, digits, afterDigits] at h
    simp only [hquote, if_false, readNumber?, h, Option.map_some]
    split <;> rfl

end SchemaGuards.Script

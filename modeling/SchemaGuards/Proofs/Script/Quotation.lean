import SchemaGuards.Proofs.Lines.Comments
import SchemaGuards.Proofs.Script.Literal
import SchemaGuards.Text.Disjunction

/-!
# Quoted texts

A quoted text can be followed by anything: a script reads back what was quoted and stops behind the closing quote, and
the scan for disjunctions passes over it as over one character. So neither of them can be led astray by what a
document writes into a name.
-/
namespace SchemaGuards

namespace Script

/-- The literal that begins a text: what it stands for, and the text behind it. -/
def leadingLiteral? (text : String) : Option (String × String) :=
  match text.toList with
  | [] => none
  | c :: rest => if c = '\'' then (takeQuoted? rest).map (Prod.map String.ofList String.ofList) else none

/-- A literal stands for a text exactly if it is the quoted text. -/
theorem leadingLiteral?_eq_some_iff {text value rest : String} :
    leadingLiteral? text = some (value, rest) ↔ text = Text.quote value ++ rest := by
  rw [← String.toList_inj, String.toList_append, Text.toList_quote, Text.quoteChars, leadingLiteral?]
  constructor
  · intro h
    split at h
    · cases h
    · next c behind htext =>
      split at h
      · next hquote =>
        rcases Option.map_eq_some_iff.1 h with ⟨⟨cs, others⟩, htake, heq⟩
        cases heq
        rw [htext, hquote, eq_escape_of_takeQuoted? htake]
        simp
      · cases h
  · intro h
    have htake := takeQuoted?_flatMap_escape value.toList rest.toList
    rw [h]
    simp [htake]

end Script

namespace Text

namespace OrScan
variable {scan next : OrScan} {c : Char}

theorem step_unescaped (h : scan.step c = some next) (hscan : scan.quoted = none → scan.escaped = false) :
    next.quoted = none → next.escaped = false := by
  unfold step at h
  grind

/-- Behind a literal no character is escaped, whatever has been read. -/
theorem run_unescaped {cs : List Char} (h : scan.run cs = some next)
    (hscan : scan.quoted = none → scan.escaped = false) : next.quoted = none → next.escaped = false := by
  induction cs generalizing scan with
  | nil =>
    cases h
    exact hscan
  | cons c cs ih =>
    rw [run_cons, Option.bind_eq_some_iff] at h
    rcases h with ⟨middle, hstep, hrest⟩
    exact ih hrest (step_unescaped hstep hscan)

theorem run_escape (depth : Nat) (last c : Char) :
    ∃ later, run ⟨depth, some '\'', false, last⟩ (escape c) = some ⟨depth, some '\'', false, later⟩ := by
  unfold escape
  split
  · exact ⟨_, rfl⟩
  split
  · exact ⟨_, rfl⟩
  split
  · exact ⟨_, rfl⟩
  split
  · exact ⟨_, rfl⟩
  · next hslash hquote _ _ => exact ⟨c, by simp [step, hslash, hquote]⟩

theorem run_flatMap_escape (depth : Nat) (last : Char) (cs : List Char) :
    ∃ later, run ⟨depth, some '\'', false, last⟩ (cs.flatMap escape) = some ⟨depth, some '\'', false, later⟩ := by
  induction cs generalizing last with
  | nil => exact ⟨last, rfl⟩
  | cons c cs ih =>
    rcases run_escape depth last c with ⟨middle, hfirst⟩
    rcases ih middle with ⟨later, hrest⟩
    exact ⟨later, by rw [List.flatMap_cons, run_append, hfirst, Option.bind_some, hrest]⟩

theorem run_quote (hquoted : scan.quoted = none) (hescaped : scan.escaped = false) (s : String) :
    scan.run (quote s).toList = some { scan with last := '\'' } := by
  rcases scan with ⟨depth, quoted, escaped, last⟩
  cases hquoted
  cases hescaped
  rcases run_flatMap_escape depth '\'' s.toList with ⟨later, hinside⟩
  have hopening : step ⟨depth, none, false, last⟩ '\'' = some ⟨depth, some '\'', false, '\''⟩ := rfl
  rw [toList_quote, quoteChars, List.cons_append, run_cons, hopening, Option.bind_some, run_append, hinside]
  rfl

end OrScan

/-- A text is the literal of what is quoted, followed by anything, exactly if it begins with the quoted text. The
literal stands on one line. The scan for disjunctions passes over it in any state outside of literals, where nothing
that has been read leaves a character escaped. -/
theorem quote_delimited (s : String) :
    (∀ text rest, Script.leadingLiteral? text = some (s, rest) ↔ text = quote s ++ rest) ∧
      IsLine (quote s) ∧
      (∀ scan : OrScan, scan.quoted = none → scan.escaped = false →
        scan.run (quote s).toList = some { scan with last := '\'' }) ∧
      ∀ before scan, OrScan.run {} before = some scan → scan.quoted = none → scan.escaped = false :=
  ⟨fun _ _ => Script.leadingLiteral?_eq_some_iff, isLine_quote s,
    fun _ hquoted hescaped => OrScan.run_quote hquoted hescaped s,
    fun _ _ hbefore => OrScan.run_unescaped hbefore (fun _ => rfl)⟩

/-- A quote, brackets, bars and a backslash at the end, quoted behind two open brackets. -/
theorem quote_delimited_index :
    OrScan.run {} "f(t[".toList = some ⟨2, none, false, '['⟩ ∧
      Script.leadingLiteral? (quote "it's) || ]\\" ++ "] || x)") = some ("it's) || ]\\", "] || x)") ∧
      OrScan.run ⟨2, none, false, '['⟩ (quote "it's) || ]\\").toList = some ⟨2, none, false, '\''⟩ := by
  have hbefore : OrScan.run {} "f(t[".toList = some ⟨2, none, false, '['⟩ := by decide
  rcases quote_delimited "it's) || ]\\" with ⟨hread, _, hscan, hunescaped⟩
  exact ⟨hbefore, (hread _ _).2 rfl, hscan _ rfl (hunescaped _ _ hbefore rfl)⟩

end Text
end SchemaGuards

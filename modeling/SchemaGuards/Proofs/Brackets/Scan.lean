import SchemaGuards.Layout
import SchemaGuards.Text.Quoted

/-!
# Balanced texts

Written code is read with the brackets that are open on a stack. The only literals are single-quoted ones: a
literal ends on its own line, and nothing inside it is a bracket. What a text does to the stack does not depend
on what lies below, so texts are balanced part by part.
-/
namespace SchemaGuards.Text

structure BracketScan where
  /-- The brackets that have to close, the innermost first. -/
  closers : List Char := []
  quoted : Bool := false
  escaped : Bool := false
deriving DecidableEq, Repr

def closer? : Char → Option Char
  | '(' => some ')'
  | '[' => some ']'
  | '{' => some '}'
  | _ => none

def isCloser (c : Char) : Bool := c = ')' || c = ']' || c = '}'

def isQuote (c : Char) : Bool := c = '\'' || c = '"' || c = '\x60'

def marks : List Char := ['(', '[', '{', ')', ']', '}', '\'', '"', '\x60']

def isPlain (c : Char) : Bool := c ∉ marks

/-- The open brackets behind a character: an opening one adds its closer, a closing one has to be the innermost. -/
def shift? (closers : List Char) (c : Char) : Option (List Char) :=
  match closer? c with
  | some closer => some (closer :: closers)
  | none =>
    if !isCloser c then some closers
    else if closers.head? = some c then some closers.tail
    else none

theorem shift?_append {closers next : List Char} {c : Char} (h : shift? closers c = some next) (outer : List Char) :
    shift? (closers ++ outer) c = some (next ++ outer) := by
  unfold shift? at h ⊢
  cases hopening : closer? c with
  | some closer =>
    simp only [hopening, Option.some.injEq] at h ⊢
    rw [← h, List.cons_append]
  | none =>
    simp only [hopening] at h ⊢
    split at h
    · next hplain =>
      cases h
      rw [if_pos hplain]
    · next hclosing =>
      split at h
      · next hhead =>
        cases h
        cases closers with
        | nil => cases hhead
        | cons top rest =>
          rw [List.head?_cons] at hhead
          rw [if_neg hclosing, List.cons_append, List.head?_cons, if_pos hhead, List.tail_cons, List.tail_cons]
      · cases h

namespace BracketScan

/-- Reads one character; nothing at a bracket that does not close the innermost one, at the end of a line inside a
literal, and at a quote of another kind outside of one. -/
def step (scan : BracketScan) (c : Char) : Option BracketScan :=
  if scan.quoted then
    if c = '\n' || c = '\r' then none
    else if scan.escaped then some { scan with escaped := false }
    else if c = '\\' then some { scan with escaped := true }
    else some { scan with quoted := c ≠ '\'' }
  else if c = '\'' then some { scan with quoted := true }
  else if isQuote c then none
  else (shift? scan.closers c).map (fun closers => { scan with closers })

def run (scan : BracketScan) (cs : List Char) : Option BracketScan := cs.foldlM step scan

@[simp] theorem run_nil (scan : BracketScan) : scan.run [] = some scan := rfl

@[simp] theorem run_cons (scan : BracketScan) (c : Char) (cs : List Char) :
    scan.run (c :: cs) = (scan.step c).bind (fun next => next.run cs) := rfl

theorem run_append (scan : BracketScan) (cs ds : List Char) :
    scan.run (cs ++ ds) = (scan.run cs).bind (fun next => next.run ds) := by
  simp [run, List.foldlM_append, Option.bind_eq_bind]

def within (scan : BracketScan) (outer : List Char) : BracketScan := { scan with closers := scan.closers ++ outer }

variable {scan next : BracketScan}

theorem step_within {c : Char} (h : scan.step c = some next) (outer : List Char) :
    (scan.within outer).step c = some (next.within outer) := by
  rcases scan with ⟨closers, quoted, escaped⟩
  cases quoted with
  | true =>
    unfold step at h ⊢
    grind [within]
  | false =>
    simp only [step, within, Bool.false_eq_true, if_false] at h ⊢
    split at h
    · next hquote =>
      cases h
      rw [if_pos hquote]
    · next hsingle =>
      split at h
      · cases h
      · next hquote =>
        rcases Option.map_eq_some_iff.1 h with ⟨shifted, hshift, rfl⟩
        rw [if_neg hsingle, if_neg hquote, shift?_append hshift]
        rfl

theorem run_within {cs : List Char} (h : scan.run cs = some next) (outer : List Char) :
    (scan.within outer).run cs = some (next.within outer) := by
  induction cs generalizing scan with
  | nil =>
    cases h
    rfl
  | cons c cs ih =>
    rw [run_cons, Option.bind_eq_some_iff] at h
    rcases h with ⟨middle, hstep, hrest⟩
    rw [run_cons, step_within hstep outer]
    exact ih hrest

end BracketScan

/-- A text, read outside of literals, turns one stack of open brackets into another one. -/
def Moves (text : String) (before after : List Char) : Prop :=
  BracketScan.run { closers := before } text.toList = some { closers := after }

instance (text : String) (before after : List Char) : Decidable (Moves text before after) :=
  inferInstanceAs (Decidable (_ = _))

/-- A text closes the literals and the brackets that it opens, each bracket by one of its kind and in order. -/
def IsBalanced (text : String) : Prop := Moves text [] []

instance (text : String) : Decidable (IsBalanced text) := inferInstanceAs (Decidable (Moves text [] []))

section Moves
variable {text rest : String} {before middle after : List Char}

theorem Moves.append (h : Moves text before middle) (h' : Moves rest middle after) :
    Moves (text ++ rest) before after := by
  unfold Moves at *
  rw [String.toList_append, BracketScan.run_append, h]
  exact h'

theorem IsBalanced.moves (h : IsBalanced text) (stack : List Char) : Moves text stack stack :=
  BracketScan.run_within h stack

theorem isBalanced_empty : IsBalanced "" := rfl

theorem IsBalanced.append (h : IsBalanced text) (h' : IsBalanced rest) : IsBalanced (text ++ rest) := Moves.append h h'

theorem IsBalanced.between {opening closing : String} {stack : List Char} (h : IsBalanced text)
    (hopening : Moves opening [] stack) (hclosing : Moves closing stack []) :
    IsBalanced (opening ++ text ++ closing) :=
  (hopening.append (h.moves stack)).append hclosing

end Moves

theorem isPlain_iff {c : Char} :
    isPlain c = true ↔ closer? c = none ∧ isCloser c = false ∧ isQuote c = false := by
  by_cases hmark : c ∈ marks
  · have hnot : marks.all (fun mark => isPlain mark = false ∧
        ¬ (closer? mark = none ∧ isCloser mark = false ∧ isQuote mark = false)) = true := by decide
    simp [of_decide_eq_true (List.all_eq_true.1 hnot c hmark)]
  · have hopening : closer? c = none := by
      unfold closer?
      split <;> first | rfl | exact absurd (by decide) hmark
    simp only [marks, List.mem_cons, not_or] at hmark
    simp [isPlain, marks, hopening, isCloser, isQuote, hmark]

theorem step_plain (closers : List Char) {c : Char} (h : isPlain c = true) :
    BracketScan.step { closers } c = some { closers } := by
  rcases isPlain_iff.1 h with ⟨hopening, hclosing, hquote⟩
  have hsingle : c ≠ '\'' := by
    rintro rfl
    cases hquote
  simp [BracketScan.step, shift?, hsingle, hquote, hopening, hclosing]

theorem isBalanced_of_plain {text : String} (h : ∀ c ∈ text.toList, isPlain c = true) : IsBalanced text := by
  unfold IsBalanced Moves
  generalize text.toList = cs at h
  induction cs with
  | nil => rfl
  | cons c cs ih =>
    rw [BracketScan.run_cons, step_plain [] (h c List.mem_cons_self)]
    exact ih (fun other hother => h other (List.mem_cons_of_mem c hother))

/-- Inside a literal, an escaped character leaves everything as it is. -/
theorem run_escape (closers : List Char) (c : Char) :
    BracketScan.run ⟨closers, true, false⟩ (escape c) = some ⟨closers, true, false⟩ := by
  unfold escape
  split
  · rfl
  · split
    · rfl
    · split
      · rfl
      · split
        · rfl
        · next hbackslash hquote hfeed hreturn => simp [BracketScan.step, hbackslash, hquote, hfeed, hreturn]

theorem run_flatMap_escape (closers cs : List Char) :
    BracketScan.run ⟨closers, true, false⟩ (cs.flatMap escape) = some ⟨closers, true, false⟩ := by
  induction cs with
  | nil => rfl
  | cons c cs ih =>
    rw [List.flatMap_cons, BracketScan.run_append, run_escape]
    exact ih

theorem isBalanced_quote (s : String) : IsBalanced (quote s) := by
  unfold IsBalanced Moves
  rw [toList_quote, quoteChars, List.cons_append, BracketScan.run_cons]
  have hopen : BracketScan.step {} '\'' = some ⟨[], true, false⟩ := by decide
  rw [hopen, Option.bind_some, BracketScan.run_append, run_flatMap_escape]
  rfl

theorem isPlain_of_identifierRest {c : Char} (h : isIdentifierRest c = true) : isPlain c = true := by
  refine decide_eq_true (fun hmark => ?_)
  have hnone : marks.all (fun mark => isIdentifierRest mark = false) = true := by decide
  cases h.symm.trans (of_decide_eq_true (List.all_eq_true.1 hnone c hmark))

theorem isPlain_of_identifier {name : String} (h : isIdentifier name = true) :
    ∀ c ∈ name.toList, isPlain c = true :=
  fun _ hc => isPlain_of_identifierRest (isIdentifierRest_of_mem h hc)

theorem isBalanced_propertyKey (name : String) : IsBalanced (propertyKey name) := by
  unfold propertyKey
  split
  · next h => exact isBalanced_of_plain (isPlain_of_identifier h)
  · exact isBalanced_quote name

theorem IsBalanced.indexAccess {accessor : String} (h : IsBalanced accessor) (name : String) :
    IsBalanced (indexAccess accessor name) := by
  have hopening : Moves "[" [] [']'] := by decide
  have hclosing : Moves "]" [']'] [] := by decide
  exact (((h.moves []).append hopening).append ((isBalanced_quote name).moves [']'])).append hclosing

/-- What stands between the quotes of a literal: no quote and no line break, each backslash with what it escapes. -/
inductive IsLiteralBody : List Char → Prop
  | nil : IsLiteralBody []
  | plain {c : Char} {cs : List Char} (hc : c ∉ ['\'', '\\', '\n', '\r']) (h : IsLiteralBody cs) :
    IsLiteralBody (c :: cs)
  | escaped {c : Char} {cs : List Char} (hc : c ∉ ['\n', '\r']) (h : IsLiteralBody cs) : IsLiteralBody ('\\' :: c :: cs)

/-- Plain characters, closed literals and pairs of brackets around such texts. -/
inductive IsNested : List Char → Prop
  | nil : IsNested []
  | plain {c : Char} {cs : List Char} (hc : isPlain c = true) (h : IsNested cs) : IsNested (c :: cs)
  | literal {body cs : List Char} (hbody : IsLiteralBody body) (h : IsNested cs) : IsNested ('\'' :: body ++ '\'' :: cs)
  | pair {opening closing : Char} {inner cs : List Char} (hpair : closer? opening = some closing)
    (hinner : IsNested inner) (h : IsNested cs) : IsNested (opening :: inner ++ closing :: cs)

/-- Nested texts between the brackets that have to close. -/
def Closes : List Char → List Char → Prop
  | [], cs => IsNested cs
  | closer :: closers, cs => ∃ inner rest, cs = inner ++ closer :: rest ∧ IsNested inner ∧ Closes closers rest

/-- What may stand in front of a nested text may stand in front of the first of several. -/
theorem Closes.lead {closers cs : List Char} (h : Closes closers cs) (front : List Char)
    (hfront : ∀ cs, IsNested cs → IsNested (front ++ cs)) : Closes closers (front ++ cs) := by
  cases closers with
  | nil => exact hfront cs h
  | cons closer closers =>
    rcases h with ⟨inner, rest, rfl, hinner, hrest⟩
    exact ⟨front ++ inner, rest, by rw [List.append_assoc], hfront inner hinner, hrest⟩

/-- A reading that starts inside a literal finds its end. -/
theorem literal_of_run {closers cs : List Char} {escaped : Bool} {next : List Char}
    (h : BracketScan.run ⟨closers, true, escaped⟩ cs = some { closers := next }) :
    ∃ body rest, cs = body ++ '\'' :: rest ∧ BracketScan.run { closers } rest = some { closers := next } ∧
      IsLiteralBody (if escaped then '\\' :: body else body) := by
  induction cs generalizing escaped with
  | nil => cases h
  | cons c cs ih =>
    rw [BracketScan.run_cons, Option.bind_eq_some_iff] at h
    rcases h with ⟨middle, hstep, hrest⟩
    simp only [BracketScan.step, if_true] at hstep
    split at hstep
    · cases hstep
    · next hline =>
      simp only [Bool.or_eq_true, decide_eq_true_eq, not_or] at hline
      cases escaped with
      | true =>
        cases hstep
        rcases ih hrest with ⟨body, rest, rfl, hrun, hbody⟩
        exact ⟨c :: body, rest, rfl, hrun, .escaped (by simpa using hline) hbody⟩
      | false =>
        simp only [Bool.false_eq_true, if_false] at hstep ⊢
        split at hstep
        · next hbackslash =>
          cases hstep
          rcases ih hrest with ⟨body, rest, rfl, hrun, hbody⟩
          exact ⟨c :: body, rest, rfl, hrun, hbackslash ▸ hbody⟩
        · next hbackslash =>
          cases hstep
          by_cases hquote : c = '\''
          · subst hquote
            exact ⟨[], cs, rfl, hrest, .nil⟩
          · simp only [ne_eq, hquote, not_false_eq_true, decide_true] at hrest
            rcases ih hrest with ⟨body, rest, rfl, hrun, hbody⟩
            exact ⟨c :: body, rest, rfl, hrun, .plain (by simp [hquote, hbackslash, hline]) hbody⟩

/-- A reading that succeeds finds nested texts between the brackets that close, by induction on the length: a literal
is read at once. -/
theorem closes_of_run {closers cs : List Char} (h : BracketScan.run { closers } cs = some {}) : Closes closers cs := by
  cases cs with
  | nil =>
    cases h
    exact .nil
  | cons c cs =>
    rw [BracketScan.run_cons, Option.bind_eq_some_iff] at h
    rcases h with ⟨middle, hstep, hrest⟩
    simp only [BracketScan.step, Bool.false_eq_true, if_false] at hstep
    split at hstep
    · next hquote =>
      cases hstep
      subst hquote
      rcases literal_of_run hrest with ⟨body, rest, rfl, hrun, hbody⟩
      have hlead := (closes_of_run hrun).lead ('\'' :: body ++ ['\'']) (fun cs hcs => by
        simpa using IsNested.literal hbody hcs)
      simpa using hlead
    · next hsingle =>
      split at hstep
      · cases hstep
      · next hquote =>
        rcases Option.map_eq_some_iff.1 hstep with ⟨shifted, hshift, rfl⟩
        have hclosed := closes_of_run hrest
        unfold shift? at hshift
        split at hshift
        · next closer hpair =>
          cases hshift
          rcases hclosed with ⟨inner, rest, rfl, hinner, hrest⟩
          have hlead := hrest.lead (c :: inner ++ [closer]) (fun cs hcs => by
            simpa using IsNested.pair hpair hinner hcs)
          simpa using hlead
        · next hopening =>
          split at hshift
          · next hclosing =>
            cases hshift
            have hplain : isPlain c = true := isPlain_iff.2 ⟨hopening, by simpa using hclosing, by simpa using hquote⟩
            exact hclosed.lead [c] (fun cs hcs => .plain hplain hcs)
          · split at hshift
            · next hhead =>
              cases hshift
              cases closers with
              | nil => cases hhead
              | cons top closers =>
                cases hhead
                exact ⟨[], cs, rfl, .nil, hclosed⟩
            · cases hshift
termination_by cs.length
decreasing_by all_goals simp_all <;> omega

theorem run_literalBody {body : List Char} (h : IsLiteralBody body) (closers : List Char) :
    BracketScan.run ⟨closers, true, false⟩ body = some ⟨closers, true, false⟩ := by
  induction h with
  | nil => rfl
  | plain hc _ ih =>
    simp only [List.mem_cons, not_or] at hc
    simpa [BracketScan.step, hc] using ih
  | escaped hc _ ih =>
    simp only [List.mem_cons, not_or] at hc
    simpa [BracketScan.step, hc] using ih

theorem step_pair {opening closing : Char} (h : closer? opening = some closing) (closers : List Char) :
    BracketScan.step { closers } opening = some { closers := closing :: closers } ∧
      BracketScan.step { closers := closing :: closers } closing = some { closers } := by
  unfold closer? at h
  split at h <;> cases h <;> exact ⟨rfl, rfl⟩

theorem run_nested {cs : List Char} (h : IsNested cs) (closers : List Char) :
    BracketScan.run { closers } cs = some { closers } := by
  induction h generalizing closers with
  | nil => rfl
  | plain hc _ ih =>
    rw [BracketScan.run_cons, step_plain closers hc]
    exact ih closers
  | literal hbody _ ih =>
    have hopening : BracketScan.step { closers } '\'' = some ⟨closers, true, false⟩ := rfl
    rw [List.cons_append, BracketScan.run_cons, hopening, Option.bind_some, BracketScan.run_append,
      run_literalBody hbody]
    exact ih closers
  | pair hpair _ _ ihinner ih =>
    rcases step_pair hpair closers with ⟨hopening, hclosing⟩
    rw [List.cons_append, BracketScan.run_cons, hopening, Option.bind_some, BracketScan.run_append, ihinner,
      Option.bind_some, BracketScan.run_cons, hclosing]
    exact ih closers

/-- A text is read to its end exactly when it is nested. -/
theorem isBalanced_iff {text : String} : IsBalanced text ↔ IsNested text.toList :=
  ⟨fun h => (closes_of_run h : Closes [] text.toList), fun h => run_nested h []⟩

end SchemaGuards.Text

import Mathlib.Data.List.Chain
import Mathlib.Data.List.DropRight
import SchemaGuards.Emission.RouteFile
import SchemaGuards.Proofs.Lines.Comments

/-!
# Comment ends

Documentation stands in a block comment, which ends where a star and a slash meet for the first time. The comment of a
documentation has this pair at its end and nowhere else, whatever the documentation is, and so has what a route file
makes of the comment when it indents the lines. What stands behind a comment is therefore never read as part of it, and
no part of the documentation is read as code.
-/
namespace SchemaGuards

namespace Script

def behindEnd? : List Char → Option (List Char)
  | [] => none
  | [_] => none
  | c :: next :: rest => if c = '*' ∧ next = '/' then some rest else behindEnd? (next :: rest)

/-- The text behind the block comment that begins a text. -/
def behindComment? (text : String) : Option String :=
  match text.toList with
  | '/' :: '*' :: rest => (behindEnd? rest).map String.ofList
  | _ => none

end Script

namespace Text

/-- A block comment for documentation that ends only where it should. -/
structure IsComment (text : String) : Prop where
  framed : ∃ body, text = "/**" ++ body ++ "*/"
  once : ∀ before behind, text.toList = before ++ '*' :: '/' :: behind → behind = []

/-- A text in which no comment ends. -/
def IsOpen (cs : List Char) : Prop := cs.IsChain (fun c next => ¬ (c = '*' ∧ next = '/'))

section Open
variable {cs ds : List Char}

theorem isOpen_singleton (c : Char) : IsOpen [c] := .singleton c

theorem IsOpen.of_infix (h : IsOpen cs) (hpart : ds <:+: cs) : IsOpen ds := List.IsChain.infix h hpart

theorem IsOpen.append (h : IsOpen cs) (h' : IsOpen ds) (hhead : ds.head? ≠ some '/') : IsOpen (cs ++ ds) := by
  refine List.IsChain.append h h' ?_
  rintro c _ next hnext ⟨_, rfl⟩
  exact hhead hnext

theorem IsOpen.behind {front : List Char} (hfront : '*' ∉ front) (h : IsOpen cs) : IsOpen (front ++ cs) := by
  induction front with
  | nil => exact h
  | cons c front ih =>
    rw [List.mem_cons, not_or] at hfront
    exact (ih hfront.2).cons (fun next _ hend => hfront.1 hend.1.symm)

theorem isOpen_iff : IsOpen cs ↔ ∀ before behind, cs ≠ before ++ '*' :: '/' :: behind := by
  constructor
  · rintro h before behind rfl
    exact (List.isChain_append_cons_cons.1 h).2.1 ⟨rfl, rfl⟩
  · intro h
    induction cs with
    | nil => exact .nil
    | cons c cs ih =>
      refine (ih fun before behind hend => h (c :: before) behind (by rw [hend, List.cons_append])).cons ?_
      rintro next hnext ⟨rfl, rfl⟩
      exact h [] cs.tail (by rw [List.nil_append, ← List.cons_head?_tail hnext, List.tail_cons])

/-- A text that begins with an opening and ends with a comment end, and has no other one. -/
def EndsOnce (opening cs : List Char) : Prop :=
  ∃ body, cs = opening ++ body ++ ['*', '/'] ∧ IsOpen (opening ++ body ++ ['*'])

theorem isComment_iff {text : String} : IsComment text ↔ EndsOnce ['/', '*', '*'] text.toList := by
  constructor
  · rintro ⟨⟨body, rfl⟩, honce⟩
    refine ⟨body.toList, by simp, isOpen_iff.2 fun before behind hend => ?_⟩
    have hbehind := honce before (behind ++ ['/']) (by
      rw [← List.cons_append, ← List.cons_append, ← List.append_assoc, ← hend]
      simp)
    simp at hbehind
  · rintro ⟨body, htext, hopen⟩
    refine ⟨⟨String.ofList body, ?_⟩, ?_⟩
    · rw [← String.toList_inj, htext]
      simp
    · intro before behind hend
      rcases List.eq_nil_or_concat behind with rfl | ⟨front, last, rfl⟩
      · rfl
      · have heq : ['/', '*', '*'] ++ body ++ ['*'] ++ ['/'] = (before ++ '*' :: '/' :: front) ++ [last] := by
          simpa [htext] using hend
        exact absurd (List.append_inj_left' heq rfl) (isOpen_iff.1 hopen before front)

theorem behindEnd?_of_isOpen (h : IsOpen (cs ++ ['*'])) (rest : List Char) :
    Script.behindEnd? (cs ++ '*' :: '/' :: rest) = some rest := by
  induction cs with
  | nil => simp [Script.behindEnd?]
  | cons c cs ih =>
    have hrest : IsOpen (cs ++ ['*']) := h.of_infix (List.suffix_cons c _).isInfix
    cases cs with
    | nil => simp [Script.behindEnd?]
    | cons next cs =>
      have hpair : ¬ (c = '*' ∧ next = '/') := (List.isChain_cons_cons.1 h).1
      rw [List.cons_append, List.cons_append, Script.behindEnd?, if_neg hpair]
      exact ih hrest

/-- A comment is read to its end and no further, whatever stands behind it. -/
theorem IsComment.behindComment? {text : String} (h : IsComment text) (rest : String) :
    Script.behindComment? (text ++ rest) = some rest := by
  rcases isComment_iff.1 h with ⟨body, htext, hopen⟩
  have hbody : IsOpen ('*' :: body ++ ['*']) := hopen.of_infix ⟨['/', '*'], [], by simp⟩
  have hread := behindEnd?_of_isOpen hbody rest.toList
  rw [Script.behindComment?, String.toList_append, htext]
  simpa using ⟨_, hread, String.ofList_toList⟩

theorem trimRight_isPrefix (cs : List Char) : trimRight cs <+: cs := List.rdropWhile_prefix isBlank cs

theorem trimBoth_isInfix (cs : List Char) : trimBoth cs <:+: cs :=
  (trimRight_isPrefix (trimLeft cs)).isInfix.trans (List.dropWhile_suffix isBlank).isInfix

theorem head?_breakCommentEnds (cs : List Char) : (breakCommentEnds cs).head? = cs.head? := by
  unfold breakCommentEnds
  split <;> rfl

/-- Breaking up comment ends leaves none. -/
theorem isOpen_breakCommentEnds (cs : List Char) : IsOpen (breakCommentEnds cs) := by
  induction cs using breakCommentEnds.induct with
  | case1 rest ih =>
    have hslash : IsOpen ('\\' :: '/' :: breakCommentEnds rest) := ih.behind (by decide : '*' ∉ ['\\', '/'])
    rw [breakCommentEnds]
    exact hslash.cons (by simp)
  | case2 c rest hend ih =>
    rw [breakCommentEnds]
    · refine ih.cons ?_
      rintro next hnext ⟨rfl, rfl⟩
      rw [head?_breakCommentEnds] at hnext
      exact hend rest.tail rfl (List.cons_head?_tail hnext).symm
    · exact hend
  | case3 => exact .nil

end Open

theorem dropReturn_isPrefix (line : List Char) : dropReturn line <+: line := by
  unfold dropReturn
  split
  · exact List.dropLast_prefix line
  · exact List.prefix_refl line

theorem infix_of_mem_lines {cs : List Char} : ∀ line ∈ lines cs, line <:+: cs := by
  induction cs using lines_induct with
  | line cs h =>
    rw [lines_of_not_mem h]
    split <;> simp
  | feed line rest h ih =>
    rw [lines_append_feed h, List.forall_mem_cons]
    refine ⟨(dropReturn_isPrefix line).isInfix.trans (List.prefix_append _ _).isInfix, fun other hother => ?_⟩
    exact (ih other hother).trans ⟨line ++ ['\n'], [], by simp⟩

section Comment
variable {cs : List Char}

theorem isOpen_commentLine {line : List Char} (h : IsOpen line) : IsOpen (commentLine line) := by
  have htrimmed : IsOpen (trimRight line) := h.of_infix (trimRight_isPrefix line).isInfix
  have hline : IsOpen (' ' :: trimRight line) := htrimmed.behind (by decide : '*' ∉ [' '])
  have hframe : IsOpen [' ', '*'] := .cons_cons (by decide) (.singleton _)
  exact (hframe.append hline (by simp)).append (isOpen_singleton '\n') (by simp)

theorem isOpen_flatMap_commentLine {docLines : List (List Char)} (h : ∀ line ∈ docLines, IsOpen line) :
    IsOpen (docLines.flatMap commentLine) := by
  induction docLines with
  | nil => exact .nil
  | cons line rest ih =>
    rw [List.forall_mem_cons] at h
    rw [List.flatMap_cons]
    refine (isOpen_commentLine h.1).append (ih h.2) ?_
    cases rest <;> simp [commentLine]

/-- A text in which no comment ends, between the marks of a comment and with something else than a slash in front. -/
theorem endsOnce_of_isOpen {body : List Char} (h : IsOpen body) (hhead : body.head? ≠ some '/') :
    EndsOnce ['/', '*', '*'] (['/', '*', '*'] ++ body ++ ['*', '/']) := by
  have hmarks : IsOpen ['/', '*', '*'] := by simp [IsOpen]
  exact ⟨body, rfl, (hmarks.append h hhead).append (isOpen_singleton '*') (by simp)⟩

theorem endsOnce_docCommentChars (cs : List Char) : EndsOnce ['/', '*', '*'] (docCommentChars cs) := by
  have hdoc := isOpen_breakCommentEnds cs
  unfold docCommentChars
  dsimp only
  split
  · have hbody : IsOpen (' ' :: (trimBoth (breakCommentEnds cs) ++ [' '])) :=
      ((hdoc.of_infix (trimBoth_isInfix _)).append (isOpen_singleton ' ') (by simp)).behind (by decide : '*' ∉ [' '])
    simpa using endsOnce_of_isOpen hbody (by simp)
  · have hlines : IsOpen ((lines (breakCommentEnds cs)).flatMap commentLine) :=
      isOpen_flatMap_commentLine (fun line hline => hdoc.of_infix (infix_of_mem_lines line hline))
    have hbody : IsOpen ('\n' :: ((lines (breakCommentEnds cs)).flatMap commentLine ++ [' '])) :=
      (hlines.append (isOpen_singleton ' ') (by simp)).behind (by decide : '*' ∉ ['\n'])
    simpa using endsOnce_of_isOpen hbody (by simp)

def indentedLines (indentation cs : List Char) : List Char := ('\n' :: indentation).intercalate (lines cs)

theorem indentedLines_line (indentation : List Char) {line : List Char} (h : '\n' ∉ line) :
    indentedLines indentation line = line := by
  rw [indentedLines, lines_of_not_mem h]
  cases line <;> simp

theorem indentedLines_append_feed (indentation : List Char) {line rest : List Char} (h : '\n' ∉ line)
    (hrest : rest ≠ []) : indentedLines indentation (line ++ '\n' :: rest) =
      dropReturn line ++ '\n' :: indentation ++ indentedLines indentation rest := by
  rw [indentedLines, lines_append_feed h, List.intercalate_cons_of_ne_nil (mt lines_eq_nil_iff.1 hrest)]
  rfl

theorem dropReturn_append {opening : List Char} (h : '\r' ∉ opening) (line : List Char) :
    dropReturn (opening ++ line) = opening ++ dropReturn line := by
  cases line using List.reverseRecOn with
  | nil =>
    have hlast : opening.getLast? ≠ some '\r' := fun hlast => h (List.mem_of_getLast? hlast)
    simp [dropReturn, hlast]
  | append_singleton front last =>
    unfold dropReturn
    rw [← List.append_assoc, List.getLast?_concat, List.getLast?_concat, List.dropLast_concat, List.dropLast_concat]
    split <;> simp

section Feed
variable {front back line rest : List Char}

theorem exists_line_behind (h : line ++ '\n' :: rest = front ++ back) (hfront : '\n' ∉ front) :
    ∃ line', line = front ++ line' ∧ back = line' ++ '\n' :: rest := by
  rcases List.append_eq_append_iff.1 h with ⟨between, rfl, hback⟩ | ⟨line', rfl, hback⟩
  · cases between with
    | nil => exact ⟨[], by simp, hback.symm⟩
    | cons c between =>
      cases hback
      simp at hfront
  · exact ⟨line', rfl, hback⟩

theorem exists_rest_before (h : line ++ '\n' :: rest = front ++ back) (hback : '\n' ∉ back) :
    ∃ rest', rest = rest' ++ back ∧ front = line ++ '\n' :: rest' := by
  rcases List.append_eq_append_iff.1 h with ⟨between, rfl, heq⟩ | ⟨line', rfl, rfl⟩
  · cases between with
    | nil =>
      rw [List.nil_append] at heq
      simp [← heq] at hback
    | cons c between =>
      cases heq
      exact ⟨between, rfl, rfl⟩
  · simp at hback

end Feed

/-- Indenting the lines of a text moves neither its opening nor the comment end, and brings no further one: the breaks
and the indentation stand between characters of different lines. -/
theorem EndsOnce.indentedLines {indentation : List Char} (hindentation : '*' ∉ indentation) {opening : List Char}
    (hfeed : '\n' ∉ opening) (hreturn : '\r' ∉ opening) (h : EndsOnce opening cs) :
    EndsOnce opening (indentedLines indentation cs) := by
  induction cs using lines_induct generalizing opening with
  | line cs hline =>
    rwa [indentedLines_line indentation hline]
  | feed line rest hline ih =>
    rcases h with ⟨body, heq, hopen⟩
    rcases exists_rest_before heq (by decide) with ⟨rest', rfl, hfront⟩
    rcases exists_line_behind hfront.symm hfeed with ⟨line', rfl, rfl⟩
    have hrest : IsOpen (rest' ++ ['*']) := hopen.of_infix ⟨opening ++ line' ++ ['\n'], [], by simp⟩
    have hends : EndsOnce [] (rest' ++ ['*', '/']) := ⟨rest', rfl, hrest⟩
    rcases ih List.not_mem_nil List.not_mem_nil hends with ⟨indented, hindented, hindentedOpen⟩
    have hfirst : IsOpen (opening ++ dropReturn line') := by
      rw [← dropReturn_append hreturn]
      exact hopen.of_infix ((dropReturn_isPrefix _).isInfix.trans ⟨[], '\n' :: rest' ++ ['*'], by simp⟩)
    refine ⟨dropReturn line' ++ '\n' :: indentation ++ indented, ?_, ?_⟩
    · rw [indentedLines_append_feed indentation hline (by simp), hindented, dropReturn_append hreturn]
      simp
    · have hbehind : IsOpen (('\n' :: indentation) ++ (indented ++ ['*'])) :=
        hindentedOpen.behind (by simpa using hindentation)
      simpa using hfirst.append hbehind (by simp)

theorem flatMap_framed (before behind : List Char) {pieces : List (List Char)} (h : pieces ≠ []) :
    pieces.flatMap (fun piece => before ++ piece ++ behind) =
      before ++ (behind ++ before).intercalate pieces ++ behind := by
  induction pieces with
  | nil => exact absurd rfl h
  | cons first rest ih =>
    cases rest with
    | nil => simp
    | cons next others =>
      rw [List.flatMap_cons, ih (by simp), List.intercalate_cons_cons]
      simp only [List.append_assoc]

end Comment

/-- A documentation comment ends where it should, whatever the documentation is. -/
theorem isComment_docComment (doc : String) : IsComment (docComment doc) := by
  rw [isComment_iff, docComment, String.toList_ofList]
  exact endsOnce_docCommentChars doc.toList

def indented (blanks : Nat) (text : String) : String :=
  String.ofList (indentedLines (List.replicate blanks ' ') text.toList)

theorem IsComment.indented {text : String} (h : IsComment text) (blanks : Nat) : IsComment (indented blanks text) := by
  have hblanks : '*' ∉ List.replicate blanks ' ' := by simp [List.mem_replicate]
  rw [isComment_iff, Text.indented, String.toList_ofList]
  exact (isComment_iff.1 h).indentedLines hblanks (by decide) (by decide)

end Text

namespace Emission.RouteEntry
open Text

/-- The comment of an operation is that of its documentation, on lines of its own and indented. -/
theorem docText_eq (doc : String) : docText doc = "    " ++ indented 4 (docComment doc) ++ "\n" := by
  have hne : lines (docComment doc).toList ≠ [] := by
    rw [Ne, lines_eq_nil_iff]
    rcases (isComment_docComment doc).framed with ⟨body, heq⟩
    simp [heq]
  have hframed := flatMap_framed "    ".toList ['\n'] hne
  rw [docText, hframed, ← String.toList_inj]
  simp [indented, indentedLines]

theorem text_doc (entry : RouteEntry) (doc : String) :
    { entry with doc := some doc }.text = docText doc ++ { entry with doc := none }.text := by
  simp only [text, String.append_assoc, String.empty_append]
  rfl

end Emission.RouteEntry

open Emission Text

/-- Documentation cannot leave its comment, neither where it is written in place nor in a route file: the comment ends
with a comment end and holds no other one, and reading a comment at its beginning stops where it ends. -/
theorem comments_end_once (doc : String) (entry : RouteEntry) :
    IsComment (docComment doc) ∧ IsComment (indented 4 (docComment doc)) ∧
      { entry with doc := some doc }.text =
        "    " ++ indented 4 (docComment doc) ++ "\n" ++ { entry with doc := none }.text ∧
      ∀ rest, Script.behindComment? (docComment doc ++ rest) = some rest ∧
        Script.behindComment? (indented 4 (docComment doc) ++ rest) = some rest := by
  have hcomment := isComment_docComment doc
  refine ⟨hcomment, hcomment.indented 4, ?_, fun rest => ?_⟩
  · rw [RouteEntry.text_doc, RouteEntry.docText_eq]
  · exact ⟨hcomment.behindComment? rest, (hcomment.indented 4).behindComment? rest⟩

end SchemaGuards

import Mathlib.Data.List.Induction
import SchemaGuards.Text.Comment
import SchemaGuards.Text.Quoted

/-!
# Line breaks of comments

A quoted text stands on one line, whatever it holds. Documentation does not: its comment has a line feed as soon as
the documentation has one in front of its last character.
-/
namespace SchemaGuards.Text

/-- A text without line feeds and carriage returns. -/
def IsLine (s : String) : Prop := ∀ c ∈ s.toList, c ≠ '\n' ∧ c ≠ '\r'

instance (s : String) : Decidable (IsLine s) := List.decidableBAll (fun c => c ≠ '\n' ∧ c ≠ '\r') s.toList

variable {s t : String} {cs : List Char}

theorem IsLine.append (hs : IsLine s) (ht : IsLine t) : IsLine (s ++ t) := by
  intro c hc
  rw [String.toList_append, List.mem_append] at hc
  exact hc.elim (hs c) (ht c)

theorem isLine_intercalate {parts : List String} (hs : IsLine s) (h : ∀ part ∈ parts, IsLine part) :
    IsLine (String.intercalate s parts) := by
  induction parts with
  | nil =>
    intro c hc
    simp at hc
  | cons part rest ih =>
    cases rest with
    | nil => exact h part List.mem_cons_self
    | cons next others =>
      rw [String.intercalate_cons_cons]
      have hrest := ih (fun other hother => h other (List.mem_cons_of_mem part hother))
      exact ((h part List.mem_cons_self).append hs).append hrest

theorem isLine_of_forall {kind : Char → Bool} (hfeed : kind '\n' = false) (hreturn : kind '\r' = false)
    (h : ∀ c ∈ s.toList, kind c = true) : IsLine s := by
  intro c hc
  refine ⟨?_, ?_⟩
  · rintro rfl
    exact absurd (h _ hc) (by simp [hfeed])
  · rintro rfl
    exact absurd (h _ hc) (by simp [hreturn])

theorem ne_break_of_mem_escape {plain c : Char} (h : c ∈ escape plain) : c ≠ '\n' ∧ c ≠ '\r' := by
  unfold escape at h
  by_cases hbackslash : plain = '\\'
  · simp_all
  by_cases hquote : plain = '\''
  · rcases (by simpa [hquote] using h : c = '\\' ∨ c = '\'') with rfl | rfl <;> decide
  by_cases hfeed : plain = '\n'
  · rcases (by simpa [hfeed] using h : c = '\\' ∨ c = 'n') with rfl | rfl <;> decide
  by_cases hreturn : plain = '\r'
  · rcases (by simpa [hreturn] using h : c = '\\' ∨ c = 'r') with rfl | rfl <;> decide
  · simp_all

theorem isLine_quote (s : String) : IsLine (quote s) := by
  intro c hc
  simp only [toList_quote, quoteChars, List.cons_append, List.mem_cons, List.mem_append, List.mem_flatMap,
    List.not_mem_nil, or_false] at hc
  rcases hc with rfl | ⟨plain, _, hescape⟩ | rfl
  · simp
  · exact ne_break_of_mem_escape hescape
  · simp

theorem isLine_propertyKey (name : String) : IsLine (propertyKey name) := by
  unfold propertyKey
  split
  · next h => exact isLine_of_forall (by decide) (by decide) (fun _ hc => isIdentifierRest_of_mem h hc)
  · exact isLine_quote name

theorem lines_append_feed {line : List Char} (h : '\n' ∉ line) (cs : List Char) :
    lines (line ++ '\n' :: cs) = dropReturn line :: lines cs := by
  have hpieces : (line ++ '\n' :: cs).splitOn '\n' = line :: cs.splitOn '\n' := by
    rw [List.splitOn_append_cons_self, List.splitOn_eq_singleton h, List.singleton_append]
  have hne := List.splitOn_ne_nil '\n' cs
  simp only [lines, hpieces, List.dropLast_cons_of_ne_nil hne, List.getLast?_cons_of_ne_nil hne, List.map_cons,
    List.cons_append]

theorem lines_of_not_mem (h : '\n' ∉ cs) : lines cs = if cs.isEmpty then [] else [cs] := by
  simp only [lines, List.splitOn_eq_singleton h]
  cases cs <;> rfl

/-- A property of texts that holds of every line and, with a text, of a line in front of it. -/
theorem lines_induct {motive : List Char → Prop} (line : ∀ line, '\n' ∉ line → motive line)
    (feed : ∀ line rest, '\n' ∉ line → motive rest → motive (line ++ '\n' :: rest)) (cs : List Char) : motive cs := by
  by_cases h : '\n' ∈ cs
  · obtain ⟨before, after, heq, hbefore⟩ := List.eq_append_cons_of_mem h
    have hshorter : after.length < cs.length := by
      rw [heq, List.length_append, List.length_cons]
      omega
    exact heq ▸ feed before after hbefore (lines_induct line feed after)
  · exact line cs h
termination_by cs.length

theorem lines_eq_nil_iff : lines cs = [] ↔ cs = [] := by
  induction cs using lines_induct with
  | line cs h =>
    rw [lines_of_not_mem h]
    cases cs <;> simp
  | feed line rest h => simp [lines_append_feed h]

/-- There is a second line behind a line feed that is not the last character. -/
theorem one_lt_length_lines_iff : 1 < (lines cs).length ↔ '\n' ∈ cs.dropLast := by
  induction cs using lines_induct with
  | line cs h =>
    rw [lines_of_not_mem h]
    have hnone : '\n' ∉ cs.dropLast := fun hmem => h (List.dropLast_subset cs hmem)
    cases cs <;> simp_all
  | feed line rest h =>
    have hmore : 0 < (lines rest).length ↔ rest ≠ [] := List.length_pos_iff.trans (not_congr lines_eq_nil_iff)
    have hlength : 1 < (lines (line ++ '\n' :: rest)).length ↔ rest ≠ [] := by
      rw [lines_append_feed h, List.length_cons, ← hmore]
      omega
    rw [hlength, List.dropLast_append_cons]
    cases rest with
    | nil => simpa using h
    | cons c others => simp

theorem mem_dropLast_cons {c first : Char} : c ∈ (first :: cs).dropLast ↔ cs ≠ [] ∧ (c = first ∨ c ∈ cs.dropLast) := by
  cases cs <;> simp

theorem breakCommentEnds_eq_nil_iff : breakCommentEnds cs = [] ↔ cs = [] := by
  constructor
  · intro h
    cases cs with
    | nil => rfl
    | cons c rest =>
      unfold breakCommentEnds at h
      split at h <;> simp_all
  · rintro rfl
    rfl

/-- Breaking up comment ends does not touch line feeds. -/
theorem feed_mem_dropLast_breakCommentEnds (cs : List Char) :
    '\n' ∈ (breakCommentEnds cs).dropLast ↔ '\n' ∈ cs.dropLast := by
  induction cs using breakCommentEnds.induct with
  | case1 rest ih =>
    rw [breakCommentEnds]
    simp [mem_dropLast_cons, breakCommentEnds_eq_nil_iff, ih]
  | case2 c rest hend ih =>
    rw [breakCommentEnds]
    · simp [mem_dropLast_cons, breakCommentEnds_eq_nil_iff, ih]
    · exact hend
  | case3 => rfl

theorem feed_mem_dropLast_of_mem_trimRight (h : '\n' ∈ trimRight cs) : '\n' ∈ cs.dropLast := by
  induction cs using List.reverseRecOn with
  | nil => cases h
  | append_singleton front last ih =>
    rw [trimRight_append_singleton] at h
    rw [List.dropLast_concat]
    split at h
    · exact List.dropLast_subset front (ih h)
    · next hlast =>
      rcases List.mem_append.1 h with hfront | hmem
      · exact hfront
      · cases List.mem_singleton.1 hmem
        exact absurd rfl hlast

/-- A line feed at the end is trimmed away. -/
theorem feed_mem_dropLast_of_mem_trimBoth (h : '\n' ∈ trimBoth cs) : '\n' ∈ cs.dropLast := by
  have hleft := feed_mem_dropLast_of_mem_trimRight h
  clear h
  induction cs with
  | nil => exact hleft
  | cons c rest ih =>
    rw [trimLeft_cons] at hleft
    split at hleft
    · have hrest := ih hleft
      exact mem_dropLast_cons.2 ⟨fun hnil => by simp [hnil] at hrest, .inr hrest⟩
    · exact hleft

/-- The comment of a documentation has a line feed when the documentation has one in front of its last character. -/
theorem feed_mem_docComment_iff (doc : String) : '\n' ∈ (docComment doc).toList ↔ '\n' ∈ doc.toList.dropLast := by
  rw [docComment, String.toList_ofList, docCommentChars, ← feed_mem_dropLast_breakCommentEnds,
    ← one_lt_length_lines_iff]
  split
  · next hsingle =>
    have hnone : '\n' ∉ trimBoth (breakCommentEnds doc.toList) := by
      intro hmem
      have hmany := one_lt_length_lines_iff.2 (feed_mem_dropLast_of_mem_trimBoth hmem)
      omega
    simpa [hnone] using hsingle
  · next hmany =>
    simpa using hmany

end SchemaGuards.Text

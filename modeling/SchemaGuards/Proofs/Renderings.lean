import SchemaGuards.Proofs.Layout
import SchemaGuards.Text.Blank

/-!
# The two renderings of a layout

A layout falls into rows at its soft breaks, wherever they are nested. The rendering with line breaks is these rows,
each behind a line feed and the indentation of its depth, so a higher level only indents them further. On a single line
the rows stand behind the texts of their breaks. So when these texts are blank, both renderings are the same but for
blanks.
-/
namespace SchemaGuards

def Text.spaces (count : Nat) : String := String.ofList (List.replicate count ' ')

def Text.withoutBlanks (s : String) : String := String.ofList (s.toList.filter (fun c => !isBlank c))

namespace Text

theorem spaces_add (count more : Nat) : spaces (count + more) = spaces count ++ spaces more := by
  rw [spaces, ← List.replicate_append_replicate, String.ofList_append, spaces, spaces]

@[simp] theorem withoutBlanks_append (s t : String) : withoutBlanks (s ++ t) = withoutBlanks s ++ withoutBlanks t := by
  simp [withoutBlanks]

theorem withoutBlanks_eq_empty {s : String} (h : ∀ c ∈ s.toList, isBlank c = true) : withoutBlanks s = "" := by
  have hnone : s.toList.filter (fun c => !isBlank c) = [] :=
    List.filter_eq_nil_iff.2 (fun c hc => by simp [h c hc])
  rw [withoutBlanks, hnone, String.ofList_nil]

end Text

namespace Layout
open Text

theorem lineBreak_eq (level : Nat) : lineBreak level = "\n" ++ spaces (2 * level) := rfl

theorem withoutBlanks_lineBreak (level : Nat) : withoutBlanks (lineBreak level) = "" := by
  refine withoutBlanks_eq_empty (fun c hc => ?_)
  rw [lineBreak, String.toList_append, List.mem_append] at hc
  rcases hc with hfeed | hspace
  · cases List.mem_singleton.1 hfeed
    decide
  · rw [String.toList_ofList] at hspace
    rw [List.eq_of_mem_replicate hspace]
    decide

@[simp] theorem prettyAt_softLine (level : Nat) (content : String) :
    prettyAt level (softLine content) = lineBreak level := by
  simp [softLine, prettyFragment]

theorem prettyAt_join (level : Nat) (separator content : String) (layouts : List Layout) :
    prettyAt level (join separator content layouts) =
      String.intercalate (separator ++ lineBreak level) (layouts.map (prettyAt level)) := by
  induction layouts with
  | nil => rfl
  | cons layout rest ih =>
    cases rest with
    | nil => simp [join]
    | cons next others =>
      rw [join, prettyAt_append, prettyAt_append, prettyAt_append, ih, prettyAt_text, prettyAt_softLine,
        List.map_cons (l := next :: others), String.intercalate_cons_of_ne_nil (by simp)]
      simp only [String.append_assoc]

mutual
def fragmentBreaks : Fragment → List String
  | .text _ => []
  | .line flat => [flat]
  | .nest fragments => breaks fragments
termination_by structural fragment => fragment

/-- What the soft breaks of a layout are on a single line, in order. -/
def breaks : List Fragment → List String
  | [] => []
  | fragment :: rest => fragmentBreaks fragment ++ breaks rest
end

structure Rows where
  /-- The text in front of all soft breaks. -/
  first : String := ""
  /-- The depth of every soft break, with the text up to the next one. -/
  rest : List (Nat × String) := []
deriving DecidableEq, Repr

namespace Rows

/-- The rows with indentation. Something may be inserted behind every line feed between them. -/
def render (rows : Rows) (level : Nat) (inserted : String) : String :=
  rows.first ++ String.join (rows.rest.map (fun row => "\n" ++ inserted ++ spaces (2 * (level + row.1)) ++ row.2))

/-- A higher level inserts two spaces for each of its steps. -/
theorem render_add (rows : Rows) (level more : Nat) :
    rows.render (level + more) "" = rows.render level (spaces (2 * more)) := by
  have hrow : ∀ row : Nat × String, "\n" ++ "" ++ spaces (2 * (level + more + row.1)) ++ row.2 =
      "\n" ++ spaces (2 * more) ++ spaces (2 * (level + row.1)) ++ row.2 := by
    intro row
    have hcount : 2 * (level + more + row.1) = 2 * more + 2 * (level + row.1) := by omega
    rw [hcount, spaces_add]
    simp only [String.append_empty, String.append_assoc]
  simp only [render, hrow]

end Rows

mutual
def fragmentRows (depth : Nat) : Fragment → Rows → Rows
  | .text content, rows => { rows with first := content ++ rows.first }
  | .line _, rows => ⟨"", (depth, rows.first) :: rows.rest⟩
  | .nest fragments, rows => rowsBefore (depth + 1) fragments rows
termination_by structural fragment => fragment

/-- The rows of a layout that stands at a depth in front of other rows. -/
def rowsBefore (depth : Nat) : List Fragment → Rows → Rows
  | [], rows => rows
  | fragment :: rest, rows => fragmentRows depth fragment (rowsBefore depth rest rows)
end

/-- The rows into which a layout falls at its soft breaks. -/
def rows (layout : Layout) : Rows := rowsBefore 0 layout {}

mutual
theorem render_fragmentRows (level depth : Nat) (fragment : Fragment) (rows : Rows) :
    (fragmentRows depth fragment rows).render level "" =
      prettyFragment (level + depth) fragment ++ rows.render level "" := by
  cases fragment with
  | text content => simp only [fragmentRows, Rows.render, prettyFragment, String.append_assoc]
  | line flat =>
    simp only [fragmentRows, Rows.render, prettyFragment, lineBreak_eq, List.map_cons, String.join_cons,
      String.empty_append, String.append_empty, String.append_assoc]
  | nest fragments => exact render_rowsBefore level (depth + 1) fragments rows
termination_by structural fragment

theorem render_rowsBefore (level depth : Nat) (layout : List Fragment) (rows : Rows) :
    (rowsBefore depth layout rows).render level "" = prettyAt (level + depth) layout ++ rows.render level "" := by
  cases layout with
  | nil => simp [rowsBefore]
  | cons fragment rest =>
    rw [rowsBefore, render_fragmentRows level depth fragment, render_rowsBefore level depth rest, prettyAt_cons,
      String.append_assoc]
termination_by structural layout
end

theorem render_rows (layout : Layout) (level : Nat) : (rows layout).render level "" = prettyAt level layout := by
  rw [rows, render_rowsBefore, Nat.add_zero, Rows.render]
  simp

mutual
theorem length_fragmentRows (depth : Nat) (fragment : Fragment) (rows : Rows) :
    (fragmentRows depth fragment rows).rest.length = (fragmentBreaks fragment).length + rows.rest.length := by
  cases fragment with
  | text content => simp [fragmentRows, fragmentBreaks]
  | line flat => simp [fragmentRows, fragmentBreaks, Nat.add_comm]
  | nest fragments => exact length_rowsBefore (depth + 1) fragments rows
termination_by structural fragment

theorem length_rowsBefore (depth : Nat) (layout : List Fragment) (rows : Rows) :
    (rowsBefore depth layout rows).rest.length = (breaks layout).length + rows.rest.length := by
  cases layout with
  | nil => simp [rowsBefore, breaks]
  | cons fragment rest =>
    rw [rowsBefore, length_fragmentRows depth fragment, length_rowsBefore depth rest, breaks, List.length_append,
      Nat.add_assoc]
termination_by structural layout
end

mutual
theorem join_fragmentRows (depth : Nat) (fragment : Fragment) (rows : Rows) :
    (fragmentRows depth fragment rows).first ++ String.join ((fragmentRows depth fragment rows).rest.map Prod.snd) =
      String.join (fragmentTexts fragment) ++ (rows.first ++ String.join (rows.rest.map Prod.snd)) := by
  cases fragment with
  | text content => simp [fragmentRows, fragmentTexts, String.append_assoc]
  | line flat => simp [fragmentRows, fragmentTexts]
  | nest fragments => exact join_rowsBefore (depth + 1) fragments rows
termination_by structural fragment

theorem join_rowsBefore (depth : Nat) (layout : List Fragment) (rows : Rows) :
    (rowsBefore depth layout rows).first ++ String.join ((rowsBefore depth layout rows).rest.map Prod.snd) =
      String.join (texts layout) ++ (rows.first ++ String.join (rows.rest.map Prod.snd)) := by
  cases layout with
  | nil => simp [rowsBefore, texts]
  | cons fragment rest =>
    rw [rowsBefore, join_fragmentRows depth fragment, join_rowsBefore depth rest, texts, String.join_append,
      String.append_assoc]
termination_by structural layout
end

/-- There is a row behind every soft break, and the rows are made of the texts. -/
theorem rows_spec (layout : Layout) :
    (rows layout).rest.length = (breaks layout).length ∧
      (rows layout).first ++ String.join ((rows layout).rest.map Prod.snd) = String.join (texts layout) := by
  refine ⟨?_, ?_⟩
  · rw [rows, length_rowsBefore]
    rfl
  · rw [rows, join_rowsBefore]
    simp

mutual
theorem withoutBlanks_prettyFragment (level : Nat) (fragment : Fragment)
    (h : ∀ content ∈ fragmentBreaks fragment, ∀ c ∈ content.toList, isBlank c = true) :
    withoutBlanks (prettyFragment level fragment) = withoutBlanks (flatFragment fragment) := by
  cases fragment with
  | text content => rfl
  | line flat =>
    rw [prettyFragment, flatFragment, withoutBlanks_lineBreak]
    exact (withoutBlanks_eq_empty (h flat (List.mem_singleton_self flat))).symm
  | nest fragments => exact withoutBlanks_prettyAt (level + 1) fragments h
termination_by structural fragment

/-- The renderings are the same but for blanks, when the soft breaks are blank on a single line. -/
theorem withoutBlanks_prettyAt (level : Nat) (layout : List Fragment)
    (h : ∀ content ∈ breaks layout, ∀ c ∈ content.toList, isBlank c = true) :
    withoutBlanks (prettyAt level layout) = withoutBlanks (flat layout) := by
  cases layout with
  | nil => rfl
  | cons fragment rest =>
    rw [breaks, List.forall_mem_append] at h
    rw [prettyAt_cons, flat_cons, withoutBlanks_append, withoutBlanks_append,
      withoutBlanks_prettyFragment level fragment h.1, withoutBlanks_prettyAt level rest h.2]
termination_by structural layout
end

/-- Both renderings of a layout hold the same characters but for blanks, when its soft breaks are blank on a single
line. A higher level inserts two spaces for each of its steps behind the line feeds of the soft breaks and nothing
else. Both renderings turn appending, joining and wrapping into concatenation. -/
theorem renderings_differ_in_breaks (layout : Layout) (level more : Nat) :
    ((∀ content ∈ breaks layout, ∀ c ∈ content.toList, isBlank c = true) →
      withoutBlanks (prettyAt level layout) = withoutBlanks (flat layout)) ∧
    ((rows layout).rest.length = (breaks layout).length ∧
      (rows layout).first ++ String.join ((rows layout).rest.map Prod.snd) = String.join (texts layout) ∧
      prettyAt level layout = (rows layout).render level "" ∧
      prettyAt (level + more) layout = (rows layout).render level (spaces (2 * more))) ∧
    (∀ other, flat (layout ++ other) = flat layout ++ flat other ∧
      prettyAt level (layout ++ other) = prettyAt level layout ++ prettyAt level other) ∧
    (∀ separator content layouts,
      flat (join separator content layouts) = String.intercalate (separator ++ content) (layouts.map flat) ∧
      prettyAt level (join separator content layouts) =
        String.intercalate (separator ++ lineBreak level) (layouts.map (prettyAt level))) ∧
    ∀ before after, flat (wrapped before after layout) = before ++ flat layout ++ after ∧
      prettyAt level (wrapped before after layout) = before ++ prettyAt level layout ++ after := by
  refine ⟨withoutBlanks_prettyAt level layout, ?_, ?_, ?_, ?_⟩
  · obtain ⟨hlength, htexts⟩ := rows_spec layout
    refine ⟨hlength, htexts, (render_rows layout level).symm, ?_⟩
    rw [← render_rows, Rows.render_add]
  · exact fun other => ⟨flat_append layout other, prettyAt_append level layout other⟩
  · exact fun separator content layouts =>
      ⟨flat_join separator content layouts, prettyAt_join level separator content layouts⟩
  · exact fun before after => ⟨flat_wrapped before after layout, prettyAt_wrapped level before after layout⟩

/-- An entry in two nested layouts with different breaks: its renderings hold the same characters but for blanks. -/
theorem renderings_differ_in_breaks_entry :
    breaks (nested (softLine "" ++ text "a" ++ nested (softLine " " ++ text "b c"))) = ["", " "] ∧
      withoutBlanks (prettyAt 1 (nested (softLine "" ++ text "a" ++ nested (softLine " " ++ text "b c")))) =
        withoutBlanks (flat (nested (softLine "" ++ text "a" ++ nested (softLine " " ++ text "b c")))) := by
  refine ⟨by decide, (renderings_differ_in_breaks _ 1 0).1 (fun content hcontent c hc => ?_)⟩
  have hbreaks : content = "" ∨ content = " " := by
    simpa [nested, softLine, text, breaks, fragmentBreaks] using hcontent
  rcases hbreaks with rfl | rfl
  · simp at hc
  · cases List.mem_singleton.1 hc
    decide

end Layout
end SchemaGuards

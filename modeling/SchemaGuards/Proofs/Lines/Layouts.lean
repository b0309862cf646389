import SchemaGuards.Proofs.Lines.Comments
import SchemaGuards.Proofs.Paths
import SchemaGuards.Proofs.Renderings

/-!
# Line breaks of layouts

A layout breaks lines at its soft breaks, and wherever one of its texts holds a line break. Without such texts its
rendering on a single line is one, and its rows are the lines of the rendering with line breaks.
-/
namespace SchemaGuards
open Text

namespace Layout

def brokenTexts (layout : Layout) : List String := (texts layout).filter (fun content => ¬ IsLine content)

/-- A layout has the given texts with line breaks, and soft breaks that keep to one line. -/
structure IsBrokenBy (layout : Layout) (broken : List String) : Prop where
  texts_eq : brokenTexts layout = broken
  breaks_line : ∀ content ∈ breaks layout, IsLine content

theorem breaks_append (layout other : Layout) : breaks (layout ++ other) = breaks layout ++ breaks other := by
  induction layout with
  | nil => rfl
  | cons fragment rest ih => rw [List.cons_append, breaks, breaks, ih, List.append_assoc]

namespace IsBrokenBy
variable {layout other : Layout} {broken more : List String} {content separator : String} {layouts : List Layout}

theorem nil : IsBrokenBy [] [] := ⟨rfl, by simp [breaks]⟩

theorem append (h : IsBrokenBy layout broken) (hother : IsBrokenBy other more) :
    IsBrokenBy (layout ++ other) (broken ++ more) where
  texts_eq := by rw [brokenTexts, texts_append, List.filter_append, ← h.texts_eq, ← hother.texts_eq]; rfl
  breaks_line := by
    rw [breaks_append, List.forall_mem_append]
    exact ⟨h.breaks_line, hother.breaks_line⟩

theorem of_append (h : IsBrokenBy (layout ++ other) broken) :
    ∃ front back, broken = front ++ back ∧ IsBrokenBy layout front ∧ IsBrokenBy other back := by
  have hbreaks := h.breaks_line
  rw [breaks_append, List.forall_mem_append] at hbreaks
  refine ⟨_, _, ?_, ⟨rfl, hbreaks.1⟩, ⟨rfl, hbreaks.2⟩⟩
  rw [← h.texts_eq, brokenTexts, texts_append, List.filter_append]
  rfl

theorem append_line (h : IsBrokenBy layout broken) (hother : IsBrokenBy other []) :
    IsBrokenBy (layout ++ other) broken := by
  simpa only [List.append_nil] using h.append hother

theorem text_eq (content : String) :
    IsBrokenBy (Layout.text content) ([content].filter (fun content => ¬ IsLine content)) := by
  unfold Layout.text
  split
  · next hempty =>
    subst hempty
    exact ⟨rfl, by simp [breaks]⟩
  · exact ⟨rfl, by simp [breaks, fragmentBreaks]⟩

theorem text (h : IsLine content) : IsBrokenBy (Layout.text content) [] := by
  have hbroken := text_eq content
  rwa [List.filter_cons_of_neg (by simpa using h), List.filter_nil] at hbroken

theorem softLine (h : IsLine content) : IsBrokenBy (softLine content) [] where
  texts_eq := rfl
  breaks_line := by simpa [Layout.softLine, breaks, fragmentBreaks] using h

theorem nested (h : IsBrokenBy layout broken) : IsBrokenBy (nested layout) broken where
  texts_eq := by
    rw [← h.texts_eq]
    simp [brokenTexts, Layout.nested, texts, fragmentTexts]
  breaks_line := by simpa [Layout.nested, breaks, fragmentBreaks] using h.breaks_line

theorem wrapped {before after : String} (hbefore : IsLine before) (hafter : IsLine after) (h : IsBrokenBy layout broken) :
    IsBrokenBy (wrapped before after layout) broken :=
  ((text hbefore).append h).append_line (text hafter)

theorem join (hseparator : IsLine separator) (hcontent : IsLine content) (h : IsBrokenBy layouts.flatten broken) :
    IsBrokenBy (join separator content layouts) broken := by
  induction layouts generalizing broken with
  | nil => exact h
  | cons first rest ih =>
    cases rest with
    | nil =>
      rw [List.flatten_singleton] at h
      exact h
    | cons next others =>
      obtain ⟨front, back, rfl, hfirst, hrest⟩ := h.of_append
      exact ((hfirst.append_line (text hseparator)).append_line (softLine hcontent)).append (ih hrest)

theorem separated (hseparator : IsLine separator) (h : IsBrokenBy layouts.flatten broken) :
    IsBrokenBy (separated separator layouts) broken := by
  induction layouts generalizing broken with
  | nil => exact h
  | cons first rest ih =>
    cases rest with
    | nil =>
      rw [List.flatten_singleton] at h
      exact h
    | cons next others =>
      obtain ⟨front, back, rfl, hfirst, hrest⟩ := h.of_append
      exact (hfirst.append_line (text hseparator)).append (ih hrest)

theorem block (h : IsBrokenBy layouts.flatten broken) : IsBrokenBy (block layouts) broken := by
  unfold Layout.block
  split
  · next hempty =>
    rw [List.isEmpty_iff.1 hempty] at h
    rw [← h.texts_eq]
    exact text (by decide)
  · have hitems : IsBrokenBy (Layout.join "," " " layouts) broken := join (by decide) (by decide) h
    have hopening : IsBrokenBy (Layout.softLine "" ++ Layout.join "," " " layouts) broken :=
      (softLine (by decide)).append hitems
    exact (((text (by decide)).append hopening.nested).append_line (softLine (by decide))).append_line (text (by decide))

theorem flatMap {change : Layout → Layout}
    (hchange : ∀ layout broken, IsBrokenBy layout broken → IsBrokenBy (change layout) broken)
    (h : IsBrokenBy layouts.flatten broken) : IsBrokenBy (layouts.flatMap change) broken := by
  induction layouts generalizing broken with
  | nil => exact h
  | cons first rest ih =>
    obtain ⟨front, back, rfl, hfirst, hrest⟩ := h.of_append
    exact (hchange _ _ hfirst).append (ih hrest)

end IsBrokenBy

mutual
theorem isLine_flatFragment (fragment : Fragment) (htexts : ∀ content ∈ fragmentTexts fragment, IsLine content)
    (hbreaks : ∀ content ∈ fragmentBreaks fragment, IsLine content) : IsLine (flatFragment fragment) := by
  cases fragment with
  | text content => exact htexts content (List.mem_singleton_self content)
  | line flat => exact hbreaks flat (List.mem_singleton_self flat)
  | nest fragments => exact isLine_flat fragments htexts hbreaks
termination_by structural fragment

theorem isLine_flat (layout : List Fragment) (htexts : ∀ content ∈ texts layout, IsLine content)
    (hbreaks : ∀ content ∈ breaks layout, IsLine content) : IsLine (flat layout) := by
  cases layout with
  | nil => decide
  | cons fragment rest =>
    rw [texts, List.forall_mem_append] at htexts
    rw [breaks, List.forall_mem_append] at hbreaks
    rw [flat_cons]
    exact (isLine_flatFragment fragment htexts.1 hbreaks.1).append (isLine_flat rest htexts.2 hbreaks.2)
termination_by structural layout
end

def Rows.AreLines (rows : Rows) : Prop := IsLine rows.first ∧ ∀ row ∈ rows.rest, IsLine row.2

mutual
theorem areLines_fragmentRows (depth : Nat) (fragment : Fragment)
    (h : ∀ content ∈ fragmentTexts fragment, IsLine content) {rows : Rows} (hrows : rows.AreLines) :
    (fragmentRows depth fragment rows).AreLines := by
  cases fragment with
  | text content => exact ⟨(h content (List.mem_singleton_self content)).append hrows.1, hrows.2⟩
  | line flat => exact ⟨(by decide : IsLine ""), List.forall_mem_cons.2 hrows⟩
  | nest fragments => exact areLines_rowsBefore (depth + 1) fragments h hrows
termination_by structural fragment

theorem areLines_rowsBefore (depth : Nat) (layout : List Fragment) (h : ∀ content ∈ texts layout, IsLine content)
    {rows : Rows} (hrows : rows.AreLines) : (rowsBefore depth layout rows).AreLines := by
  cases layout with
  | nil => exact hrows
  | cons fragment rest =>
    rw [texts, List.forall_mem_append] at h
    exact areLines_fragmentRows depth fragment h.1 (areLines_rowsBefore depth rest h.2 hrows)
termination_by structural layout
end

theorem intercalate_eq_join (separator first : String) (rest : List String) :
    String.intercalate separator (first :: rest) = first ++ String.join (rest.map (fun part => separator ++ part)) := by
  induction rest generalizing first with
  | nil => simp
  | cons next others ih =>
    rw [String.intercalate_cons_cons, ih, List.map_cons, String.join_cons]
    simp only [String.append_assoc]

theorem isLine_spaces (count : Nat) : IsLine (spaces count) := by
  intro c hc
  rw [spaces, String.toList_ofList] at hc
  rw [List.eq_of_mem_replicate hc]
  decide

/-- Rows without line breaks are the lines of their rendering, each behind the indentation of its depth. -/
theorem Rows.AreLines.splitText_render {rows : Rows} (h : rows.AreLines) (level : Nat) :
    splitText '\n' (rows.render level "") =
      rows.first :: rows.rest.map (fun row => spaces (2 * (level + row.1)) ++ row.2) := by
  have hrender : rows.render level "" = String.intercalate "\n"
      (rows.first :: rows.rest.map (fun row => spaces (2 * (level + row.1)) ++ row.2)) := by
    rw [intercalate_eq_join, List.map_map, Rows.render]
    simp only [String.append_empty, String.append_assoc]
    rfl
  have hlines : ∀ line ∈ rows.first :: rows.rest.map (fun row => spaces (2 * (level + row.1)) ++ row.2),
      '\n' ∉ line.toList := by
    rw [List.forall_mem_cons, List.forall_mem_map]
    refine ⟨fun hfeed => (h.1 _ hfeed).1 rfl, fun row hrow hfeed => ?_⟩
    exact (((isLine_spaces _).append (h.2 row hrow)) _ hfeed).1 rfl
  rw [hrender, splitText_intercalate (by decide) (by simp), flatMap_splitText_eq_self hlines]

namespace IsBrokenBy
variable {layout : Layout}

theorem isLine_of_mem (h : IsBrokenBy layout []) : ∀ content ∈ texts layout, IsLine content := by
  have hnone := List.filter_eq_nil_iff.1 h.texts_eq
  intro content hcontent
  simpa using hnone content hcontent

/-- Without line breaks in the texts, the rendering on a single line is one. -/
theorem flat_isLine (h : IsBrokenBy layout []) : IsLine (flat layout) :=
  isLine_flat layout h.isLine_of_mem h.breaks_line

/-- Without line breaks in the texts, the rows are the lines of the rendering. -/
theorem splitText_prettyAt (h : IsBrokenBy layout []) (level : Nat) :
    splitText '\n' (prettyAt level layout) =
      (rows layout).first :: (rows layout).rest.map (fun row => spaces (2 * (level + row.1)) ++ row.2) := by
  have hrows : (rows layout).AreLines := areLines_rowsBefore 0 layout h.isLine_of_mem ⟨by decide, by simp⟩
  rw [← render_rows, hrows.splitText_render]

end IsBrokenBy
end Layout
end SchemaGuards

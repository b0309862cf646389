import SchemaGuards.Layout

/-!
# Texts of a layout

Both renderings of a layout contain each of its texts, however deep it is nested.
-/
namespace SchemaGuards

def Text.Contains (whole part : String) : Prop := ∃ before behind, whole = before ++ part ++ behind

namespace Text.Contains
variable {whole part smaller : String}

theorem refl (whole : String) : Contains whole whole := ⟨"", "", by simp⟩

theorem trans (h : Contains whole part) (h' : Contains part smaller) : Contains whole smaller := by
  rcases h with ⟨before, behind, rfl⟩
  rcases h' with ⟨before', behind', rfl⟩
  exact ⟨before ++ before', behind' ++ behind, by simp only [String.append_assoc]⟩

theorem append_left (h : Contains whole part) (front : String) : Contains (front ++ whole) part := by
  rcases h with ⟨before, behind, rfl⟩
  exact ⟨front ++ before, behind, by simp only [String.append_assoc]⟩

theorem append_right (h : Contains whole part) (back : String) : Contains (whole ++ back) part := by
  rcases h with ⟨before, behind, rfl⟩
  exact ⟨before, behind ++ back, by simp only [String.append_assoc]⟩

end Text.Contains

namespace Layout

@[simp] theorem flat_softLine (content : String) : flat (softLine content) = content := by simp [softLine, flatFragment]

@[simp] theorem flat_nested (layout : Layout) : flat (nested layout) = flat layout := by simp [nested, flatFragment]

theorem flat_join (separator content : String) (layouts : List Layout) :
    flat (join separator content layouts) = String.intercalate (separator ++ content) (layouts.map flat) := by
  induction layouts with
  | nil => rfl
  | cons layout rest ih =>
    cases rest with
    | nil => simp [join]
    | cons next others =>
      rw [join, flat_append, flat_append, flat_append, ih, flat_text, flat_softLine,
        List.map_cons (l := next :: others), String.intercalate_cons_of_ne_nil (by simp)]
      simp only [String.append_assoc]

theorem flat_separated (separator : String) (layouts : List Layout) :
    flat (separated separator layouts) = String.intercalate separator (layouts.map flat) := by
  induction layouts with
  | nil => rfl
  | cons layout rest ih =>
    cases rest with
    | nil => simp [separated]
    | cons next others =>
      rw [separated, flat_append, flat_append, ih, flat_text, List.map_cons (l := next :: others),
        String.intercalate_cons_of_ne_nil (by simp)]

theorem flat_block (items : List Layout) :
    flat (block items) = "\x7b" ++ String.intercalate ", " (items.map flat) ++ "\x7d" := by
  unfold block
  split
  · next h =>
    rw [List.isEmpty_iff.1 h]
    rfl
  · rw [flat_append, flat_append, flat_append, flat_text, flat_text, flat_nested, flat_append, flat_softLine,
      String.empty_append, String.append_empty, flat_join]
    rfl

mutual
def fragmentTexts : Fragment → List String
  | .text content => [content]
  | .line _ => []
  | .nest fragments => texts fragments
termination_by structural fragment => fragment

def texts : List Fragment → List String
  | [] => []
  | fragment :: rest => fragmentTexts fragment ++ texts rest
end

@[simp] theorem texts_append (left right : Layout) : texts (left ++ right) = texts left ++ texts right := by
  induction left with
  | nil => simp [texts]
  | cons fragment rest ih => simp [texts, ih]

theorem mem_texts_text {content : String} (h : content ≠ "") : content ∈ texts (text content) := by
  simp [text, h, texts, fragmentTexts]

theorem texts_subset_wrapped (before after : String) (layout : Layout) :
    texts layout ⊆ texts (wrapped before after layout) := by
  intro content hcontent
  simp [wrapped, hcontent]

theorem texts_subset_flatMap {layouts : List Layout} {layout : Layout} (change : Layout → Layout)
    (h : layout ∈ layouts) : texts (change layout) ⊆ texts (layouts.flatMap change) := by
  induction layouts with
  | nil => cases h
  | cons first rest ih =>
    intro content hcontent
    rw [List.flatMap_cons, texts_append, List.mem_append]
    rcases List.mem_cons.1 h with rfl | hrest
    · exact .inl hcontent
    · exact .inr (ih hrest hcontent)

theorem texts_subset_nested (layout : Layout) : texts layout ⊆ texts (nested layout) := by
  intro content hcontent
  simp [nested, texts, fragmentTexts, hcontent]

theorem texts_subset_join {separator flat : String} {layouts : List Layout} {layout : Layout}
    (h : layout ∈ layouts) : texts layout ⊆ texts (join separator flat layouts) := by
  induction layouts with
  | nil => cases h
  | cons first rest ih =>
    intro content hcontent
    cases rest with
    | nil =>
      cases List.mem_singleton.1 h
      exact hcontent
    | cons next others =>
      rw [join]
      simp only [texts_append, List.mem_append]
      rcases List.mem_cons.1 h with rfl | hrest
      · exact .inl (.inl (.inl hcontent))
      · exact .inr (ih hrest hcontent)

theorem texts_subset_separated {separator : String} {layouts : List Layout} {layout : Layout}
    (h : layout ∈ layouts) : texts layout ⊆ texts (separated separator layouts) := by
  induction layouts with
  | nil => cases h
  | cons first rest ih =>
    intro content hcontent
    cases rest with
    | nil =>
      cases List.mem_singleton.1 h
      exact hcontent
    | cons next others =>
      rw [separated]
      simp only [texts_append, List.mem_append]
      rcases List.mem_cons.1 h with rfl | hrest
      · exact .inl (.inl hcontent)
      · exact .inr (ih hrest hcontent)

theorem texts_subset_block {items : List Layout} {item : Layout} (h : item ∈ items) :
    texts item ⊆ texts (block items) := by
  intro content hcontent
  have hitems : items.isEmpty = false := by
    cases items with
    | nil => cases h
    | cons => rfl
  have hjoin : content ∈ texts (join "," " " items) := texts_subset_join h hcontent
  have hnested : content ∈ texts (nested (softLine "" ++ join "," " " items)) :=
    texts_subset_nested _ (by simp [hjoin])
  simp [block, hitems, hnested]

mutual
theorem contains_fragment (fragment : Fragment) {content : String} (h : content ∈ fragmentTexts fragment) :
    Text.Contains (flatFragment fragment) content ∧
      ∀ level, Text.Contains (prettyFragment level fragment) content := by
  cases fragment with
  | text own =>
    cases List.mem_singleton.1 h
    exact ⟨.refl _, fun _ => .refl _⟩
  | line flat => cases h
  | nest fragments =>
    rcases contains_renderings fragments h with ⟨hflat, hpretty⟩
    exact ⟨hflat, fun level => hpretty (level + 1)⟩
termination_by structural fragment

theorem contains_renderings (layout : List Fragment) {content : String} (h : content ∈ texts layout) :
    Text.Contains (flat layout) content ∧ ∀ level, Text.Contains (prettyAt level layout) content := by
  cases layout with
  | nil => cases h
  | cons fragment rest =>
    rw [texts, List.mem_append] at h
    rw [flat_cons]
    simp only [prettyAt_cons]
    rcases h with hfragment | hrest
    · rcases contains_fragment fragment hfragment with ⟨hflat, hpretty⟩
      exact ⟨hflat.append_right _, fun level => (hpretty level).append_right _⟩
    · rcases contains_renderings rest hrest with ⟨hflat, hpretty⟩
      exact ⟨hflat.append_left _, fun level => (hpretty level).append_left _⟩
termination_by structural layout
end

end Layout
end SchemaGuards

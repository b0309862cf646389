import SchemaGuards.Generator
import SchemaGuards.Proofs.Format.Reading
import SchemaGuards.Proofs.Format.Spelling

/-!
# Attribute values in drafts

References in attribute values are kept as they are written. So the names, documentation, literals and
paths of a draft are those that are meant exactly where no reference is used; quotes, blanks and the
passages between tags have no influence.
-/
namespace SchemaGuards
open Markup Draft

/-- A text with one spelled tree has the draft of the tree as it is written. That is the tree that is
meant exactly when no value has a reference, and the written tree alone decides what is generated. -/
theorem ofText_spelledIn {spelled : Spelled} {text : String} (h : spelled.SpelledIn text) :
    (∀ draft, Draft.ofText text = .ok draft ↔ WritesSchema spelled.written draft) ∧
      (spelled.written = spelled.meant ↔ ∀ spelling ∈ spelled.spellings, spelling.isPlain = true) ∧
      ∀ (other : Spelled) (otherText : String), other.SpelledIn otherText → other.written = spelled.written →
        ∀ config, generate otherText config = generate text config := by
  have htext := ofText_writtenIn h.writtenIn
  refine ⟨?_, Spelled.written_eq_meant, ?_⟩
  · intro draft
    rw [htext]
    exact readSchema_eq_ok
  · intro other otherText hother hwritten config
    have hsame : Draft.ofText otherText = Draft.ofText text := by
      rw [ofText_writtenIn hother.writtenIn, hwritten, htext]
    rw [generate, generate, Workspace.ofText, Workspace.ofText, Graph.ofText, Graph.ofText, hsame]

namespace Sample

def escapedText : String :=
  "<schema><namespace name=\"A\"><model name=\"M\" doc=\"a&amp;b\"/></namespace></schema>"

def escapedDoc : Spelling := ⟨"doc", '"', [.plain 'a', .reference "amp".toList '&', .plain 'b']⟩

def escaped : Spelled :=
  ⟨"schema", [], [⟨"namespace", [⟨"name", '"', [.plain 'A']⟩],
    [⟨"model", [⟨"name", '"', [.plain 'M']⟩, escapedDoc], []⟩]⟩]⟩

def escapedDraft (doc : String) : Draft := ⟨[], ⟨[⟨"M", ["A"], some doc, .model none []⟩], []⟩⟩

theorem spellingText_name {c : Char} (h : c ≠ '"' ∧ c ≠ '&' ∧ c ≠ '<' ∧ (isSpace c = true → c = ' ')) :
    SpellingText ⟨"name", '"', [.plain c]⟩ ("name".toList ++ '=' :: '"' :: ([c] ++ ['"'])) := by
  have hkey : IsName "name".toList := by decide
  refine @spellingText_tight ⟨"name", '"', [.plain c]⟩ hkey (.inl rfl) ?_
  intro piece hpiece
  rw [List.mem_singleton.1 hpiece]
  exact h

theorem spellingText_escapedDoc :
    SpellingText escapedDoc ("doc".toList ++ '=' :: '"' :: ("a&amp;b".toList ++ ['"'])) := by
  have hkey : IsName "doc".toList := by decide
  refine @spellingText_tight escapedDoc hkey (.inl rfl) ?_
  intro piece hpiece
  simp only [escapedDoc, List.mem_cons, List.not_mem_nil, or_false] at hpiece
  have hplain : ∀ c, c = 'a' ∨ c = 'b' → Piece.Fits '"' (.plain c) := by
    intro c hc
    obtain rfl | rfl := hc <;> unfold Piece.Fits <;> decide
  obtain rfl | rfl | rfl := hpiece
  · exact hplain 'a' (.inl rfl)
  · exact .named (by decide)
  · exact hplain 'b' (.inr rfl)

theorem escaped_spelledIn : escaped.SpelledIn escapedText := by
  have hA := @spellingText_name 'A' (by decide)
  have hM := @spellingText_name 'M' (by decide)
  have hspace : [' '] ≠ [] ∧ Blanks [' '] := by decide
  have hnone : Blanks [] := by decide
  have hmodel : Spelled.Text ⟨"model", [⟨"name", '"', [.plain 'M']⟩, escapedDoc], []⟩ _ :=
    .empty (show IsName "model".toList by decide)
      (.cons hspace.1 hspace.2 hM (by decide) (.cons hspace.1 hspace.2 spellingText_escapedDoc (by decide) .nil)) hnone
  have hpassed : PassedOver [] := fun _ => rfl
  have hnamespace : Spelled.Text ⟨"namespace", [⟨"name", '"', [.plain 'A']⟩], [_]⟩ _ :=
    .pair (show IsName "namespace".toList by decide) (.cons hspace.1 hspace.2 hA (by decide) .nil) hnone
      (.cons hpassed hmodel .nil) hpassed hnone
  have hschema : Spelled.Text escaped _ :=
    .pair (show IsName "schema".toList by decide) .nil hnone (.cons hpassed hnamespace .nil) hpassed hnone
  refine ⟨[], _, [], ?_, hpassed, hschema, ?_⟩
  · have htext : escapedText.toList = _ := Text.toList_literal rfl
    rw [withoutMark_eq htext (by decide)]
    decide
  · simp [readTags_eq, afterText]

theorem writesSchema_escaped (read : Spelling → Attribute) (doc : String)
    (hA : read ⟨"name", '"', [.plain 'A']⟩ = ⟨"name", "A"⟩) (hM : read ⟨"name", '"', [.plain 'M']⟩ = ⟨"name", "M"⟩)
    (hdoc : read escapedDoc = ⟨"doc", doc⟩) : WritesSchema (escaped.tree read) (escapedDraft doc) := by
  have hscope : [] ++ Text.splitText '.' "A" = ["A"] := by decide
  have hmodel : WritesItem ([] ++ Text.splitText '.' "A") ⟨"model", [⟨"name", "M"⟩, ⟨"doc", doc⟩], []⟩
      ⟨[⟨"M", ["A"], some doc, .model none []⟩], []⟩ := by
    rw [hscope]
    exact .declaration (.intro rfl (.model .nil))
  simp only [escaped, Spelled.tree, spelledTrees, List.map_cons, List.map_nil, hA, hM, hdoc]
  exact .intro (.cons rfl (.inner rfl (.cons hmodel .nil)) .nil)

end Sample

/-- The draft of the escaped document has the reference in its documentation. -/
theorem ofText_spelledIn_escapedText : Sample.escaped.SpelledIn Sample.escapedText ∧
    Draft.ofText Sample.escapedText = .ok (Sample.escapedDraft "a&amp;b") := by
  refine ⟨Sample.escaped_spelledIn, ?_⟩
  apply ((ofText_spelledIn Sample.escaped_spelledIn).1 _).2
  exact Sample.writesSchema_escaped _ _ (by decide) (by decide) (by decide)

/-- The escaped document means a draft with an ampersand in its documentation, and does not have it. -/
theorem ofText_escapedText : Sample.escaped.SpelledIn Sample.escapedText ∧
    WritesSchema Sample.escaped.meant (Sample.escapedDraft "a&b") ∧
    Draft.ofText Sample.escapedText ≠ .ok (Sample.escapedDraft "a&b") := by
  refine ⟨Sample.escaped_spelledIn, Sample.writesSchema_escaped _ _ (by decide) (by decide) (by decide), ?_⟩
  have hwritten : WritesSchema Sample.escaped.written (Sample.escapedDraft "a&amp;b") :=
    Sample.writesSchema_escaped _ _ (by decide) (by decide) (by decide)
  intro h
  rw [ofText_writtenIn Sample.escaped_spelledIn.writtenIn, readSchema_eq_ok.2 hwritten] at h
  simp [Sample.escapedDraft] at h

end SchemaGuards

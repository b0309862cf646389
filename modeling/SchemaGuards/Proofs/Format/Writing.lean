import SchemaGuards.Proofs.Format.Spelling

/-!
# Writing documents

The simplest way to write a tree: one blank in front of each attribute, double quotes, and no references. What
is written this way is read back whatever stands behind it, so that texts are joined as their trees are. Line
breaks may stand between tags.
-/
namespace SchemaGuards.Markup

def IsPlainValue (value : String) : Prop :=
  ∀ c ∈ value.toList, c ≠ '"' ∧ c ≠ '&' ∧ c ≠ '<' ∧ (isSpace c = true → c = ' ')

instance (value : String) : Decidable (IsPlainValue value) :=
  List.decidableBAll (fun c => c ≠ '"' ∧ c ≠ '&' ∧ c ≠ '<' ∧ (isSpace c = true → c = ' ')) value.toList

theorem IsPlainValue.append {first second : String} (h : IsPlainValue first) (h' : IsPlainValue second) :
    IsPlainValue (first ++ second) := by
  intro c hc
  rw [String.toList_append, List.mem_append] at hc
  exact hc.elim (h c) (h' c)

theorem isPlainValue_nat (n : Nat) : IsPlainValue (toString n) := by
  intro c hc
  rw [Nat.toString_eq_ofList_toDigits, String.toList_ofList] at hc
  have hdigit := Nat.isDigit_of_mem_toDigits (by decide) (by decide) hc
  have hother : ∀ d : Char, d.isDigit = false → c ≠ d := by
    rintro d hd rfl
    rw [hd] at hdigit
    cases hdigit
  have hspace : isSpace c = false := by
    simp only [isSpace, Bool.or_eq_false_iff, decide_eq_false_iff_not]
    exact ⟨⟨⟨hother _ (by decide), hother _ (by decide)⟩, hother _ (by decide)⟩, hother _ (by decide)⟩
  refine ⟨hother _ (by decide), hother _ (by decide), hother _ (by decide), ?_⟩
  rw [hspace]
  exact fun h => absurd h Bool.false_ne_true

theorem isPlainValue_numbered {lead : String} (h : IsPlainValue lead) (n : Nat) : IsPlainValue (lead ++ toString n) :=
  h.append (isPlainValue_nat n)

structure IsPlain (attributes : List Attribute) : Prop where
  keys : ∀ attr ∈ attributes, IsName attr.key.toList
  values : ∀ attr ∈ attributes, IsPlainValue attr.value
  nodup : (attributes.map Attribute.key).Nodup

theorem isPlain_nil : IsPlain [] := ⟨by simp, by simp, List.nodup_nil⟩

theorem IsPlain.cons {key value : String} {rest : List Attribute} (hkey : IsName key.toList)
    (hvalue : IsPlainValue value) (hnew : key ∉ rest.map Attribute.key) (h : IsPlain rest) :
    IsPlain (⟨key, value⟩ :: rest) := by
  refine ⟨?_, ?_, List.nodup_cons.2 ⟨hnew, h.nodup⟩⟩
  · exact List.forall_mem_cons.2 ⟨hkey, h.keys⟩
  · exact List.forall_mem_cons.2 ⟨hvalue, h.values⟩

theorem isPlain_one {key value : String} (hkey : IsName key.toList) (hvalue : IsPlainValue value) :
    IsPlain [⟨key, value⟩] :=
  isPlain_nil.cons hkey hvalue (by simp)

section Text

def attributeText (attr : Attribute) : String := " " ++ attr.key ++ "=\"" ++ attr.value ++ "\""

def attributesText (attributes : List Attribute) : String := String.join (attributes.map attributeText)

def startTag (name : String) (attributes : List Attribute) : String :=
  "<" ++ name ++ attributesText attributes ++ ">"

def emptyTag (name : String) (attributes : List Attribute) : String :=
  "<" ++ name ++ attributesText attributes ++ "/>"

def endTag (name : String) : String := "</" ++ name ++ ">"

theorem toList_attributesText (attributes : List Attribute) : (attributesText attributes).toList =
    attributes.flatMap (fun attr => ' ' :: (attr.key.toList ++ '=' :: '"' :: (attr.value.toList ++ ['"']))) := by
  simp [attributesText, attributeText, List.flatMap_map]

theorem toList_startTag (name : String) (attributes : List Attribute) :
    (startTag name attributes).toList = '<' :: (name.toList ++ ((attributesText attributes).toList ++ ['>'])) := by
  simp [startTag]

theorem toList_emptyTag (name : String) (attributes : List Attribute) :
    (emptyTag name attributes).toList = '<' :: (name.toList ++ ((attributesText attributes).toList ++ ['/', '>'])) := by
  simp [emptyTag]

theorem toList_endTag (name : String) : (endTag name).toList = '<' :: '/' :: (name.toList ++ ['>']) := by
  simp [endTag]

end Text

def plainSpelling (attr : Attribute) : Spelling := ⟨attr.key, '"', attr.value.toList.map .plain⟩

theorem flatMap_written_plain (cs : List Char) : (cs.map Piece.plain).flatMap Piece.written = cs := by
  induction cs with
  | nil => rfl
  | cons c rest ih => rw [List.map_cons, List.flatMap_cons, ih, Piece.written, List.singleton_append]

theorem written_plainSpelling (attr : Attribute) : (plainSpelling attr).written = attr := by
  rw [Spelling.written, plainSpelling, flatMap_written_plain, String.ofList_toList]

theorem map_written_plainSpelling (attributes : List Attribute) :
    (attributes.map plainSpelling).map Spelling.written = attributes := by
  have hwritten : Spelling.written ∘ plainSpelling = id := funext written_plainSpelling
  rw [List.map_map, hwritten, List.map_id]

theorem spellingsText_plain {attributes : List Attribute} (h : IsPlain attributes) :
    SpellingsText (attributes.map plainSpelling) (attributesText attributes).toList := by
  induction attributes with
  | nil => exact .nil
  | cons attr rest ih =>
    obtain ⟨hkeys, hvalues, hnodup⟩ := h
    rw [List.forall_mem_cons] at hkeys hvalues
    rw [List.map_cons, List.nodup_cons] at hnodup
    have hfits : ∀ piece ∈ (plainSpelling attr).pieces, piece.Fits '"' := by
      intro piece hpiece
      obtain ⟨c, hc, rfl⟩ := List.mem_map.1 hpiece
      exact hvalues.1 c hc
    have htight := @spellingText_tight (plainSpelling attr) hkeys.1 (.inl rfl) hfits
    have hnew : (plainSpelling attr).key ∉ (rest.map plainSpelling).map Spelling.key := by
      rw [List.map_map]
      exact hnodup.1
    have hblank : [' '] ≠ [] ∧ Blanks [' '] := by decide
    have htext := SpellingsText.cons hblank.1 hblank.2 htight hnew (ih ⟨hkeys.2, hvalues.2, hnodup.2⟩)
    simpa [attributesText, attributeText, plainSpelling, flatMap_written_plain] using htext

/-- A text that writes trees one after the other, whatever stands behind it. -/
def Writes (text : String) (trees : List Tree) : Prop :=
  ∃ tags, TreesTags trees tags ∧
    ∀ rest, readTags (text.toList ++ rest) = (tags ++ (readTags rest).1, (readTags rest).2)

theorem treesTags_append {trees others : List Tree} {tags more : List Tag} (h : TreesTags trees tags)
    (h' : TreesTags others more) : TreesTags (trees ++ others) (tags ++ more) := by
  induction trees generalizing tags with
  | nil =>
    cases h
    exact h'
  | cons tree rest ih =>
    cases h with
    | cons hfirst hrest =>
      rw [List.cons_append, List.append_assoc]
      exact .cons hfirst (ih hrest)

namespace Writes
variable {text more inside name : String} {trees others children : List Tree} {attributes : List Attribute}

theorem nil : Writes "" [] := ⟨[], .nil, fun _ => rfl⟩

theorem of_toList (h : Writes text trees) (hmore : more.toList = text.toList) : Writes more trees := by
  rw [String.toList_inj] at hmore
  rwa [hmore]

theorem append (h : Writes text trees) (h' : Writes more others) : Writes (text ++ more) (trees ++ others) := by
  obtain ⟨tags, htags, hread⟩ := h
  obtain ⟨tags', htags', hread'⟩ := h'
  refine ⟨tags ++ tags', treesTags_append htags htags', ?_⟩
  intro rest
  rw [String.toList_append, List.append_assoc, hread, hread', List.append_assoc]

theorem join {α : Type} {write : α → String} {tree : α → List Tree} (values : List α)
    (h : ∀ value ∈ values, Writes (write value) (tree value)) :
    Writes (String.join (values.map write)) (values.flatMap tree) := by
  induction values with
  | nil => exact .nil
  | cons value rest ih =>
    rw [List.forall_mem_cons] at h
    rw [List.map_cons, String.join_cons, List.flatMap_cons]
    exact h.1.append (ih h.2)

theorem feed : Writes "\n" [] := by
  refine ⟨[], .nil, ?_⟩
  intro rest
  have htext : afterText false ('\n' :: rest) = afterText false rest := by
    rw [afterText, if_neg (by decide), if_neg (by decide), Bool.false_and]
  have hread : readTags ('\n' :: rest) = readTags rest := by
    rw [readTags_eq, htext, ← readTags_eq]
  simpa using hread

theorem line (h : Writes text trees) : Writes (text ++ "\n") trees := by
  have hline := h.append .feed
  rwa [List.append_nil] at hline

theorem nextLine (h : Writes text trees) : Writes ("\n" ++ text) trees := by
  have hline := feed.append h
  rwa [List.nil_append] at hline

theorem leaf (hname : IsName name.toList) (hplain : IsPlain attributes) :
    Writes (emptyTag name attributes) [⟨name, attributes, []⟩] := by
  refine ⟨_, .cons (.empty name attributes) .nil, ?_⟩
  intro rest
  have hread := readTags_empty hname (spellingsText_plain hplain) (List.forall_mem_nil _) rest
  rw [map_written_plainSpelling] at hread
  simpa [emptyTag] using hread

theorem element (hname : IsName name.toList) (hplain : IsPlain attributes) (h : Writes inside children) :
    Writes (startTag name attributes ++ inside ++ endTag name) [⟨name, attributes, children⟩] := by
  obtain ⟨tags, htags, hread⟩ := h
  refine ⟨_, .cons (.pair name attributes htags) .nil, ?_⟩
  intro rest
  have hclose := readTags_close hname (List.forall_mem_nil _) rest
  have hstart := readTags_start hname (spellingsText_plain hplain) (List.forall_mem_nil _)
    (inside.toList ++ ('<' :: '/' :: (name.toList ++ '>' :: rest)))
  rw [map_written_plainSpelling, hread] at hstart
  rw [List.append_nil] at hclose
  rw [hclose] at hstart
  simpa [startTag, endTag] using hstart

/-- A text that writes one tree, without a byte order mark. -/
theorem writtenIn {tree : Tree} (h : Writes text [tree]) (hmark : text.toList.head? ≠ some '\ufeff') :
    tree.WrittenIn text := by
  obtain ⟨_, htags, hread⟩ := h
  cases htags with
  | cons htree hnil =>
    cases hnil
    refine .of_tags rfl hmark htree ?_
    have hend : readTags [] = ([], none) := by rw [readTags_eq, afterText]; rfl
    have hall := hread []
    rw [hend] at hall
    simpa using hall

end Writes
end SchemaGuards.Markup

import SchemaGuards.Proofs.Expansion.Keys
import SchemaGuards.Proofs.Lines.Layouts
import SchemaGuards.Proofs.Script.Quotation

/-!
# Texts of visibility maps

A visibility map can be read back from the text that it is written as. Each part of the text shows where it ends,
whatever stands behind it: a key because it is quoted, everything else because it is enclosed in brackets that none of
its items begins with. An entry that restricts nothing would have nothing between its braces; no map that is built has
such an entry.
-/
namespace SchemaGuards

namespace Text

/-- A value that is told from all other ones by the text that it is written as, whatever stands behind the text. -/
def IsDelimited {α : Type} (write : α → String) (value : α) : Prop :=
  ∀ (other : α) (rest rest' : List Char),
    (write value).toList ++ rest = (write other).toList ++ rest' → value = other ∧ rest = rest'

def enclosed {α : Type} (opening closing : Char) (write : α → String) (items : List α) : String :=
  String.singleton opening ++ String.intercalate ", " (items.map write) ++ String.singleton closing

section Delimited
variable {α β : Type} {write : α → String} {value : α}

theorem IsDelimited.inj (h : IsDelimited write value) {other : α} (heq : write value = write other) : value = other :=
  (h other [] [] (by rw [heq])).1

theorem IsDelimited.behind (h : IsDelimited write value) (leading : String) :
    IsDelimited (fun value => leading ++ write value) value := by
  intro other rest rest' heq
  simp only [String.toList_append, List.append_assoc, List.append_cancel_left_eq] at heq
  exact h other rest rest' heq

theorem IsDelimited.pair {write' : β → String} {value' : β} (h : IsDelimited write value)
    (h' : IsDelimited write' value') :
    IsDelimited (fun pair : α × β => write pair.1 ++ write' pair.2) (value, value') := by
  rintro ⟨other, other'⟩ rest rest' heq
  simp only [String.toList_append, List.append_assoc] at heq
  rcases h other _ _ heq with ⟨rfl, hbehind⟩
  rcases h' other' _ _ hbehind with ⟨rfl, hrest⟩
  exact ⟨rfl, hrest⟩

theorem isDelimited_quote (s : String) : IsDelimited quote s := by
  intro other rest rest' heq
  have hread : Script.leadingLiteral? (quote s ++ String.ofList rest) = some (s, String.ofList rest) :=
    Script.leadingLiteral?_eq_some_iff.2 rfl
  have hother : quote s ++ String.ofList rest = quote other ++ String.ofList rest' := by
    rw [← String.toList_inj]
    simpa using heq
  rw [hother, Script.leadingLiteral?_eq_some_iff.2 rfl] at hread
  simpa [eq_comm, String.ofList_inj] using hread

/-- What stands behind the first item, up to the closing bracket. -/
def followed (closing : Char) (write : α → String) (items : List α) : List Char :=
  items.flatMap (fun item => ',' :: ' ' :: (write item).toList) ++ [closing]

theorem toList_enclosed_cons (opening closing : Char) (first : α) (items : List α) :
    (enclosed opening closing write (first :: items)).toList =
      opening :: (write first).toList ++ followed closing write items := by
  rw [enclosed, List.map_cons, Layout.intercalate_eq_join]
  simp [followed, List.flatMap_map]

theorem followed_inj {closing : Char} (hclosing : closing ≠ ',') {items others : List α} {rest rest' : List Char}
    (h : ∀ item ∈ items, IsDelimited write item)
    (heq : followed closing write items ++ rest = followed closing write others ++ rest') :
    items = others ∧ rest = rest' := by
  induction items generalizing others with
  | nil =>
    cases others with
    | nil => simpa [followed] using heq
    | cons other others => simp [followed, hclosing] at heq
  | cons item items ih =>
    cases others with
    | nil => simp [followed, hclosing.symm] at heq
    | cons other others =>
      have hitem : (write item).toList ++ (followed closing write items ++ rest) =
          (write other).toList ++ (followed closing write others ++ rest') := by
        simpa [followed] using heq
      rcases h item List.mem_cons_self other _ _ hitem with ⟨rfl, hitems⟩
      rcases ih (fun item hitem => h item (List.mem_cons_of_mem _ hitem)) hitems with ⟨rfl, hrest⟩
      exact ⟨rfl, hrest⟩

/-- Items are read back from between their brackets, if each of them can be told from the closing one. -/
theorem isDelimited_enclosed {opening closing : Char} (hclosing : closing ≠ ',')
    (hstart : ∀ item, ∃ c cs, (write item).toList = c :: cs ∧ c ≠ closing) {items : List α}
    (h : ∀ item ∈ items, IsDelimited write item) : IsDelimited (enclosed opening closing write) items := by
  intro others rest rest' heq
  cases items with
  | nil =>
    cases others with
    | nil => simpa [enclosed] using heq
    | cons other others =>
      rcases hstart other with ⟨c, cs, hother, hne⟩
      rw [toList_enclosed_cons, hother] at heq
      simp [enclosed, hne.symm] at heq
  | cons item items =>
    cases others with
    | nil =>
      rcases hstart item with ⟨c, cs, hitem, hne⟩
      rw [toList_enclosed_cons, hitem] at heq
      simp [enclosed, hne] at heq
    | cons other others =>
      rw [toList_enclosed_cons, toList_enclosed_cons] at heq
      have hitem : (write item).toList ++ (followed closing write items ++ rest) =
          (write other).toList ++ (followed closing write others ++ rest') := by
        simpa using heq
      rcases h item List.mem_cons_self other _ _ hitem with ⟨rfl, hitems⟩
      rcases followed_inj hclosing (fun item hitem => h item (List.mem_cons_of_mem _ hitem)) hitems with ⟨rfl, hrest⟩
      exact ⟨rfl, hrest⟩

end Delimited
end Text

open Text

theorem Lifecycle.isDelimited_reference (state : Lifecycle) : IsDelimited Lifecycle.reference state := by
  intro other rest rest' heq
  cases state <;> cases other <;> simp [reference, name] at heq ⊢ <;> exact heq

theorem LifecycleSet.toList_injective {states others : LifecycleSet} (h : states.toList = others.toList) :
    states = others := by
  have hcontains : ∀ state, states.contains state = others.contains state := by
    intro state
    rw [Bool.eq_iff_iff, ← mem_toList, ← mem_toList, h]
  rcases states with ⟨read, create, update, delete, query⟩
  rcases others with ⟨read', create', update', delete', query'⟩
  simpa using ⟨hcontains .read, hcontains .create, hcontains .update, hcontains .delete, hcontains .query⟩

inductive VisibilityField where
  | states (states : LifecycleSet)
  | nested (map : VisibilityMap)

namespace VisibilityField

def text : VisibilityField → String
  | .states given => "vis: " ++ enclosed '[' ']' Lifecycle.reference given.toList
  | .nested map => "nested: " ++ Layout.flat map.layout

theorem text_states (given : LifecycleSet) : text (.states given) = "vis: [" ++ given.references ++ "]" := by
  rw [← String.toList_inj]
  simp [text, enclosed, LifecycleSet.references]

theorem text_start (field : VisibilityField) : ∃ c cs, field.text.toList = c :: cs ∧ c ≠ '\x7d' := by
  cases field with
  | states given => exact ⟨'v', _, String.toList_append, by decide⟩
  | nested map => exact ⟨'n', _, String.toList_append, by decide⟩

theorem isDelimited_states (given : LifecycleSet) : IsDelimited text (.states given) := by
  intro other rest rest' heq
  cases other with
  | states others =>
    have hstart : ∀ state : Lifecycle, ∃ c cs, state.reference.toList = c :: cs ∧ c ≠ ']' :=
      fun state => ⟨'L', _, String.toList_append, by decide⟩
    have hstates : IsDelimited (enclosed '[' ']' Lifecycle.reference) given.toList :=
      isDelimited_enclosed (by decide) hstart (fun state _ => state.isDelimited_reference)
    rcases hstates.behind "vis: " others.toList rest rest' heq with ⟨hlist, hrest⟩
    exact ⟨by rw [LifecycleSet.toList_injective hlist], hrest⟩
  | nested map =>
    rw [text, text, String.toList_append, String.toList_append] at heq
    cases heq

theorem isDelimited_nested {map : VisibilityMap}
    (h : IsDelimited (fun map => Layout.flat (VisibilityMap.layout map)) map) : IsDelimited text (.nested map) := by
  intro other rest rest' heq
  cases other with
  | states others =>
    rw [text, text, String.toList_append, String.toList_append] at heq
    cases heq
  | nested other =>
    rcases h.behind "nested: " other rest rest' heq with ⟨rfl, hrest⟩
    exact ⟨rfl, hrest⟩

end VisibilityField

namespace VisibilityEntry

def fields (entry : VisibilityEntry) : List VisibilityField :=
  entry.states.toList.map .states ++ if entry.nested.isEmpty then [] else [.nested entry.nested]

theorem eq_of_fields {entry other : VisibilityEntry} (hkey : entry.key = other.key)
    (hfields : entry.fields = other.fields) : entry = other := by
  rcases entry with ⟨key, states, nested⟩
  rcases other with ⟨key', states', nested'⟩
  cases hkey
  cases states <;> cases states' <;> cases nested <;> cases nested' <;> simp_all [fields]

theorem fields_eq_nil_iff {entry : VisibilityEntry} : entry.fields = [] ↔ entry.isMeaningful = false := by
  rcases entry with ⟨key, states, nested⟩
  cases states <;> cases nested <;> simp [fields, isMeaningful]

end VisibilityEntry

namespace VisibilityMap
open Layout

def entryText (entry : VisibilityEntry) : String := flat (entryLayout entry)

theorem entryLayouts_eq_map (entries : List VisibilityEntry) : entryLayouts entries = entries.map entryLayout := by
  induction entries with
  | nil => rfl
  | cons entry rest ih => rw [entryLayouts, ih, List.map_cons]

theorem flat_layout (map : VisibilityMap) : flat map.layout = enclosed '\x7b' '\x7d' entryText map := by
  rw [layout, flat_block, entryLayouts_eq_map, List.map_map]
  rfl

theorem entryText_eq (entry : VisibilityEntry) :
    entryText entry = quote entry.key ++ (": " ++ enclosed '\x7b' '\x7d' VisibilityField.text entry.fields) := by
  rcases entry with ⟨key, states, nested⟩
  have hfields : (states.toList.map (fun states => Layout.text ("vis: [" ++ states.references ++ "]")) ++
      if nested.isEmpty then [] else [Layout.text "nested: " ++ Layout.block (entryLayouts nested)]).map flat =
      (VisibilityEntry.fields ⟨key, states, nested⟩).map VisibilityField.text := by
    rw [VisibilityEntry.fields, List.map_append, List.map_append, List.map_map, List.map_map]
    congr 1
    · refine List.map_congr_left (fun given _ => ?_)
      rw [Function.comp_apply, Function.comp_apply, flat_text, VisibilityField.text_states]
    · split
      · rfl
      · rw [List.map_singleton, List.map_singleton, flat_append, flat_text]
        rfl
  rw [entryText, entryLayout, flat_append, flat_append, flat_text, flat_text, flat_join, hfields, ← String.toList_inj]
  simp [enclosed]

theorem entryText_start (entry : VisibilityEntry) : ∃ c cs, (entryText entry).toList = c :: cs ∧ c ≠ '\x7d' := by
  rw [entryText_eq, String.toList_append, toList_quote]
  exact ⟨'\'', _, rfl, by decide⟩

theorem isDelimited_layout {map : VisibilityMap} (h : ∀ entry ∈ map, IsDelimited entryText entry) :
    IsDelimited (fun map => flat (layout map)) map := by
  rw [funext flat_layout]
  exact isDelimited_enclosed (by decide) entryText_start h

mutual
/-- An entry can be told from all other ones, with all that is nested in it. -/
theorem isDelimited_entry (entry : VisibilityEntry) : IsDelimited entryText entry := by
  rcases entry with ⟨key, states, nested⟩
  have hnested := isDelimited_layout (isDelimited_entries nested)
  have hfield : ∀ field ∈ VisibilityEntry.fields ⟨key, states, nested⟩, IsDelimited VisibilityField.text field := by
    intro field hfield
    cases field with
    | states given => exact VisibilityField.isDelimited_states given
    | nested map =>
      obtain rfl : map = nested := by
        cases states <;> cases nested <;> simp_all [VisibilityEntry.fields]
      exact VisibilityField.isDelimited_nested hnested
  have hfields : IsDelimited (enclosed '\x7b' '\x7d' VisibilityField.text)
      (VisibilityEntry.fields ⟨key, states, nested⟩) :=
    isDelimited_enclosed (by decide) VisibilityField.text_start hfield
  have hpair := (isDelimited_quote key).pair (hfields.behind ": ")
  intro other rest rest' heq
  rw [entryText_eq, entryText_eq] at heq
  rcases hpair (other.key, other.fields) rest rest' heq with ⟨hparts, hrest⟩
  rw [Prod.mk.injEq] at hparts
  exact ⟨VisibilityEntry.eq_of_fields hparts.1 hparts.2, hrest⟩
termination_by structural entry

theorem isDelimited_entries (entries : List VisibilityEntry) : ∀ entry ∈ entries, IsDelimited entryText entry := by
  cases entries with
  | nil => simp
  | cons entry rest =>
    rw [List.forall_mem_cons]
    exact ⟨isDelimited_entry entry, isDelimited_entries rest⟩
end

/-- Different maps are written as different texts. -/
theorem flat_layout_inj {map other : VisibilityMap} : flat map.layout = flat other.layout ↔ map = other := by
  constructor
  · exact (isDelimited_layout (isDelimited_entries map)).inj
  · rintro rfl
    rfl

/-- An entry has something between its braces exactly if it restricts something. -/
theorem entryText_eq_empty_iff {entry : VisibilityEntry} :
    entryText entry = quote entry.key ++ ": \x7b\x7d" ↔ entry.isMeaningful = false := by
  have hempty : entryText ⟨entry.key, none, []⟩ = quote entry.key ++ ": \x7b\x7d" := entryText_eq _
  rw [← hempty]
  constructor
  · intro heq
    rw [(isDelimited_entry entry).inj heq]
    rfl
  · intro h
    have hfields : entry.fields = VisibilityEntry.fields ⟨entry.key, none, []⟩ := VisibilityEntry.fields_eq_nil_iff.2 h
    exact congrArg entryText (VisibilityEntry.eq_of_fields rfl hfields)

/-- The maps that can be built: entries are added one by one, maps at once, and what is nested is built before. -/
inductive IsBuilt : VisibilityMap → Prop
  | empty : IsBuilt []
  | push {map : VisibilityMap} (key : String) (states : Option LifecycleSet) (nested : Option VisibilityMap)
    (hmap : IsBuilt map) (hnested : ∀ inner ∈ nested, IsBuilt inner) :
    IsBuilt (map.push ⟨key, states, nested.getD []⟩)
  | extend {map other : VisibilityMap} (hmap : IsBuilt map) (hother : IsBuilt other) : IsBuilt (map.extend other)
  | wildcard {element : VisibilityMap} (helement : IsBuilt element) : IsBuilt (wildcard element)

/-- No entry at any depth restricts nothing. -/
def IsMeaningful (map : VisibilityMap) : Prop := ∀ inner, Within inner map → ∀ entry ∈ inner, entry.isMeaningful

theorem isMeaningful_iff {map : VisibilityMap} :
    IsMeaningful map ↔ ∀ entry ∈ map, entry.isMeaningful ∧ IsMeaningful entry.nested := by
  constructor
  · intro h entry hentry
    exact ⟨h map (.here map) entry hentry, fun inner hinner => h inner (.nested hentry hinner)⟩
  · rintro h inner (_ | ⟨hentry, hinner⟩)
    · exact fun entry hentry => (h entry hentry).1
    · exact (h _ hentry).2 inner hinner

theorem isMeaningful_nil : IsMeaningful [] := isMeaningful_iff.2 (by simp)

theorem IsMeaningful.push {map : VisibilityMap} (h : map.IsMeaningful) {entry : VisibilityEntry}
    (hnested : IsMeaningful entry.nested) : IsMeaningful (map.push entry) := by
  unfold VisibilityMap.push
  split
  · next hentry =>
    rw [isMeaningful_iff] at h ⊢
    intro other hother
    rcases List.mem_append.1 hother with hother | hother
    · exact h other hother
    · cases List.mem_singleton.1 hother
      exact ⟨hentry, hnested⟩
  · exact h

theorem IsBuilt.isMeaningful {map : VisibilityMap} (h : map.IsBuilt) : map.IsMeaningful := by
  induction h with
  | empty => exact isMeaningful_nil
  | push key states nested hmap hnested ihmap ihnested =>
    refine ihmap.push ?_
    cases nested with
    | none => exact isMeaningful_nil
    | some inner => exact ihnested inner rfl
  | extend hmap hother ihmap ihother =>
    rw [extend_eq_append_filter]
    rw [isMeaningful_iff] at ihmap ihother ⊢
    intro entry hentry
    rcases List.mem_append.1 hentry with hentry | hentry
    · exact ihmap entry hentry
    · exact ihother entry (List.mem_of_mem_filter hentry)
  | wildcard helement ihelement => exact isMeaningful_nil.push ihelement

mutual
theorem isBuilt_nested (entry : VisibilityEntry) (h : IsMeaningful entry.nested) : IsBuilt entry.nested := by
  rcases entry with ⟨key, states, nested⟩
  exact isBuilt_append nested .empty h
termination_by structural entry

theorem isBuilt_append (entries : List VisibilityEntry) {map : VisibilityMap} (hmap : IsBuilt map)
    (h : IsMeaningful entries) : IsBuilt (map ++ entries) := by
  cases entries with
  | nil => rwa [List.append_nil]
  | cons entry rest =>
    rw [isMeaningful_iff, List.forall_mem_cons] at h
    have hnested : ∀ inner ∈ some entry.nested, IsBuilt inner := by
      rintro inner ⟨⟩
      exact isBuilt_nested entry h.1.2
    have hentry : (⟨entry.key, entry.states, entry.nested⟩ : VisibilityEntry) = entry := by cases entry; rfl
    have hpushed := hmap.push entry.key entry.states (some entry.nested) hnested
    rw [Option.getD_some, hentry, VisibilityMap.push, if_pos h.1.1] at hpushed
    have hrest := isBuilt_append rest hpushed (isMeaningful_iff.2 h.2)
    rwa [List.append_assoc] at hrest
end

/-- The text of a map determines the map; the maps that can be built are those in which no entry, at any depth, is
written with nothing between its braces. -/
theorem layout_determines (map other : VisibilityMap) :
    (flat map.layout = flat other.layout ↔ map = other) ∧
      (map.IsBuilt ↔ ∀ inner, Within inner map → ∀ entry ∈ inner,
        flat (entryLayout entry) ≠ quote entry.key ++ ": \x7b\x7d") := by
  have hmeaningful : map.IsMeaningful ↔ ∀ inner, Within inner map → ∀ entry ∈ inner,
      flat (entryLayout entry) ≠ quote entry.key ++ ": \x7b\x7d" := by
    refine forall_congr' fun inner => forall_congr' fun _ => forall_congr' fun entry => forall_congr' fun _ => ?_
    rw [Ne, ← entryText, entryText_eq_empty_iff, Bool.not_eq_false]
  refine ⟨flat_layout_inj, ?_⟩
  rw [← hmeaningful]
  exact ⟨IsBuilt.isMeaningful, fun h => isBuilt_append map .empty h⟩

/-- A key that looks like an entry and the beginning of another one, in the map of a record. -/
theorem layout_determines_quoted :
    IsBuilt [⟨"*", none, [⟨"a': \x7bvis: []\x7d, 'b", some {}, []⟩]⟩] ∧
      flat (layout [⟨"*", none, [⟨"a': \x7bvis: []\x7d, 'b", some {}, []⟩]⟩]) ≠
        flat (layout [⟨"*", none, [⟨"a", some {}, []⟩, ⟨"b", some {}, []⟩]⟩]) ∧
      flat (entryLayout ⟨"a': \x7bvis: []\x7d, 'b", some {}, []⟩) ≠
        quote "a': \x7bvis: []\x7d, 'b" ++ ": \x7b\x7d" := by
  have hinner : IsBuilt [⟨"a': \x7bvis: []\x7d, 'b", some {}, []⟩] := .push _ (some {}) none .empty (by simp)
  have hbuilt : IsBuilt [⟨"*", none, [⟨"a': \x7bvis: []\x7d, 'b", some {}, []⟩]⟩] := .wildcard hinner
  have hother : ([⟨"*", none, [⟨"a': \x7bvis: []\x7d, 'b", some {}, []⟩]⟩] : VisibilityMap) ≠
      [⟨"*", none, [⟨"a", some {}, []⟩, ⟨"b", some {}, []⟩]⟩] := by simp
  rcases layout_determines _ _ with ⟨hinjective, hwritten⟩
  exact ⟨hbuilt, mt hinjective.1 hother,
    hwritten.1 hbuilt _ (.nested List.mem_cons_self (.here _)) _ List.mem_cons_self⟩

end VisibilityMap
end SchemaGuards

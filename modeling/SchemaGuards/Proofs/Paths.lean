import Mathlib.Data.List.Infix
import SchemaGuards.Emission.RouteFile
import SchemaGuards.Proofs.Linking.Naming

/-!
# Paths as texts

A text that joins pieces is split into them again only if no piece holds the separator; otherwise the
pieces fall apart. So a dotted path keeps its segments when none holds a dot, and the alias of a
namespace keeps no more of them than their pieces between underscores.
-/
namespace SchemaGuards

namespace Text
variable {separator : Char}

theorem not_mem_of_mem_splitText {text piece : String} (h : piece ∈ splitText separator text) :
    separator ∉ piece.toList := by
  rcases List.mem_map.1 h with ⟨chars, hchars, rfl⟩
  simpa using Draft.not_mem_of_mem_splitOn hchars

theorem splitText_ne_nil (text : String) : splitText separator text ≠ [] := by
  rw [splitText, ne_eq, List.map_eq_nil_iff]
  exact List.splitOn_ne_nil separator text.toList

theorem splitText_eq_singleton {text : String} (h : separator ∉ text.toList) : splitText separator text = [text] := by
  rw [splitText, List.splitOn_eq_singleton h, List.map_singleton, String.ofList_toList]

theorem flatMap_splitText_eq_self {pieces : List String} (h : ∀ piece ∈ pieces, separator ∉ piece.toList) :
    pieces.flatMap (splitText separator) = pieces := by
  induction pieces with
  | nil => rfl
  | cons piece rest ih =>
    rw [List.flatMap_cons, splitText_eq_singleton (h piece List.mem_cons_self),
      ih (fun other hother => h other (List.mem_cons_of_mem _ hother)), List.singleton_append]

variable {joint : String}

theorem intercalate_splitText (hjoint : joint.toList = [separator]) (text : String) :
    String.intercalate joint (splitText separator text) = text := by
  have hpieces : (splitText separator text).map String.toList = text.toList.splitOn separator := by
    simp [splitText, Function.comp_def]
  rw [← String.toList_inj, String.toList_intercalate, hjoint, hpieces, List.intercalate_splitOn]

/-- A joined text is split at every joint, and inside the pieces. -/
theorem splitText_intercalate (hjoint : joint.toList = [separator]) {pieces : List String} (h : pieces ≠ []) :
    splitText separator (String.intercalate joint pieces) = pieces.flatMap (splitText separator) := by
  induction pieces with
  | nil => exact absurd rfl h
  | cons piece rest ih =>
    cases rest with
    | nil => simp [splitText]
    | cons next others =>
      have hrest := ih (by simp)
      rw [splitText, String.toList_intercalate, hjoint] at hrest ⊢
      rw [List.map_cons, List.map_cons, List.intercalate_cons_cons, List.append_assoc, List.singleton_append,
        List.splitOn_append_cons_self, List.map_append, List.flatMap_cons, ← hrest]
      rfl

end Text

namespace Scope

/-- No segment of a path holds a dot. -/
def IsSegmented (scope : Scope) : Prop := ∀ segment ∈ scope, '.' ∉ segment.toList

/-- A path as a document writes it, with at least one segment. -/
structure IsWritten (scope : Scope) : Prop where
  segmented : scope.IsSegmented
  nonempty : scope ≠ []

/-- The pieces between underscores of a path's segments. -/
def pieces (scope : Scope) : List String := scope.flatMap (Text.splitText '_')

variable {scope other : Scope}

theorem isSegmented_nil : IsSegmented [] := by simp [IsSegmented]

theorem isSegmented_append (h : scope.IsSegmented) (h' : other.IsSegmented) : IsSegmented (scope ++ other) := by
  intro segment hsegment
  rcases List.mem_append.1 hsegment with hsegment | hsegment
  · exact h segment hsegment
  · exact h' segment hsegment

theorem isWritten_splitText (name : String) : IsWritten (Text.splitText '.' name) :=
  ⟨fun _ hsegment => Text.not_mem_of_mem_splitText hsegment, Text.splitText_ne_nil name⟩

theorem isWritten_append (h : scope.IsSegmented) (h' : other.IsWritten) : IsWritten (scope ++ other) :=
  ⟨isSegmented_append h h'.segmented, List.append_ne_nil_of_right_ne_nil scope h'.nonempty⟩

theorem splitText_dotted (h : scope.IsWritten) : Text.splitText '.' (Text.dotted scope) = scope := by
  rw [Text.dotted, Text.splitText_intercalate rfl h.nonempty, Text.flatMap_splitText_eq_self h.segmented]

/-- Paths of segments without dots differ when they are written with dots. -/
theorem dotted_inj (h : scope.IsWritten) (h' : other.IsWritten) :
    Text.dotted scope = Text.dotted other ↔ scope = other := by
  constructor
  · intro heq
    rw [← splitText_dotted h, heq, splitText_dotted h']
  · rintro rfl
    rfl

theorem splitText_alias (hne : scope ≠ []) : Text.splitText '_' scope.alias = scope.pieces :=
  Text.splitText_intercalate rfl hne

/-- Two namespaces have one alias exactly when their segments fall into the same pieces at underscores. -/
theorem alias_eq_iff (hne : scope ≠ []) (hne' : other ≠ []) :
    scope.alias = other.alias ↔ scope.pieces = other.pieces := by
  have hjoint : "_".toList = ['_'] := rfl
  rw [← splitText_alias hne, ← splitText_alias hne']
  constructor
  · intro heq
    rw [heq]
  · intro heq
    rw [← Text.intercalate_splitText hjoint scope.alias, heq, Text.intercalate_splitText hjoint]

theorem alias_eq_name_iff (hne : scope ≠ []) {name : String} :
    scope.alias = name ↔ scope.pieces = Text.splitText '_' name := by
  have halias : Scope.alias [name] = name := String.intercalate_singleton
  have hpieces : pieces [name] = Text.splitText '_' name := List.flatMap_singleton _ _
  rw [← hpieces, ← alias_eq_iff hne (List.cons_ne_nil name []), halias]

theorem pieces_eq_self (h : ∀ segment ∈ scope, '_' ∉ segment.toList) : scope.pieces = scope :=
  Text.flatMap_splitText_eq_self h

end Scope
end SchemaGuards

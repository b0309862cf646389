import Mathlib.Data.List.Nodup
import SchemaGuards.Generator
import SchemaGuards.Proofs.Paths

/-!
# Storing and finding files

A file with a plain name, which no slash divides, is the only one that is found under it. It can be stored
when the name, and the whole path, are short enough, and it lies where it was stored until another one of
its name comes. So files of different plain names are all found and all stored.
-/
namespace SchemaGuards
open Emission

namespace Emission

/-- A file that can be stored directly into the directory at a location. -/
structure File.Fits (file : File) (location : String) : Prop where
  plain : '/' ∉ file.path.toList
  regular : '\x00' ∉ file.path.toList
  name : file.path.utf8ByteSize ≤ nameLimit
  path : (location ++ "/" ++ file.path).utf8ByteSize ≤ pathLimit

theorem isAbsolute_of_plain {path : String} (h : '/' ∉ path.toList) : isAbsolute path = false := by
  rw [isAbsolute, decide_eq_false_iff_not]
  exact fun hhead => h (List.mem_of_head? hhead)

theorem comparedNames_of_plain {path : String} (h : '/' ∉ path.toList) :
    comparedNames path = if path = "" then [] else [path] := by
  rw [comparedNames, Text.splitText_eq_singleton h]
  simp

theorem isSamePath_iff {path other : String} (h : '/' ∉ path.toList) (h' : '/' ∉ other.toList) :
    isSamePath path other = true ↔ path = other := by
  rw [isSamePath, isAbsolute_of_plain h, isAbsolute_of_plain h', comparedNames_of_plain h, comparedNames_of_plain h']
  constructor
  · intro heq
    rw [decide_eq_true rfl, Bool.true_and, decide_eq_true_eq] at heq
    split at heq <;> split at heq <;> simp_all
  · rintro rfl
    simp

namespace Directory

/-- Storing a fitting file of a new name adds it. -/
theorem store_new {location : String} {earlier : List File} {file : File} (hfits : file.Fits location)
    (hnew : file.path ∉ earlier.map File.path) :
    store ⟨location, earlier⟩ file = .ok ⟨location, earlier ++ [file]⟩ := by
  have habsolute := isAbsolute_of_plain hfits.plain
  have hfull : fullPath ⟨location, earlier⟩ file.path = location ++ "/" ++ file.path := by
    rw [fullPath, habsolute, if_neg Bool.false_ne_true]
  have hsegments : (file.path.toList.splitOn '/').map String.ofList = [file.path] :=
    Text.splitText_eq_singleton hfits.plain
  have hfollow : follow ⟨location, earlier⟩ true [file.path] = .ok (some file.path) := by
    rw [follow, if_neg (Nat.not_lt_of_le hfits.name), if_pos rfl]
  have hkept : earlier.filter (fun other => other.path ≠ file.path) = earlier := by
    refine List.filter_eq_self.2 (fun other hother => decide_eq_true ?_)
    exact fun heq => hnew (heq ▸ List.mem_map_of_mem hother)
  rw [store, if_neg hfits.regular, hfull, if_neg (Nat.not_lt_of_le hfits.path), hsegments, habsolute]
  simp only [Bool.not_false, hfollow, Except.map, put, hkept]

/-- Files of different names are stored one behind the other. -/
theorem storeAll_new {location : String} {earlier files : List File} (hfits : ∀ file ∈ files, file.Fits location)
    (hnodup : ((earlier ++ files).map File.path).Nodup) :
    storeAll ⟨location, earlier⟩ files = (⟨location, earlier ++ files⟩, .ok ()) := by
  induction files generalizing earlier with
  | nil => rw [List.append_nil, storeAll]
  | cons file rest ih =>
    have hnew : file.path ∉ earlier.map File.path := by
      rw [List.map_append, List.nodup_append] at hnodup
      intro hmem
      exact hnodup.2.2 _ hmem _ (List.mem_map_of_mem List.mem_cons_self) rfl
    rw [List.append_cons] at hnodup ⊢
    rw [storeAll, store_new (hfits file List.mem_cons_self) hnew]
    exact ih (fun other hother => hfits other (List.mem_cons_of_mem _ hother)) hnodup

end Directory
end Emission

namespace Output
variable {output : Output}

/-- A file of a plain name is found under it, if all names are plain and different. -/
theorem file?_path (hplain : ∀ file ∈ output.files, '/' ∉ file.path.toList)
    (hnodup : (output.files.map File.path).Nodup) {file : File} (hfile : file ∈ output.files) :
    output.file? file.path = some file := by
  have hfound : (output.file? file.path).isSome = true := by
    rw [file?, List.find?_isSome]
    exact ⟨file, hfile, (isSamePath_iff (hplain file hfile) (hplain file hfile)).2 rfl⟩
  obtain ⟨found, hfound⟩ := Option.isSome_iff_exists.1 hfound
  have hmem := List.mem_of_find?_eq_some hfound
  have hsame : isSamePath found.path file.path = true := by simpa using List.find?_some hfound
  have hpath := (isSamePath_iff (hplain found hmem) (hplain file hfile)).1 hsame
  rw [hfound, List.inj_on_of_nodup_map hnodup hmem hfile hpath]

/-- Fitting files of different names are all stored, and nothing else is. -/
theorem store_ok {location : String} (hfits : ∀ file ∈ output.files, file.Fits location)
    (hnodup : (output.files.map File.path).Nodup) : output.store location = (⟨location, output.files⟩, .ok ()) :=
  Directory.storeAll_new hfits hnodup

end Output
end SchemaGuards

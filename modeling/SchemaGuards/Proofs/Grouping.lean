import Mathlib.Data.List.Basic
import Mathlib.Data.List.Induction
import Mathlib.Data.List.Nodup
import SchemaGuards.Distinct

/-!
# Groups in the order of first appearances

The first appearances of the values of a list are in one order. Taking the values of a list by their keys,
key after key, loses none of them and repeats none.
-/
namespace SchemaGuards
variable {α : Type} [DecidableEq α]

/-- A list has the values of another one, each once, in the order of their first appearance there. -/
structure ListsFirst (listed values : List α) : Prop where
  nodup : listed.Nodup
  mem_iff : ∀ value, value ∈ listed ↔ value ∈ values
  ordered : listed.Pairwise fun earlier later => values.idxOf earlier < values.idxOf later

namespace ListsFirst
variable {listed values : List α} {value : α}

theorem nil : ListsFirst ([] : List α) [] := ⟨.nil, by simp, .nil⟩

theorem ordered_append (h : ListsFirst listed values) :
    listed.Pairwise fun earlier later => (values ++ [value]).idxOf earlier < (values ++ [value]).idxOf later := by
  refine h.ordered.imp_of_mem ?_
  intro earlier later hearlier hlater hless
  rwa [List.idxOf_append_of_mem ((h.mem_iff _).1 hearlier), List.idxOf_append_of_mem ((h.mem_iff _).1 hlater)]

theorem append_singleton (h : ListsFirst listed values) :
    ListsFirst (insertNew listed value) (values ++ [value]) := by
  constructor
  · exact nodup_insertNew h.nodup value
  · intro other
    rw [mem_insertNew, h.mem_iff, List.mem_append, List.mem_singleton]
  · unfold insertNew
    split
    · exact h.ordered_append
    · next hnew =>
      refine List.pairwise_append.2 ⟨h.ordered_append, List.pairwise_singleton _ _, ?_⟩
      intro earlier hearlier last hlast
      have hold : earlier ∈ values := (h.mem_iff _).1 hearlier
      have habsent : value ∉ values := fun hvalue => hnew ((h.mem_iff _).2 hvalue)
      rw [List.mem_singleton.1 hlast, List.idxOf_append_of_mem hold, List.idxOf_append_of_notMem habsent]
      exact Nat.lt_add_right _ (List.idxOf_lt_length_of_mem hold)

end ListsFirst

theorem insertAllNew_append (seen first second : List α) :
    insertAllNew seen (first ++ second) = insertAllNew (insertAllNew seen first) second := List.foldl_append

theorem distinct_append_singleton (values : List α) (value : α) :
    distinct (values ++ [value]) = insertNew (distinct values) value := insertAllNew_append [] values [value]

theorem listsFirst_distinct (values : List α) : ListsFirst (distinct values) values := by
  induction values using List.reverseRecOn with
  | nil => exact .nil
  | append_singleton earlier value ih =>
    rw [distinct_append_singleton]
    exact ih.append_singleton

theorem insertNew_of_mem {seen : List α} {value : α} (h : value ∈ seen) : insertNew seen value = seen := if_pos h

theorem insertAllNew_distinct (seen values : List α) :
    insertAllNew seen (distinct values) = insertAllNew seen values := by
  induction values using List.reverseRecOn with
  | nil => rfl
  | append_singleton earlier value ih =>
    have hlast : insertAllNew seen (earlier ++ [value]) = insertNew (insertAllNew seen earlier) value :=
      insertAllNew_append seen earlier [value]
    rw [distinct_append_singleton, hlast]
    by_cases hvalue : value ∈ distinct earlier
    · have hseen : value ∈ insertAllNew seen earlier := mem_insertAllNew.2 (.inr (mem_distinct.1 hvalue))
      rw [insertNew_of_mem hvalue, insertNew_of_mem hseen, ih]
    · rw [insertNew, if_neg hvalue, insertAllNew_append, ih]
      rfl

theorem distinct_append (first second : List α) :
    distinct (first ++ second) = insertAllNew (distinct first) (distinct second) := by
  rw [insertAllNew_distinct]
  exact insertAllNew_append [] first second

section Images
variable {β : Type} [DecidableEq β] (change : α → β)

end Images

/-- The values with one of the given keys, key after key. -/
theorem flatMap_filter_perm {β : Type} (key : β → α) (values : List β) {keys : List α} (h : keys.Nodup) :
    (keys.flatMap fun k => values.filter (fun value => key value = k)).Perm
      (values.filter (fun value => key value ∈ keys)) := by
  induction keys with
  | nil => simp
  | cons k rest ih =>
    obtain ⟨hk, hrest⟩ := List.nodup_cons.1 h
    have hfirst : (values.filter (fun value => key value ∈ k :: rest)).filter (fun value => key value = k) =
        values.filter (fun value => key value = k) := by
      rw [List.filter_filter]
      apply List.filter_congr
      grind
    have hother : (values.filter (fun value => key value ∈ k :: rest)).filter (fun value => !decide (key value = k)) =
        values.filter (fun value => key value ∈ rest) := by
      rw [List.filter_filter]
      apply List.filter_congr
      grind
    have hsplit := List.filter_append_perm (fun value => decide (key value = k))
      (values.filter (fun value => key value ∈ k :: rest))
    rw [hfirst, hother] at hsplit
    rw [List.flatMap_cons]
    exact ((ih hrest).append_left _).trans hsplit

/-- When every value has one of the keys, the groups are a rearrangement of the values. -/
theorem groups_perm {β : Type} (key : β → α) {values : List β} {keys : List α} (h : keys.Nodup)
    (hcovers : ∀ value ∈ values, key value ∈ keys) :
    (keys.flatMap fun k => values.filter (fun value => key value = k)).Perm values := by
  have hall : values.filter (fun value => key value ∈ keys) = values := by
    apply List.filter_eq_self.2
    simpa using hcovers
  simpa only [hall] using flatMap_filter_perm key values h

end SchemaGuards

/-!
# First appearances

The values of a list, each once, in the order of their first appearance.
-/
namespace SchemaGuards

def insertNew {α : Type} [DecidableEq α] (seen : List α) (value : α) : List α :=
  if value ∈ seen then seen else seen ++ [value]

def insertAllNew {α : Type} [DecidableEq α] (seen values : List α) : List α := values.foldl insertNew seen

/-- The values of a list without repetitions. -/
def distinct {α : Type} [DecidableEq α] (values : List α) : List α := insertAllNew [] values

variable {α : Type} [DecidableEq α]

theorem mem_insertNew {seen : List α} {value other : α} :
    other ∈ insertNew seen value ↔ other ∈ seen ∨ other = value := by
  unfold insertNew
  split
  · grind
  · simp

theorem nodup_insertNew {seen : List α} (h : seen.Nodup) (value : α) : (insertNew seen value).Nodup := by
  unfold insertNew
  split
  · exact h
  · simp only [List.nodup_append, List.mem_singleton]
    grind

theorem mem_insertAllNew {seen values : List α} {other : α} :
    other ∈ insertAllNew seen values ↔ other ∈ seen ∨ other ∈ values := by
  unfold insertAllNew
  induction values generalizing seen with
  | nil => simp
  | cons value rest ih => simp [ih, mem_insertNew, or_assoc]

theorem nodup_insertAllNew {seen values : List α} (h : seen.Nodup) : (insertAllNew seen values).Nodup := by
  unfold insertAllNew
  induction values generalizing seen with
  | nil => simpa
  | cons value rest ih => exact ih (nodup_insertNew h value)

theorem mem_distinct {values : List α} {other : α} : other ∈ distinct values ↔ other ∈ values := by
  simp [distinct, mem_insertAllNew]

theorem nodup_distinct (values : List α) : (distinct values).Nodup := nodup_insertAllNew List.nodup_nil

end SchemaGuards

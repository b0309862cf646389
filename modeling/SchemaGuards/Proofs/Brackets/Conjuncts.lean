import SchemaGuards.Proofs.Brackets.Disjunctions
import SchemaGuards.Proofs.Brackets.Written

/-!
# Parts of a conjunction

A balanced text without a disjunction outside of its brackets may stand in a conjunction as it is, and what is joined
from such texts is one itself. Of the clauses of properties, only the one that lets the property be absent needs
parentheses.
-/
namespace SchemaGuards
open Text

namespace Text

/-- A text that keeps its meaning between conjunctions. -/
structure IsConjunct (text : String) : Prop where
  balanced : IsBalanced text
  outer : ¬ HasOuterOr text

section Texts
variable {text rest opening closing : String}

theorem IsBalanced.isConjunct {closers : List Char} (h : IsBalanced text) (hopening : Moves opening [] closers)
    (hne : closers ≠ []) (hbars : ¬ HasOuterOr opening) (hlast : opening.toList.getLast? ≠ some '|')
    (hclosing : Moves closing closers []) (hbar : '|' ∉ closing.toList) : IsConjunct (opening ++ text ++ closing) := by
  refine ⟨h.between hopening hclosing, ?_⟩
  have hinner : ¬ HasBars [] (opening ++ text) := not_hasBars_append hopening hbars (h.not_hasBars hne) (.inl hlast)
  have hhead : closing.toList.head? ≠ some '|' := fun hhead => hbar (List.mem_of_head? hhead)
  exact not_hasBars_append (hopening.append (h.moves closers)) hinner (not_hasBars_of_not_mem hbar) (.inr hhead)

theorem IsBalanced.isConjunct_parenthesized (h : IsBalanced text) : IsConjunct ("(" ++ text ++ ")") :=
  h.isConjunct (by decide : Moves "(" [] [')']) (by decide) (not_hasBars_of_not_mem (by decide)) (by decide) (by decide)
    (by decide)

theorem IsConjunct.append (h : IsConjunct text) (hrest : IsBalanced rest) (hbar : '|' ∉ rest.toList) :
    IsConjunct (text ++ rest) := by
  have hhead : rest.toList.head? ≠ some '|' := fun hhead => hbar (List.mem_of_head? hhead)
  exact ⟨h.balanced.append hrest,
    not_hasBars_append (h.balanced.moves []) h.outer (not_hasBars_of_not_mem hbar) (.inr hhead)⟩

theorem isConjunct_of_not_mem (h : IsBalanced text) (hbar : '|' ∉ text.toList) : IsConjunct text :=
  ⟨h, not_hasBars_of_not_mem hbar⟩

theorem IsConjunct.index (h : IsConjunct text) {index : String} (hindex : IsBalanced index) :
    IsConjunct (text ++ "[" ++ index ++ "]") := by
  have hopening : ¬ HasBars [] (text ++ "[") :=
    not_hasBars_append (h.balanced.moves []) h.outer (not_hasBars_of_not_mem (by decide)) (.inr (by decide))
  have hmoves : Moves (text ++ "[") [] [']'] := (h.balanced.moves []).append (by decide)
  exact hindex.isConjunct hmoves (by decide) hopening (by simp) (by decide) (by decide)

/-- Conjuncts with the sign of a conjunction between them. -/
theorem isConjunct_intercalate {parts : List String} (h : ∀ part ∈ parts, IsConjunct part) :
    IsConjunct (String.intercalate " && " parts) := by
  induction parts with
  | nil => exact isConjunct_of_not_mem isBalanced_empty (by decide)
  | cons part rest ih =>
    cases rest with
    | nil => exact h part List.mem_cons_self
    | cons next others =>
      rw [List.forall_mem_cons] at h
      rw [String.intercalate_cons_cons]
      have hsign : IsConjunct (part ++ " && ") := h.1.append (by decide) (by decide)
      have hrest := ih h.2
      refine ⟨hsign.balanced.append hrest.balanced, ?_⟩
      exact not_hasBars_append (hsign.balanced.moves []) hsign.outer hrest.outer (.inl (by simp))

/-- A clause as a part of a conjunction: in parentheses when they are needed, and only then. -/
inductive IsPart (needed : Prop) (clause : String) : String → Prop
  | parenthesized (h : needed) : IsPart needed clause ("(" ++ clause ++ ")")
  | bare (h : ¬ needed) : IsPart needed clause clause

theorem IsPart.isConjunct {clause part : String} (h : IsPart (HasOuterOr clause) clause part)
    (hclause : IsBalanced clause) : IsConjunct part := by
  cases h with
  | parenthesized => exact hclause.isConjunct_parenthesized
  | bare houter => exact ⟨hclause, houter⟩

end Texts
end Text

namespace Accessor
variable {owner : Accessor}

theorem isConjunct_property (h : IsConjunct owner.text) (key : String) :
    IsConjunct (Accessor.property owner key).text :=
  h.index (isBalanced_quote key)

theorem isConjunct_untyped (h : IsBalanced owner.text) : IsConjunct (Accessor.untyped owner).text :=
  h.isConjunct (by decide : Moves "(" [] [')']) (by decide) (not_hasBars_of_not_mem (by decide)) (by decide) (by decide)
    (by decide)

end Accessor

namespace Guard
open Layout

section Clause
variable {owner : Accessor} (howner : IsConjunct owner.text) (key : String) {content : Guard}
include howner

/-- A clause that requires a property holds the guard of its type in parentheses. -/
theorem isConjunct_required (h : IsBalanced (flat content.layout)) :
    IsConjunct (flat (present false (.property owner key) content).layout) := by
  have hvalue := Accessor.isConjunct_property howner key
  rw [layout, flat_wrapped]
  have hopening : ¬ HasOuterOr ((Accessor.property owner key).text ++ " !== undefined && (") :=
    not_hasBars_append (hvalue.balanced.moves []) hvalue.outer (not_hasBars_of_not_mem (by decide)) (.inr (by decide))
  have hmoves : Moves ((Accessor.property owner key).text ++ " !== undefined && (") [] [')'] :=
    (hvalue.balanced.moves []).append (by decide)
  exact h.isConjunct hmoves (by decide) hopening (by simp) (by decide) (by decide)

/-- A clause that lets a property be absent is a disjunction. -/
theorem hasOuterOr_optional : HasOuterOr (flat (present true (.property owner key) content).layout) := by
  have hvalue := (Accessor.isConjunct_property howner key).balanced
  have htest : IsBalanced ((Accessor.property owner key).text ++ " === undefined ") := hvalue.append (by decide)
  have hbars : " === undefined || (" = " === undefined " ++ "|| (" := by decide
  refine ⟨((Accessor.property owner key).text ++ " === undefined ").toList,
    [' ', '('] ++ (flat content.layout ++ ")").toList, ?_, htest⟩
  rw [layout, flat_wrapped, if_pos rfl, hbars]
  simp only [String.toList_append, List.append_assoc]
  rfl

/-- Parentheses are needed around the clause of an unrestricted optional property whose type does not say itself
whether the property may be absent. -/
theorem hasOuterOr_clause_iff (optional : Bool) (visibility : Option LifecycleSet) (presence : Presence)
    (h : IsBalanced (flat content.layout)) (hfree : presence = .free → ¬ HasOuterOr (flat content.layout)) :
    HasOuterOr (flat (clause owner key optional visibility presence content).layout) ↔
      optional = true ∧ visibility = none ∧ presence = .tested := by
  cases visibility with
  | some states =>
    rcases restricted_enclosed howner.balanced key states
      (isBalanced_clause howner.balanced key optional none presence h) with ⟨inner, hinner, htext⟩
    have hnot : ¬ HasOuterOr (flat (clause owner key optional (some states) presence content).layout) := by
      have hconjunct := hinner.isConjunct_parenthesized
      rw [← htext] at hconjunct
      exact hconjunct.outer
    simp [hnot]
  | none =>
    cases presence with
    | forbidden =>
      rcases lacks_enclosed howner.balanced key with ⟨inner, hinner, htext⟩
      have hconjunct : IsConjunct ("!(" ++ inner ++ ")") :=
        hinner.isConjunct (by decide : Moves "!(" [] [')']) (by decide) (not_hasBars_of_not_mem (by decide)) (by decide)
          (by decide) (by decide)
      rw [← htext] at hconjunct
      have hnot : ¬ HasOuterOr (flat (clause owner key optional none .forbidden content).layout) := hconjunct.outer
      simp [hnot]
    | free =>
      have hnot : ¬ HasOuterOr (flat (clause owner key optional none .free content).layout) := hfree rfl
      simp [hnot]
    | tested =>
      cases optional with
      | false =>
        have hnot : ¬ HasOuterOr (flat (clause owner key false none .tested content).layout) :=
          (isConjunct_required howner key h).outer
        simp [hnot]
      | true =>
        have hor : HasOuterOr (flat (clause owner key true none .tested content).layout) :=
          hasOuterOr_optional howner key
        simp [hor]

end Clause

end Guard
end SchemaGuards

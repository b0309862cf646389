import Mathlib.Data.List.Induction
import SchemaGuards.Proofs.Decimal.Writing
import SchemaGuards.Proofs.Script.Literal
import SchemaGuards.Written.TypeExpr

/-!
# Numbering of members

How a script numbers the members of an enumeration. A member with an initializer has its value. One without is zero at
the start and the next number behind a number; behind a text it is an error, and it leaves nothing to count on from.
The count that members without values take is this number, wherever there is one.
-/
namespace SchemaGuards
open Decimal Script

def Script.Constant.next? : Constant → Option Binary64
  | .number value => some value.addOne
  | .text _ => none

namespace TypeExpr.EnumItem

/-- The value of a member, given the number that it may be left out for. -/
def value? (next : Option Binary64) (item : EnumItem) : Option Constant :=
  match item.initializer with
  | some text => readLiteral? text
  | none => next.map .number

/-- The number that the member behind some others may be left out for. -/
def nextBehind (items : List EnumItem) : Option Binary64 :=
  items.foldl (fun next item => (value? next item).bind Constant.next?) (some (.finite false 0 Binary64.minExponent))

/-- The value of the member at a position; none where the body is in error. -/
def valueAt? (items : List EnumItem) (index : Nat) : Option Constant :=
  items[index]?.bind (value? (nextBehind (items.take index)))

end TypeExpr.EnumItem

/-- A number that is given to a member is a whole one, with room for the next. -/
def Member.IsWhole (member : Member) : Prop :=
  ∀ text, member.value = some (.number text) →
    ∃ literal n, readStrict? text.toList = some literal ∧ literal.Writes n ∧ n.natAbs < 2 ^ 53

def MemberValue.isCountable : MemberValue → Bool
  | .string _ => false
  | .number text => isPlain text.toList

def lastValue? (members : List Member) : Option MemberValue := members.reverse.findSome? Member.value

theorem lastValue?_append (members : List Member) (member : Member) :
    lastValue? (members ++ [member]) = member.value.or (lastValue? members) := by
  rw [lastValue?, List.reverse_append, List.reverse_singleton, List.singleton_append, List.findSome?_cons]
  cases member.value <;> rfl

theorem Enumeration.countBefore_append (members : List Member) (member : Member) :
    countBefore (members ++ [member]) = member.countAfter (countBefore members) := by
  rw [countBefore, List.foldl_append]
  rfl

theorem Member.countAfter_number {member : Member} {text : String} (hvalue : member.value = some (.number text))
    {literal : Literal} (hliteral : readStrict? text.toList = some literal) (count : Binary64) :
    member.countAfter count = (Binary64.ofLiteral literal).addOne := by
  simp only [countAfter, hvalue, ofText?_of_readStrict? hliteral]

/-- What members count is a whole number that is exact. -/
theorem countBefore_whole {members : List Member} (h : ∀ member ∈ members, member.IsWhole) :
    ∃ n : Int, n.natAbs ≤ 2 ^ 53 ∧ Enumeration.countBefore members = Binary64.ofInt n := by
  induction members using List.reverseRecOn with
  | nil => exact ⟨0, by decide, by decide⟩
  | append_singleton members member ih =>
    rw [List.forall_mem_append, List.forall_mem_singleton] at h
    obtain ⟨n, hbound, hcount⟩ := ih h.1
    rw [Enumeration.countBefore_append]
    have hnext : (Enumeration.countBefore members).addOne = (Binary64.ofInt n).addOne := congrArg _ hcount
    have hunvalued : ∃ m : Int, m.natAbs ≤ 2 ^ 53 ∧ (Enumeration.countBefore members).addOne = Binary64.ofInt m := by
      by_cases htop : n = 2 ^ 53
      · exact ⟨n, hbound, by rw [hnext, htop, Binary64.addOne_bound]⟩
      · exact ⟨n + 1, by omega, by rw [hnext, Binary64.addOne_eq (Binary64.ofInt_represents hbound)]⟩
    cases hvalue : member.value with
    | none => simpa only [Member.countAfter, hvalue] using hunvalued
    | some value =>
      cases value with
      | string value => simpa only [Member.countAfter, hvalue] using hunvalued
      | number text =>
        obtain ⟨literal, m, hliteral, hwrites, hless⟩ := h.2 text hvalue
        have hrepresents := Binary64.ofQuotient_represents literal.negative (Nat.le_of_lt hless)
        rw [← Binary64.ofLiteral_eq hwrites (Nat.lt_trans hless (by decide)), ← hwrites.2] at hrepresents
        refine ⟨m + 1, by omega, ?_⟩
        rw [Member.countAfter_number hvalue hliteral, Binary64.addOne_eq hrepresents]

/-- The text of a count is read as the count. -/
theorem readLiteral?_countBefore {members : List Member} (h : ∀ member ∈ members, member.IsWhole) :
    readLiteral? (Enumeration.countBefore members).text = some (.number (Enumeration.countBefore members)) := by
  obtain ⟨n, hbound, hcount⟩ := countBefore_whole h
  obtain ⟨literal, hliteral, hnumber⟩ := Binary64.readStrict?_text hbound
  rw [hcount, readLiteral?_eq hliteral, hnumber, if_pos]
  rw [Binary64.text_ofInt hbound]
  exact isPlain_toString n

/-- Whether a script gives a value to a member behind others, where values are not nominal. -/
def Member.isNumbered (before : List Member) (member : Member) : Bool :=
  match member.value with
  | some (.string _) => true
  | some (.number text) => isPlain text.toList
  | none => (lastValue? before).all MemberValue.isCountable

namespace TypeExpr
variable {style : TypeStyle} {members : List Member}

theorem EnumItem.nextBehind_append (items : List EnumItem) (item : EnumItem) :
    nextBehind (items ++ [item]) = (value? (nextBehind items) item).bind Constant.next? := by
  rw [nextBehind, List.foldl_append]
  rfl

theorem EnumItem.value?_ofMember {member : Member} (hnominal : style.nominalEnums = false)
    (next : Option Binary64) :
    value? next (EnumItem.ofMember style member) =
      match member.value with
      | some (.string value) => some (.text value)
      | some (.number text) => readLiteral? text
      | none => next.map .number := by
  cases hvalue : member.value with
  | none => simp only [value?, ofMember, Member.initializer?, hvalue, hnominal, Bool.false_eq_true, if_false]
  | some value =>
    cases value with
    | string value => simp only [value?, ofMember, Member.initializer?, hvalue, readLiteral?_quote]
    | number text => simp only [value?, ofMember, Member.initializer?, hvalue, hnominal, Bool.false_eq_true, if_false]

/-- A script counts as long as the last value lets it, and then it counts the same. -/
theorem EnumItem.nextBehind_ofMember (h : ∀ member ∈ members, member.IsWhole) (hnominal : style.nominalEnums = false) :
    nextBehind (members.map (EnumItem.ofMember style)) =
      if (lastValue? members).all MemberValue.isCountable then some (Enumeration.countBefore members) else none := by
  induction members using List.reverseRecOn with
  | nil => rfl
  | append_singleton members member ih =>
    rw [List.forall_mem_append, List.forall_mem_singleton] at h
    rw [List.map_append, List.map_singleton, nextBehind_append, ih h.1, lastValue?_append,
      Enumeration.countBefore_append, value?_ofMember hnominal]
    cases hvalue : member.value with
    | none =>
      simp only [Option.none_or, Member.countAfter, hvalue]
      split <;> rfl
    | some value =>
      cases value with
      | string value => rfl
      | number text =>
        obtain ⟨literal, n, hliteral, -, -⟩ := h.2 text hvalue
        simp only [readLiteral?_eq hliteral, Member.countAfter_number hvalue hliteral, Option.some_or, Option.all_some,
          MemberValue.isCountable]
        split <;> rfl

theorem EnumItem.valueAt?_ofMember {index : Nat} {member : Member} (hmember : members[index]? = some member) :
    valueAt? (members.map (EnumItem.ofMember style)) index =
      value? (nextBehind ((members.take index).map (EnumItem.ofMember style))) (EnumItem.ofMember style member) := by
  rw [valueAt?, List.getElem?_map, hmember, List.map_take]
  rfl

/-- Every member has a nominal value. -/
theorem EnumItem.valueAt?_nominal (hnominal : style.nominalEnums = true) {index : Nat} {member : Member}
    (hmember : members[index]? = some member) :
    ∃ text, valueAt? (members.map (EnumItem.ofMember style)) index = some (.text text) := by
  rw [valueAt?_ofMember hmember]
  simp only [value?, ofMember, Member.initializer?, hnominal, if_true]
  cases member.value with
  | none => exact ⟨_, readLiteral?_quote _⟩
  | some value => cases value <;> exact ⟨_, readLiteral?_quote _⟩

/-- Without nominal values, a member has a value if it is numbered. -/
theorem EnumItem.valueAt?_isSome_iff (h : ∀ member ∈ members, member.IsWhole) (hnominal : style.nominalEnums = false)
    {index : Nat} {member : Member} (hmember : members[index]? = some member) :
    (valueAt? (members.map (EnumItem.ofMember style)) index).isSome ↔ member.isNumbered (members.take index) = true := by
  have hbefore : ∀ member ∈ members.take index, member.IsWhole := fun member hmem => h member (List.mem_of_mem_take hmem)
  rw [valueAt?_ofMember hmember, nextBehind_ofMember hbefore hnominal, value?_ofMember hnominal, Member.isNumbered]
  cases hvalue : member.value with
  | none => rw [Option.isSome_map, Option.isSome_ite]
  | some value =>
    cases value with
    | string value => exact iff_of_true rfl rfl
    | number text =>
      obtain ⟨literal, n, hliteral, -, -⟩ := h member (List.mem_of_getElem? hmember) text hvalue
      simp only [readLiteral?_eq hliteral, Option.isSome_ite]

/-- The literal of a member is read as the value that the member has. -/
theorem EnumItem.readLiteral?_literal {content : Enumeration} (h : ∀ member ∈ content.members, member.IsWhole)
    {index : Nat} {member : Member} (hmember : content.members[index]? = some member) {constant : Constant}
    (hconstant : valueAt? (content.members.map (EnumItem.ofMember style)) index = some constant) :
    readLiteral? (content.literal style.nominalEnums index) = some constant := by
  have hbefore : ∀ member ∈ content.members.take index, member.IsWhole :=
    fun member hmem => h member (List.mem_of_mem_take hmem)
  rw [valueAt?_ofMember hmember, value?] at hconstant
  rw [Enumeration.literal, hmember, Option.bind_some]
  simp only [ofMember] at hconstant
  cases hinitializer : member.initializer? style.nominalEnums with
  | some text => simpa only [hinitializer] using hconstant
  | none =>
    -- only a member without a value is left out, and only where values are not nominal
    have hnominal : style.nominalEnums = false := by
      cases hnominal : style.nominalEnums with
      | false => rfl
      | true =>
        rw [Member.initializer?, hnominal] at hinitializer
        split at hinitializer <;> cases hinitializer
    simp only [hinitializer, Option.map_eq_some_iff] at hconstant ⊢
    obtain ⟨count, hnext, rfl⟩ := hconstant
    rw [nextBehind_ofMember hbefore hnominal] at hnext
    split at hnext
    · cases hnext
      exact readLiteral?_countBefore hbefore
    · cases hnext

end TypeExpr
end SchemaGuards

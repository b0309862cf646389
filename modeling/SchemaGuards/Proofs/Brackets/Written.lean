import SchemaGuards.Proofs.Brackets.Numbers
import SchemaGuards.Proofs.Brackets.Scan
import SchemaGuards.Proofs.Expansion.Clean
import SchemaGuards.Proofs.Layout

/-!
# Written types and guards are balanced

Every form of a type and of a guard closes the brackets that it opens around balanced parts, and quotes what a schema
may spell in any way. So clean expansions are written as balanced texts, over any balanced accessor.
-/
namespace SchemaGuards
open Text

section Parts

theorem Text.isPlain_of_numeral {c : Char} (h : Decimal.isNumeral c = true) : isPlain c = true := by
  refine decide_eq_true (fun hmark => ?_)
  have hnone : marks.all (fun mark => Decimal.isNumeral mark = false) = true := by decide
  cases h.symm.trans (of_decide_eq_true (List.all_eq_true.1 hnone c hmark))

theorem Text.isBalanced_intercalate {separator : String} {parts : List String} (hseparator : IsBalanced separator)
    (h : ∀ part ∈ parts, IsBalanced part) : IsBalanced (String.intercalate separator parts) := by
  induction parts with
  | nil => exact isBalanced_empty
  | cons part rest ih =>
    cases rest with
    | nil => exact h part List.mem_cons_self
    | cons next others =>
      rw [String.intercalate_cons_cons]
      have hrest := ih (fun other hother => h other (List.mem_cons_of_mem part hother))
      exact ((h part List.mem_cons_self).append hseparator).append hrest

theorem isBalanced_literal {text : String} (h : Decimal.isFiniteLiteral text.toList = true) : IsBalanced text :=
  isBalanced_of_plain (fun c hc => isPlain_of_numeral (Decimal.isNumeral_of_isFiniteLiteral h c hc))

theorem isBalanced_nat (n : Nat) : IsBalanced (toString n) :=
  isBalanced_of_plain (fun _ hc => isPlain_of_numeral (Decimal.isNumeral_of_mem_nat hc))

theorem Primitive.isBalanced_text {value : Primitive} (h : value.IsNumeric) : IsBalanced value.text := by
  cases value with
  | boolean value => cases value <;> decide
  | number text => exact isBalanced_literal h
  | string value => exact isBalanced_quote value
  | intrinsic value => cases value <;> decide

theorem IsMemberLiteral.isBalanced {text : String} (h : IsMemberLiteral text) : IsBalanced text := by
  cases h with
  | quoted value => exact isBalanced_quote value
  | number _ h => exact isBalanced_literal h
  | counted number => exact isBalanced_of_plain (fun c hc => isPlain_of_numeral (Decimal.isNumeral_text number c hc))

theorem Terminal.isBalanced_typeName (type : Terminal) : IsBalanced type.typeName := by cases type <;> decide

/-- A name that is written as it is. -/
abbrev Text.IsIdentifier (name : String) : Prop := isIdentifier name = true

theorem isBalanced_identifier {name : String} (h : IsIdentifier name) : IsBalanced name :=
  isBalanced_of_plain (isPlain_of_identifier h)

namespace Reference
variable (target : Option Scope) {entry : Entry}

theorem isBalanced_qualifier (h : entry.identity.IsNamed IsIdentifier) :
    IsBalanced (ofEntry target entry).qualifier := by
  unfold ofEntry qualifier
  by_cases hown : target = some entry.identity.scope
  · simp only [hown, if_true]
    exact isBalanced_empty
  · simp only [hown, if_false]
    have halias : IsBalanced (Scope.alias entry.identity.scope) :=
      isBalanced_intercalate (by decide) (fun segment hsegment => isBalanced_identifier (h.2 segment hsegment))
    exact halias.append (by decide)

theorem isBalanced_text (h : entry.identity.IsNamed IsIdentifier) : IsBalanced (ofEntry target entry).text :=
  (isBalanced_qualifier target h).append (isBalanced_identifier h.1)

theorem isBalanced_guardName (h : entry.identity.IsNamed IsIdentifier) : IsBalanced (ofEntry target entry).guardName :=
  ((isBalanced_qualifier target h).append (by decide)).append (isBalanced_identifier h.1)

theorem isBalanced_memberText (h : entry.identity.IsNamed IsIdentifier) (member : String) :
    IsBalanced ((ofEntry target entry).memberText member) := by
  unfold memberText
  split
  · next hmember => exact ((isBalanced_text target h).append (by decide)).append (isBalanced_identifier hmember)
  · have howner : Moves ("(typeof " ++ (ofEntry target entry).text ++ ")[") [] [']'] :=
      Moves.append (Moves.append (by decide : Moves "(typeof " [] [')']) ((isBalanced_text target h).moves _)) (by decide)
    exact (isBalanced_quote member).between howner (by decide)

end Reference

theorem LifecycleSet.isBalanced_references (states : LifecycleSet) : IsBalanced states.references := by
  refine isBalanced_intercalate (by decide) ?_
  intro text htext
  rcases List.mem_map.1 htext with ⟨state, _, rfl⟩
  cases state <;> decide

end Parts

namespace Layout
variable {layouts : List Layout}

theorem isBalanced_join (h : ∀ layout ∈ layouts, IsBalanced (flat layout)) {separator content : String}
    (hseparator : IsBalanced (separator ++ content)) : IsBalanced (flat (join separator content layouts)) := by
  rw [flat_join]
  refine isBalanced_intercalate hseparator ?_
  simpa using h

theorem isBalanced_separated (h : ∀ layout ∈ layouts, IsBalanced (flat layout)) {separator : String}
    (hseparator : IsBalanced separator) : IsBalanced (flat (separated separator layouts)) := by
  rw [flat_separated]
  refine isBalanced_intercalate hseparator ?_
  simpa using h

theorem isBalanced_block (h : ∀ layout ∈ layouts, IsBalanced (flat layout)) : IsBalanced (flat (block layouts)) := by
  have hitems : IsBalanced (String.intercalate ", " (layouts.map flat)) :=
    isBalanced_intercalate (by decide) (by simpa using h)
  rw [flat_block]
  exact hitems.between (by decide : Moves _ [] ['\x7d']) (by decide)

end Layout

namespace VisibilityMap
open Layout

mutual
theorem isBalanced_entry (entry : VisibilityEntry) : IsBalanced (flat (entryLayout entry)) := by
  rcases entry with ⟨key, states, nested⟩
  have hstates : ∀ layout ∈ states.toList.map (fun states => Layout.text ("vis: [" ++ states.references ++ "]")),
      IsBalanced (flat layout) := by
    intro layout hlayout
    rcases List.mem_map.1 hlayout with ⟨states, _, rfl⟩
    rw [flat_text]
    exact states.isBalanced_references.between (by decide : Moves _ [] [']']) (by decide)
  have hnested : ∀ layout ∈
      (if nested.isEmpty then [] else [Layout.text "nested: " ++ Layout.block (entryLayouts nested)]),
      IsBalanced (flat layout) := by
    intro layout hlayout
    split at hlayout
    · cases hlayout
    · cases List.mem_singleton.1 hlayout
      rw [flat_append, flat_text]
      exact IsBalanced.append (by decide) (isBalanced_block (isBalanced_entries nested))
  have hfields := isBalanced_join (List.forall_mem_append.2 ⟨hstates, hnested⟩) (by decide : IsBalanced ("," ++ " "))
  rw [entryLayout, flat_append, flat_append, flat_text, flat_text]
  have hkey : Moves (quote key ++ ": \x7b") [] ['\x7d'] := Moves.append ((isBalanced_quote key).moves []) (by decide)
  exact hfields.between hkey (by decide)
termination_by structural entry

theorem isBalanced_entries (entries : List VisibilityEntry) :
    ∀ layout ∈ entryLayouts entries, IsBalanced (flat layout) := by
  cases entries with
  | nil => simp [entryLayouts]
  | cons entry rest =>
    rw [entryLayouts, List.forall_mem_cons]
    exact ⟨isBalanced_entry entry, isBalanced_entries rest⟩
end

/-- A map is written as a balanced text, whatever its keys are. -/
theorem isBalanced_layout (map : VisibilityMap) : IsBalanced (flat (layout map)) :=
  isBalanced_block (isBalanced_entries map)

end VisibilityMap

namespace TypeExpr
open Layout

section Style
variable {style : TypeStyle}

theorem isBalanced_filter {shape : TypeExpr} (h : IsBalanced (flat shape.layout)) (hargument : IsBalanced style.argument)
    (inModel : Bool) (restrictions : VisibilityMap) :
    IsBalanced (flat (filter style inModel restrictions shape).layout) := by
  unfold filter
  split
  · exact h
  · rw [layout, flat_append, flat_append, flat_wrapped, flat_text]
    have hshape : IsBalanced ("FilterLifecycle<" ++ flat shape.layout ++ ", ") :=
      h.between (by decide : Moves _ [] []) (by decide)
    have hrest : IsBalanced (", " ++ style.argument ++ ">") := hargument.between (by decide : Moves _ [] []) (by decide)
    exact (hshape.append (VisibilityMap.isBalanced_layout restrictions)).append hrest

theorem isBalanced_item (hdocs : style.emitDocs = false) {member : Member} (h : member.IsNumeric) :
    IsBalanced (flat (EnumItem.layout (EnumItem.ofMember style member))) := by
  have hdoc : (EnumItem.ofMember style member).doc = none := by simp [EnumItem.ofMember, hdocs]
  rw [EnumItem.layout, hdoc, docLayout, List.nil_append, flat_append, flat_text]
  refine (isBalanced_propertyKey member.name).append ?_
  cases hvalue : member.initializer? style.nominalEnums with
  | none =>
    simp only [EnumItem.ofMember, hvalue]
    exact isBalanced_empty
  | some value =>
    simp only [EnumItem.ofMember, hvalue, flat_text]
    exact IsBalanced.append (by decide) (Member.initializer?_isLiteral h hvalue).isBalanced

mutual
/-- The type that a clean expansion writes, without documentation. -/
theorem isBalanced_ofExpansion (hdocs : style.emitDocs = false) (hargument : IsBalanced style.argument) (inModel : Bool)
    (expansion : Expansion)
    (h : expansion.IsClean IsIdentifier) :
    IsBalanced (flat (ofExpansion style inModel expansion).layout) := by
  cases expansion with
  | reference entry generic =>
    have htext := Reference.isBalanced_text style.target h
    cases generic with
    | false =>
      simp only [ofExpansion, Bool.false_eq_true, if_false, layout, flat_text]
      exact htext
    | true =>
      simp only [ofExpansion, if_true, layout, flat_text]
      exact ((htext.append (by decide)).append hargument).append (by decide)
  | primitive value =>
    rw [ofExpansion, layout, flat_text]
    exact Primitive.isBalanced_text h
  | enumeration members =>
    rw [ofExpansion, layout]
    apply isBalanced_block
    intro item hitem
    simp only [List.mem_map] at hitem
    rcases hitem with ⟨_, ⟨member, hmember, rfl⟩, rfl⟩
    exact isBalanced_item hdocs (h member hmember)
  | member owner name literal =>
    cases owner with
    | none =>
      rw [ofExpansion, layout, flat_text]
      exact h.2.isBalanced
    | some entry =>
      rw [ofExpansion, layout, flat_text]
      exact Reference.isBalanced_memberText style.target (h.1 entry rfl) name
  | mapped text => cases h
  | terminal type =>
    rw [ofExpansion, layout, flat_text]
    exact type.isBalanced_typeName
  | unresolved =>
    rw [ofExpansion, layout, flat_text]
    decide
  | derived base => exact isBalanced_ofExpansion hdocs hargument false base h
  | indexed kind element =>
    have helement := isBalanced_ofExpansion hdocs hargument true element h
    rw [ofExpansion]
    refine isBalanced_filter ?_ hargument inModel _
    cases kind with
    | array =>
      rw [layout, flat_wrapped]
      exact helement.between (by decide : Moves _ [] [')']) (by decide)
    | record =>
      rw [layout, flat_wrapped]
      exact helement.between (by decide : Moves _ [] ['\x7d']) (by decide)
  | model base properties =>
    cases base with
    | none =>
      rw [ofExpansion]
      refine isBalanced_filter ?_ hargument inModel _
      rw [layout]
      exact isBalanced_block (isBalanced_fieldsOf hdocs hargument properties h)
    | some base =>
      rw [ofExpansion]
      refine isBalanced_filter ?_ hargument inModel _
      rw [layout, flat_append, flat_append, flat_text]
      have hbase := isBalanced_ofExpansion hdocs hargument true base h.1
      exact (hbase.append (by decide)).append (isBalanced_block (isBalanced_fieldsOf hdocs hargument properties h.2))
  | tuple elements =>
    rw [ofExpansion, layout, flat_wrapped]
    have helements := isBalanced_separated (isBalanced_listOf hdocs hargument elements h) (by decide : IsBalanced ", ")
    exact helements.between (by decide : Moves _ [] [']']) (by decide)
  | union variants =>
    rw [ofExpansion, layout]
    split
    · rw [flat_text]
      decide
    · exact isBalanced_separated (isBalanced_listOf hdocs hargument variants h) (by decide)
termination_by structural expansion

theorem isBalanced_fieldsOf (hdocs : style.emitDocs = false) (hargument : IsBalanced style.argument)
    (properties : List (Property Expansion))
    (h : Expansion.PropertiesClean IsIdentifier properties) :
    ∀ layout ∈ fieldLayouts (fieldsOf style properties), IsBalanced (flat layout) := by
  cases properties with
  | nil => simp [fieldsOf, fieldLayouts]
  | cons property rest =>
    rcases property with ⟨name, type, optional, visibility, doc⟩
    rw [fieldsOf, fieldLayouts, List.forall_mem_cons]
    refine ⟨?_, isBalanced_fieldsOf hdocs hargument rest h.2⟩
    rw [hdocs, flat_append, flat_append, flat_text]
    have hmark : IsBalanced (if optional then "?" else "") := by cases optional <;> decide
    have hkey : IsBalanced (propertyKey name ++ (if optional then "?" else "") ++ ": ") :=
      ((isBalanced_propertyKey name).append hmark).append (by decide)
    exact (IsBalanced.append isBalanced_empty hkey).append (isBalanced_ofExpansion hdocs hargument true type h.1)

theorem isBalanced_listOf (hdocs : style.emitDocs = false) (hargument : IsBalanced style.argument)
    (expansions : List Expansion)
    (h : Expansion.AreClean IsIdentifier expansions) :
    ∀ layout ∈ layouts (listOf style expansions), IsBalanced (flat layout) := by
  cases expansions with
  | nil => simp [listOf, layouts]
  | cons expansion rest =>
    rw [listOf, layouts, List.forall_mem_cons]
    exact ⟨isBalanced_ofExpansion hdocs hargument false expansion h.1, isBalanced_listOf hdocs hargument rest h.2⟩
end

end Style
end TypeExpr

namespace Accessor
variable {owner : Accessor}

theorem isBalanced_property (h : IsBalanced owner.text) (key : String) :
    IsBalanced (Accessor.property owner key).text :=
  h.indexAccess key

theorem isBalanced_position (h : IsBalanced owner.text) (index : Nat) :
    IsBalanced (Accessor.position owner index).text :=
  have hopened := (h.moves []).append (by decide : Moves "[" [] [']'])
  Moves.append (hopened.append ((isBalanced_nat index).moves _)) (by decide)

theorem isBalanced_untyped (h : IsBalanced owner.text) : IsBalanced (Accessor.untyped owner).text :=
  h.between (by decide : Moves "(" [] [')']) (by decide)

theorem isBalanced_element (kind : Indexed) : IsBalanced (Accessor.element kind).text := by cases kind <;> decide

end Accessor

namespace Guard
open Layout

theorem isBalanced_typeTest {value : Accessor} (h : IsBalanced value.text) (type : Terminal) :
    IsBalanced (typeTest value type) := by
  unfold typeTest
  split
  · exact (h.append (by decide)).append type.isBalanced_typeName
  · have hliteral : IsBalanced (" === '" ++ (type.typeName ++ "'")) := by cases type <;> decide
    rw [String.append_assoc, String.append_assoc]
    exact (IsBalanced.append (by decide) h).append hliteral

theorem moves_everyLead {value : Accessor} (h : IsBalanced value.text) (kind : Indexed) :
    Moves (everyLead value kind) [] [')'] := by
  cases kind with
  | array =>
    have htest : IsBalanced ("Array.isArray(" ++ value.text ++ ") && ") :=
      h.between (by decide : Moves _ [] [')']) (by decide)
    exact Moves.append (htest.append h) (by decide)
  | record =>
    have htype : IsBalanced ("typeof " ++ value.text ++ " === 'object' && ") :=
      h.between (by decide : Moves _ [] []) (by decide)
    have hentries : Moves _ [] [')'] :=
      Moves.append (htype.append h) (by decide : Moves " !== null && Object.entries(" [] [')'])
    exact (hentries.append (h.moves _)).append (by decide)

theorem isBalanced_ofPrimitive {value : Accessor} (h : IsBalanced value.text) {literal : Primitive}
    (hnumeric : literal.IsNumeric) : IsBalanced (flat (ofPrimitive value literal).layout) := by
  have hequals : IsBalanced (value.text ++ " === " ++ literal.text) :=
    (h.append (by decide)).append (Primitive.isBalanced_text hnumeric)
  have hundefined : IsBalanced (value.text ++ " === undefined") := h.append (by decide)
  have hconstant : ∀ answer : Bool, IsBalanced (if answer then "true" else "false") := by decide
  cases literal with
  | intrinsic intrinsic =>
    cases intrinsic with
    | unknown | never =>
      rw [ofPrimitive, layout, flat_text]
      exact hconstant _
    | void =>
      rw [ofPrimitive, layout, flat_text]
      exact hundefined
    | null =>
      rw [ofPrimitive, layout, flat_text]
      · exact hequals
      all_goals simp
  | boolean | number | string =>
    rw [ofPrimitive, layout, flat_text]
    · exact hequals
    all_goals simp

/-- A conjunction of balanced clauses, some of them in parentheses. -/
theorem isBalanced_conjunction {clauses : List Layout} (h : ∀ clause ∈ clauses, IsBalanced (flat clause)) :
    IsBalanced (flat (conjunction clauses)) := by
  unfold conjunction
  split
  · rw [flat_text]
    decide
  · exact h _ (List.mem_singleton_self _)
  · refine isBalanced_join ?_ (by decide)
    intro layout hlayout
    rcases List.mem_map.1 hlayout with ⟨clause, hclause, rfl⟩
    split
    · rw [flat_wrapped]
      exact (h clause hclause).between (by decide : Moves _ [] [')']) (by decide)
    · exact h clause hclause

section Clause
variable {owner : Accessor} (howner : IsBalanced owner.text) (key : String)
include howner

theorem lacks_enclosed : ∃ inner, IsBalanced inner ∧ flat (lacks key owner).layout = "!(" ++ inner ++ ")" := by
  refine ⟨quote key ++ " in " ++ owner.text, ((isBalanced_quote key).append (by decide)).append howner, ?_⟩
  rw [layout, flat_text]
  simp only [String.append_assoc]

theorem isBalanced_lacks : IsBalanced (flat (lacks key owner).layout) := by
  rcases lacks_enclosed howner key with ⟨inner, hinner, htext⟩
  rw [htext]
  exact hinner.between (by decide : Moves _ [] [')']) (by decide)

/-- All of a restricted clause stands between parentheses. -/
theorem restricted_enclosed (states : LifecycleSet) {content : Guard} (h : IsBalanced (flat content.layout)) :
    ∃ inner, IsBalanced inner ∧ flat (restricted states key owner content).layout = "(" ++ inner ++ ")" := by
  have hphase : IsBalanced ("(vis as any) !== Lifecycle.All && ![" ++ states.references ++ "].includes(vis) ? ") :=
    states.isBalanced_references.between (by decide : Moves _ [] [']']) (by decide)
  have hcontent : IsBalanced (" : (" ++ flat content.layout ++ ")") :=
    h.between (by decide : Moves _ [] [')']) (by decide)
  refine ⟨_, (hphase.append (isBalanced_lacks howner key)).append hcontent, ?_⟩
  have hlead : "((vis as any) !== Lifecycle.All && ![" = "(" ++ "(vis as any) !== Lifecycle.All && ![" := by decide
  have hquestion : "].includes(vis) ? !(" = "].includes(vis) ? " ++ "!(" := by decide
  have hcolon : ") : (" = ")" ++ " : (" := by decide
  have hend : "))" = ")" ++ ")" := by decide
  have hlacks : flat (lacks key owner).layout = "!(" ++ quote key ++ " in " ++ owner.text ++ ")" := by
    rw [layout, flat_text]
  rw [hlacks, layout, flat_wrapped, hlead, hquestion, hcolon, hend]
  simp only [String.append_assoc]

theorem isBalanced_restricted (states : LifecycleSet) {content : Guard} (h : IsBalanced (flat content.layout)) :
    IsBalanced (flat (restricted states key owner content).layout) := by
  rcases restricted_enclosed howner key states h with ⟨inner, hinner, htext⟩
  rw [htext]
  exact hinner.between (by decide : Moves _ [] [')']) (by decide)

theorem isBalanced_clause (optional : Bool) (visibility : Option LifecycleSet) (presence : Presence) {content : Guard}
    (h : IsBalanced (flat content.layout)) :
    IsBalanced (flat (clause owner key optional visibility presence content).layout) := by
  have hpresent : IsBalanced (flat (present optional (.property owner key) content).layout) := by
    rw [layout, flat_wrapped]
    have htest : Moves (if optional then " === undefined || (" else " !== undefined && (") [] [')'] := by
      cases optional <;> decide
    exact h.between (Moves.append ((Accessor.isBalanced_property howner key).moves []) htest) (by decide)
  cases visibility with
  | none =>
    cases presence with
    | forbidden => exact isBalanced_lacks howner key
    | free => exact h
    | tested => exact hpresent
  | some states =>
    cases presence with
    | forbidden => exact isBalanced_restricted howner key states (isBalanced_lacks howner key)
    | free => exact isBalanced_restricted howner key states h
    | tested => exact isBalanced_restricted howner key states hpresent

end Clause

theorem isBalanced_tuple {value : Accessor} (h : IsBalanced value.text) {elements : List Guard}
    (helements : ∀ layout ∈ layouts elements, IsBalanced (flat layout)) :
    IsBalanced (flat (tuple value elements).layout) := by
  rw [layout, flat_append, flat_text]
  have hlist : IsBalanced ("Array.isArray(" ++ value.text ++ ") && ") :=
    h.between (by decide : Moves _ [] [')']) (by decide)
  have hlength : IsBalanced (toString elements.length) := isBalanced_nat elements.length
  refine (((hlist.append h).append (by decide)).append hlength).append ?_
  generalize layouts elements = parts at helements
  induction parts with
  | nil => exact isBalanced_empty
  | cons part rest ih =>
    rw [List.forall_mem_cons] at helements
    rw [List.flatMap_cons, flat_append, flat_wrapped]
    exact (helements.1.between (by decide : Moves _ [] [')']) (by decide)).append (ih helements.2)

mutual
/-- The guard that a clean expansion writes over a balanced accessor. -/
theorem isBalanced_ofExpansion (target : Option Scope) (value : Accessor) (hvalue : IsBalanced value.text)
    (expansion : Expansion) (h : expansion.IsClean IsIdentifier) :
    IsBalanced (flat (ofExpansion target value expansion).layout) := by
  cases expansion with
  | reference entry generic =>
    rw [ofExpansion, ofReference]
    split
    · rw [layout, flat_text]
      decide
    · rw [layout, flat_text]
      have hname := Reference.isBalanced_guardName target h
      have hargument : IsBalanced (if generic then ", vis" else "") := by cases generic <;> decide
      have hcall : Moves _ [] [')'] := Moves.append (hname.moves []) (by decide : Moves "(" [] [')'])
      exact ((hcall.append (hvalue.moves _)).append (hargument.moves _)).append (by decide)
  | primitive literal => exact isBalanced_ofPrimitive hvalue h
  | enumeration | member | unresolved =>
    rw [ofExpansion, layout, flat_text]
    decide
  | mapped text => cases h
  | terminal type =>
    rw [ofExpansion, layout, flat_text]
    exact isBalanced_typeTest hvalue type
  | derived base => exact isBalanced_ofExpansion target value hvalue base h
  | indexed kind element =>
    have helement := isBalanced_ofExpansion target (Accessor.element kind) (Accessor.isBalanced_element kind) element h
    rw [ofExpansion, layout, flat_append, flat_append, flat_text, flat_text]
    exact helement.between (moves_everyLead hvalue kind) (by decide)
  | model base properties =>
    cases base with
    | none =>
      rw [ofExpansion, layout]
      exact isBalanced_conjunction (isBalanced_clausesOf target value hvalue properties h)
    | some base =>
      rw [ofExpansion, layout, layouts]
      refine isBalanced_conjunction (List.forall_mem_cons.2 ⟨isBalanced_ofExpansion target value hvalue base h.1, ?_⟩)
      exact isBalanced_clausesOf target (.untyped value) (Accessor.isBalanced_untyped hvalue) properties h.2
  | tuple elements => exact isBalanced_tuple hvalue (isBalanced_positionsOf target value hvalue 0 elements h)
  | union variants =>
    rw [ofExpansion, layout]
    split
    · rw [flat_text]
      decide
    · refine isBalanced_join ?_ (by decide)
      intro layout hlayout
      rcases List.mem_map.1 hlayout with ⟨variant, hvariant, rfl⟩
      rw [flat_wrapped]
      have hinner := isBalanced_variantsOf target value hvalue variants h variant hvariant
      exact hinner.between (by decide : Moves _ [] [')']) (by decide)
termination_by structural expansion

theorem isBalanced_clausesOf (target : Option Scope) (owner : Accessor) (howner : IsBalanced owner.text)
    (properties : List (Property Expansion)) (h : Expansion.PropertiesClean IsIdentifier properties) :
    ∀ layout ∈ layouts (clausesOf target owner properties), IsBalanced (flat layout) := by
  cases properties with
  | nil => simp [clausesOf, layouts]
  | cons property rest =>
    rcases property with ⟨name, type, optional, visibility, doc⟩
    rw [clausesOf, layouts, List.forall_mem_cons]
    have hvalue := Accessor.isBalanced_property howner name
    have htype := isBalanced_ofExpansion target (.property owner name) hvalue type h.1
    exact ⟨isBalanced_clause howner name optional visibility _ htype, isBalanced_clausesOf target owner howner rest h.2⟩

theorem isBalanced_positionsOf (target : Option Scope) (value : Accessor) (hvalue : IsBalanced value.text) (index : Nat)
    (elements : List Expansion) (h : Expansion.AreClean IsIdentifier elements) :
    ∀ layout ∈ layouts (positionsOf target value index elements), IsBalanced (flat layout) := by
  cases elements with
  | nil => simp [positionsOf, layouts]
  | cons element rest =>
    rw [positionsOf, layouts, List.forall_mem_cons]
    have hposition := Accessor.isBalanced_position hvalue index
    have helement := isBalanced_ofExpansion target (.position value index) hposition element h.1
    exact ⟨helement, isBalanced_positionsOf target value hvalue (index + 1) rest h.2⟩

theorem isBalanced_variantsOf (target : Option Scope) (value : Accessor) (hvalue : IsBalanced value.text)
    (variants : List Expansion) (h : Expansion.AreClean IsIdentifier variants) :
    ∀ layout ∈ layouts (variantsOf target value variants), IsBalanced (flat layout) := by
  cases variants with
  | nil => simp [variantsOf, layouts]
  | cons variant rest =>
    rw [variantsOf, layouts, List.forall_mem_cons]
    exact ⟨isBalanced_ofExpansion target value hvalue variant h.1, isBalanced_variantsOf target value hvalue rest h.2⟩
end

end Guard
end SchemaGuards

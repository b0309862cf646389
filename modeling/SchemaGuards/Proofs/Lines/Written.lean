import SchemaGuards.Proofs.Brackets.Numbers
import SchemaGuards.Proofs.Expansion.Clean
import SchemaGuards.Proofs.Lines.Layouts

/-!
# Written types and guards between line breaks

Every form of a type and of a guard is written line by line: names, literals and accessors have no line breaks, and a
break between two parts is a soft one. Only the comments of documentation may bring line breaks of their own.
-/
namespace SchemaGuards
open Text

section Parts

theorem isLine_of_numeral {text : String} (h : ∀ c ∈ text.toList, Decimal.isNumeral c = true) : IsLine text :=
  isLine_of_forall (by decide) (by decide) h

theorem isLine_literal {text : String} (h : Decimal.isFiniteLiteral text.toList = true) : IsLine text :=
  isLine_of_numeral (Decimal.isNumeral_of_isFiniteLiteral h)

theorem isLine_nat (n : Nat) : IsLine (toString n) := isLine_of_numeral (fun _ hc => Decimal.isNumeral_of_mem_nat hc)

theorem Primitive.isLine_text {value : Primitive} (h : value.IsNumeric) : IsLine value.text := by
  cases value with
  | boolean value => cases value <;> decide
  | number text => exact isLine_literal h
  | string value => exact isLine_quote value
  | intrinsic value => cases value <;> decide

theorem IsMemberLiteral.isLine {text : String} (h : IsMemberLiteral text) : IsLine text := by
  cases h with
  | quoted value => exact isLine_quote value
  | number _ h => exact isLine_literal h
  | counted number => exact isLine_of_numeral (Decimal.isNumeral_text number)

theorem Terminal.isLine_typeName (type : Terminal) : IsLine type.typeName := by cases type <;> decide

theorem LifecycleSet.isLine_references (states : LifecycleSet) : IsLine states.references := by
  refine isLine_intercalate (by decide) ?_
  intro text htext
  rcases List.mem_map.1 htext with ⟨state, _, rfl⟩
  cases state <;> decide

namespace Reference
variable (target : Option Scope) {entry : Entry} (h : entry.identity.IsNamed IsLine)
include h

theorem isLine_qualifier : IsLine (ofEntry target entry).qualifier := by
  unfold ofEntry qualifier
  by_cases hown : target = some entry.identity.scope
  · simp only [hown, if_true]
    decide
  · simp only [hown, if_false]
    exact (isLine_intercalate (by decide) h.2).append (by decide)

theorem isLine_text : IsLine (ofEntry target entry).text := (isLine_qualifier target h).append h.1

theorem isLine_guardName : IsLine (ofEntry target entry).guardName :=
  ((isLine_qualifier target h).append (by decide)).append h.1

theorem isLine_memberText (member : String) : IsLine ((ofEntry target entry).memberText member) := by
  have htext := isLine_text target h
  unfold memberText
  split
  · next hmember =>
    have hname : IsLine member := isLine_of_forall (by decide) (by decide) (fun _ hc => isIdentifierRest_of_mem hmember hc)
    exact (htext.append (by decide)).append hname
  · have howner : IsLine ("(typeof " ++ (ofEntry target entry).text) := IsLine.append (by decide) htext
    exact ((howner.append (by decide)).append (isLine_quote member)).append (by decide)

end Reference

namespace Accessor
variable {owner : Accessor} (h : IsLine owner.text)
include h

theorem isLine_property (key : String) : IsLine (Accessor.property owner key).text :=
  ((h.append (by decide)).append (isLine_quote key)).append (by decide)

theorem isLine_position (index : Nat) : IsLine (Accessor.position owner index).text :=
  ((h.append (by decide)).append (isLine_nat index)).append (by decide)

theorem isLine_untyped : IsLine (Accessor.untyped owner).text :=
  (IsLine.append (by decide : IsLine "(") h).append (by decide)

end Accessor

theorem Accessor.isLine_element (kind : Indexed) : IsLine (Accessor.element kind).text := by cases kind <;> decide

end Parts

namespace VisibilityMap
open Layout

mutual
theorem unbroken_entry (entry : VisibilityEntry) : IsBrokenBy (entryLayout entry) [] := by
  rcases entry with ⟨key, states, nested⟩
  have hstates : IsBrokenBy
      (states.toList.map (fun states => Layout.text ("vis: [" ++ states.references ++ "]"))).flatten [] := by
    cases states with
    | none => exact .nil
    | some states =>
      rw [Option.toList_some, List.map_singleton, List.flatten_singleton]
      exact .text ((IsLine.append (by decide) states.isLine_references).append (by decide))
  have hnested : IsBrokenBy
      (if nested.isEmpty then [] else [Layout.text "nested: " ++ Layout.block (entryLayouts nested)]).flatten [] := by
    split
    · exact .nil
    · rw [List.flatten_singleton]
      exact .append (.text (by decide)) (.block (unbroken_entries nested))
  have hfields := hstates.append hnested
  rw [← List.flatten_append] at hfields
  have hkey : IsLine (quote key ++ ": \x7b") := (isLine_quote key).append (by decide)
  rw [entryLayout]
  exact ((IsBrokenBy.text hkey).append (.join (by decide) (by decide) hfields)).append (.text (by decide))
termination_by structural entry

theorem unbroken_entries (entries : List VisibilityEntry) : IsBrokenBy (entryLayouts entries).flatten [] := by
  cases entries with
  | nil => exact .nil
  | cons entry rest =>
    rw [entryLayouts, List.flatten_cons]
    exact (unbroken_entry entry).append (unbroken_entries rest)
end

end VisibilityMap

namespace Expansion

mutual
/-- The documentation that an expansion holds in place: that of members and of properties. -/
def docs : Expansion → List String
  | .enumeration members => members.filterMap Member.doc
  | .derived base => docs base
  | .indexed _ element => docs element
  | .model (some base) properties => docs base ++ propertyDocs properties
  | .model none properties => propertyDocs properties
  | .tuple elements => listDocs elements
  | .union variants => listDocs variants
  | _ => []
termination_by structural expansion => expansion

def propertyDocs : List (Property Expansion) → List String
  | [] => []
  | ⟨_, type, _, _, doc⟩ :: rest => doc.toList ++ docs type ++ propertyDocs rest

def listDocs : List Expansion → List String
  | [] => []
  | expansion :: rest => docs expansion ++ listDocs rest
end

end Expansion

def TypeStyle.brokenComments (style : TypeStyle) (docs : List String) : List String :=
  if style.emitDocs then (docs.map docComment).filter (fun comment => ¬ IsLine comment) else []

theorem TypeStyle.brokenComments_append (style : TypeStyle) (docs more : List String) :
    style.brokenComments (docs ++ more) = style.brokenComments docs ++ style.brokenComments more := by
  unfold brokenComments
  split <;> simp

theorem TypeStyle.mem_brokenComments {style : TypeStyle} {docs : List String} {comment : String} :
    comment ∈ style.brokenComments docs ↔
      style.emitDocs = true ∧ ∃ doc ∈ docs, comment = docComment doc ∧ ¬ IsLine comment := by
  unfold brokenComments
  by_cases hdocs : style.emitDocs = true
  · simp only [hdocs, if_true, List.mem_filter, List.mem_map, decide_eq_true_eq, true_and]
    constructor
    · rintro ⟨⟨doc, hdoc, rfl⟩, hbroken⟩
      exact ⟨doc, hdoc, rfl, hbroken⟩
    · rintro ⟨doc, hdoc, rfl, hbroken⟩
      exact ⟨⟨doc, hdoc, rfl⟩, hbroken⟩
  · simp [hdocs]

namespace TypeExpr
open Layout

variable {style : TypeStyle}

theorem docLayout_isBrokenBy (style : TypeStyle) (doc : Option String) :
    IsBrokenBy (docLayout (if style.emitDocs then doc else none)) (style.brokenComments doc.toList) := by
  unfold TypeStyle.brokenComments
  cases style.emitDocs with
  | false => exact .nil
  | true =>
    cases doc with
    | none => exact .nil
    | some doc => exact (IsBrokenBy.text_eq _).append_line (.softLine (by decide))

theorem item_isBrokenBy {member : Member} (h : member.IsNumeric) :
    IsBrokenBy (EnumItem.layout (EnumItem.ofMember style member)) (style.brokenComments member.doc.toList) := by
  unfold EnumItem.layout EnumItem.ofMember
  refine ((docLayout_isBrokenBy style member.doc).append_line (.text (isLine_propertyKey member.name))).append_line ?_
  cases hvalue : member.initializer? style.nominalEnums with
  | none => exact .nil
  | some value => exact .text (IsLine.append (by decide) (Member.initializer?_isLiteral h hvalue).isLine)

theorem items_isBrokenBy {members : List Member} (h : ∀ member ∈ members, member.IsNumeric) :
    IsBrokenBy ((members.map (EnumItem.ofMember style)).map EnumItem.layout).flatten
      (style.brokenComments (members.filterMap Member.doc)) := by
  induction members with
  | nil =>
    unfold TypeStyle.brokenComments
    split <;> exact .nil
  | cons member rest ih =>
    rw [List.forall_mem_cons] at h
    have hdocs : (member :: rest).filterMap Member.doc = member.doc.toList ++ rest.filterMap Member.doc := by
      rw [List.filterMap_cons]
      cases member.doc <;> rfl
    rw [hdocs, TypeStyle.brokenComments_append]
    exact (item_isBrokenBy h.1).append (ih h.2)

theorem filter_isBrokenBy {shape : TypeExpr} {broken : List String} (h : IsBrokenBy shape.layout broken)
    (hargument : IsLine style.argument) (inModel : Bool) (restrictions : VisibilityMap) :
    IsBrokenBy (filter style inModel restrictions shape).layout broken := by
  unfold filter
  split
  · exact h
  · rw [layout]
    have hshape := h.wrapped (by decide : IsLine "FilterLifecycle<") (by decide : IsLine ", ")
    have hmap : IsBrokenBy (VisibilityMap.layout restrictions) [] := .block (VisibilityMap.unbroken_entries restrictions)
    exact (hshape.append_line hmap).append_line (.text ((IsLine.append (by decide) hargument).append (by decide)))

theorem brokenComments_nil : style.brokenComments [] = [] := by
  unfold TypeStyle.brokenComments
  split <;> rfl

theorem undocumented {content : String} (h : IsLine content) :
    IsBrokenBy (Layout.text content) (style.brokenComments []) := by
  rw [brokenComments_nil]
  exact .text h

mutual
/-- The type that a clean expansion writes is broken by the comments of the documentation that it holds. -/
theorem ofExpansion_isBrokenBy (hargument : IsLine style.argument) (inModel : Bool) (expansion : Expansion)
    (h : expansion.IsClean IsLine) :
    IsBrokenBy (ofExpansion style inModel expansion).layout (style.brokenComments expansion.docs) := by
  cases expansion with
  | reference entry generic =>
    have htext := Reference.isLine_text style.target h
    cases generic with
    | false => exact undocumented htext
    | true => exact undocumented (((htext.append (by decide)).append hargument).append (by decide))
  | primitive value => exact undocumented (Primitive.isLine_text h)
  | enumeration members => exact .block (items_isBrokenBy h)
  | member owner name literal =>
    cases owner with
    | none => exact undocumented h.2.isLine
    | some entry => exact undocumented (Reference.isLine_memberText style.target (h.1 entry rfl) name)
  | mapped text => cases h
  | terminal type => exact undocumented type.isLine_typeName
  | unresolved => exact undocumented (by decide : IsLine "unknown")
  | derived base => exact ofExpansion_isBrokenBy hargument false base h
  | indexed kind element =>
    have helement := ofExpansion_isBrokenBy hargument true element h
    rw [ofExpansion]
    refine filter_isBrokenBy ?_ hargument inModel _
    cases kind with
    | array => exact helement.wrapped (by decide) (by decide)
    | record => exact helement.wrapped (by decide) (by decide)
  | model base properties =>
    cases base with
    | none =>
      rw [ofExpansion]
      refine filter_isBrokenBy ?_ hargument inModel _
      exact .block (fieldsOf_isBrokenBy hargument properties h)
    | some base =>
      rw [ofExpansion, Expansion.docs, TypeStyle.brokenComments_append]
      refine filter_isBrokenBy ?_ hargument inModel _
      have hbase := ofExpansion_isBrokenBy hargument true base h.1
      exact (hbase.append_line (.text (by decide))).append (.block (fieldsOf_isBrokenBy hargument properties h.2))
  | tuple elements =>
    exact .wrapped (by decide) (by decide) (.separated (by decide) (listOf_isBrokenBy hargument elements h))
  | union variants =>
    have hvariants := listOf_isBrokenBy hargument variants h
    cases variants with
    | nil => exact undocumented (by decide : IsLine "never")
    | cons => exact .separated (by decide) hvariants
termination_by structural expansion

theorem fieldsOf_isBrokenBy (hargument : IsLine style.argument) (properties : List (Property Expansion))
    (h : Expansion.PropertiesClean IsLine properties) :
    IsBrokenBy (fieldLayouts (fieldsOf style properties)).flatten
      (style.brokenComments (Expansion.propertyDocs properties)) := by
  cases properties with
  | nil =>
    rw [Expansion.propertyDocs, brokenComments_nil]
    exact .nil
  | cons property rest =>
    rcases property with ⟨name, type, optional, visibility, doc⟩
    rw [fieldsOf, fieldLayouts, List.flatten_cons, Expansion.propertyDocs, TypeStyle.brokenComments_append,
      TypeStyle.brokenComments_append]
    have hmark : IsLine (if optional then "?" else "") := by cases optional <;> decide
    have hkey : IsLine (propertyKey name ++ (if optional then "?" else "") ++ ": ") :=
      ((isLine_propertyKey name).append hmark).append (by decide)
    have hfield := ((docLayout_isBrokenBy style doc).append_line (.text hkey)).append
      (ofExpansion_isBrokenBy hargument true type h.1)
    exact hfield.append (fieldsOf_isBrokenBy hargument rest h.2)

theorem listOf_isBrokenBy (hargument : IsLine style.argument) (expansions : List Expansion)
    (h : Expansion.AreClean IsLine expansions) :
    IsBrokenBy (layouts (listOf style expansions)).flatten (style.brokenComments (Expansion.listDocs expansions)) := by
  cases expansions with
  | nil =>
    rw [Expansion.listDocs, brokenComments_nil]
    exact .nil
  | cons expansion rest =>
    rw [listOf, layouts, List.flatten_cons, Expansion.listDocs, TypeStyle.brokenComments_append]
    exact (ofExpansion_isBrokenBy hargument false expansion h.1).append (listOf_isBrokenBy hargument rest h.2)
end

end TypeExpr

namespace Guard
open Layout

section Forms
variable {value : Accessor} (h : IsLine value.text)
include h

theorem isLine_typeTest (type : Terminal) : IsLine (typeTest value type) := by
  unfold typeTest
  split
  · exact (h.append (by decide)).append type.isLine_typeName
  · have hopened : IsLine ("typeof " ++ value.text ++ " === '") := (IsLine.append (by decide) h).append (by decide)
    exact (hopened.append type.isLine_typeName).append (by decide)

theorem isLine_everyLead (kind : Indexed) : IsLine (everyLead value kind) := by
  cases kind with
  | array =>
    have htest : IsLine ("Array.isArray(" ++ value.text ++ ") && ") := (IsLine.append (by decide) h).append (by decide)
    exact (htest.append h).append (by decide)
  | record =>
    have htype : IsLine ("typeof " ++ value.text ++ " === 'object' && ") :=
      (IsLine.append (by decide) h).append (by decide)
    exact (((htype.append h).append (by decide)).append h).append (by decide)

theorem unbroken_ofPrimitive {literal : Primitive} (hnumeric : literal.IsNumeric) :
    IsBrokenBy (ofPrimitive value literal).layout [] := by
  have hequals : IsBrokenBy (equals value literal).layout [] :=
    .text ((h.append (by decide)).append (Primitive.isLine_text hnumeric))
  cases literal with
  | intrinsic intrinsic =>
    cases intrinsic with
    | unknown | never => exact .text (by decide)
    | void => exact .text (h.append (by decide))
    | null => exact hequals
  | boolean | number | string => exact hequals

theorem unbroken_lacks (key : String) : IsBrokenBy (lacks key value).layout [] := by
  have hkey : IsLine ("!(" ++ quote key ++ " in ") := (IsLine.append (by decide) (isLine_quote key)).append (by decide)
  exact .text ((hkey.append h).append (by decide))

theorem unbroken_present (optional : Bool) {content : Guard} (hcontent : IsBrokenBy content.layout []) :
    IsBrokenBy (present optional value content).layout [] := by
  have htest : IsLine (if optional then " === undefined || (" else " !== undefined && (") := by cases optional <;> decide
  exact hcontent.wrapped (h.append htest) (by decide)

theorem unbroken_restricted (states : LifecycleSet) (key : String) {content : Guard}
    (hcontent : IsBrokenBy content.layout []) : IsBrokenBy (restricted states key value content).layout [] := by
  have hphase : IsLine ("((vis as any) !== Lifecycle.All && ![" ++ states.references ++ "].includes(vis) ? !(") :=
    (IsLine.append (by decide) states.isLine_references).append (by decide)
  exact hcontent.wrapped ((((hphase.append (isLine_quote key)).append (by decide)).append h).append (by decide)) (by decide)

theorem unbroken_clause (key : String) (optional : Bool) (visibility : Option LifecycleSet) (presence : Presence)
    {content : Guard} (hcontent : IsBrokenBy content.layout []) :
    IsBrokenBy (clause value key optional visibility presence content).layout [] := by
  have hshown : IsBrokenBy (clause value key optional none presence content).layout [] := by
    cases presence with
    | forbidden => exact unbroken_lacks h key
    | free => exact hcontent
    | tested => exact unbroken_present (Accessor.isLine_property h key) optional hcontent
  cases visibility with
  | none => exact hshown
  | some states => exact unbroken_restricted h states key hshown

end Forms

theorem unbroken_conjunction {clauses : List Layout} (h : IsBrokenBy clauses.flatten []) :
    IsBrokenBy (conjunction clauses) [] := by
  unfold conjunction
  split
  · exact .text (by decide)
  · rwa [List.flatten_singleton] at h
  · refine .join (by decide) (by decide) ?_
    rw [← List.flatMap_def]
    refine .flatMap (fun layout broken hlayout => ?_) h
    split
    · exact hlayout.wrapped (by decide) (by decide)
    · exact hlayout

mutual
/-- The guard that a clean expansion writes has no line breaks in its texts. -/
theorem unbroken_ofExpansion (target : Option Scope) (value : Accessor) (hvalue : IsLine value.text)
    (expansion : Expansion) (h : expansion.IsClean IsLine) : IsBrokenBy (ofExpansion target value expansion).layout [] := by
  cases expansion with
  | reference entry generic =>
    rw [ofExpansion, ofReference]
    split
    · exact .text (by decide)
    · have hname := Reference.isLine_guardName target h
      have hargument : IsLine (if generic then ", vis" else "") := by cases generic <;> decide
      exact .text ((((hname.append (by decide)).append hvalue).append hargument).append (by decide))
  | primitive literal => exact unbroken_ofPrimitive hvalue h
  | enumeration | member | unresolved => exact .text (by decide : IsLine "true")
  | mapped text => cases h
  | terminal type => exact .text (isLine_typeTest hvalue type)
  | derived base => exact unbroken_ofExpansion target value hvalue base h
  | indexed kind element =>
    have helement := unbroken_ofExpansion target (Accessor.element kind) (Accessor.isLine_element kind) element h
    exact ((IsBrokenBy.text (isLine_everyLead hvalue kind)).append helement).append (.text (by decide))
  | model base properties =>
    cases base with
    | none => exact unbroken_conjunction (unbroken_clausesOf target value hvalue properties h)
    | some base =>
      refine unbroken_conjunction ?_
      rw [layouts, List.flatten_cons]
      have hbase := unbroken_ofExpansion target value hvalue base h.1
      exact hbase.append (unbroken_clausesOf target (.untyped value) (Accessor.isLine_untyped hvalue) properties h.2)
  | tuple elements =>
    have hlist : IsLine ("Array.isArray(" ++ value.text ++ ") && ") :=
      (IsLine.append (by decide) hvalue).append (by decide)
    have hlength : IsLine (toString (positionsOf target value 0 elements).length) := isLine_nat _
    refine .append (.text (((hlist.append hvalue).append (by decide)).append hlength)) ?_
    exact .flatMap (fun _ _ hlayout => hlayout.wrapped (by decide) (by decide))
      (unbroken_positionsOf target value hvalue 0 elements h)
  | union variants =>
    rw [ofExpansion, layout]
    split
    · exact .text (by decide)
    · refine .join (by decide) (by decide) ?_
      rw [← List.flatMap_def]
      exact .flatMap (fun _ _ hlayout => hlayout.wrapped (by decide) (by decide))
        (unbroken_variantsOf target value hvalue variants h)
termination_by structural expansion

theorem unbroken_clausesOf (target : Option Scope) (owner : Accessor) (howner : IsLine owner.text)
    (properties : List (Property Expansion)) (h : Expansion.PropertiesClean IsLine properties) :
    IsBrokenBy (layouts (clausesOf target owner properties)).flatten [] := by
  cases properties with
  | nil => exact .nil
  | cons property rest =>
    rcases property with ⟨name, type, optional, visibility, doc⟩
    rw [clausesOf, layouts, List.flatten_cons]
    have htype := unbroken_ofExpansion target (.property owner name) (Accessor.isLine_property howner name) type h.1
    exact (unbroken_clause howner name optional visibility _ htype).append
      (unbroken_clausesOf target owner howner rest h.2)

theorem unbroken_positionsOf (target : Option Scope) (value : Accessor) (hvalue : IsLine value.text) (index : Nat)
    (elements : List Expansion) (h : Expansion.AreClean IsLine elements) :
    IsBrokenBy (layouts (positionsOf target value index elements)).flatten [] := by
  cases elements with
  | nil => exact .nil
  | cons element rest =>
    rw [positionsOf, layouts, List.flatten_cons]
    have helement := unbroken_ofExpansion target (.position value index) (Accessor.isLine_position hvalue index) element h.1
    exact helement.append (unbroken_positionsOf target value hvalue (index + 1) rest h.2)

theorem unbroken_variantsOf (target : Option Scope) (value : Accessor) (hvalue : IsLine value.text)
    (variants : List Expansion) (h : Expansion.AreClean IsLine variants) :
    IsBrokenBy (layouts (variantsOf target value variants)).flatten [] := by
  cases variants with
  | nil => exact .nil
  | cons variant rest =>
    rw [variantsOf, layouts, List.flatten_cons]
    exact (unbroken_ofExpansion target value hvalue variant h.1).append (unbroken_variantsOf target value hvalue rest h.2)
end

end Guard
end SchemaGuards

import SchemaGuards.Proofs.Expansion.Restrictions
import SchemaGuards.Proofs.Layout
import SchemaGuards.Written.TypeExpr

/-!
# The lifecycle of written types

A type takes its lifecycle argument where it refers to a generic declaration and where it filters a
shape. Inside a model its restrictions may be left to the model, outside of one they are not: there a
written type takes the argument exactly when its expansion holds a restriction.
-/
namespace SchemaGuards

namespace TypeExpr

mutual
/-- The lifecycle arguments that a type is written with. -/
def arguments : TypeExpr → List String
  | .reference _ argument => argument.toList
  | .indexed _ element => arguments element
  | .tuple elements => listArguments elements
  | .union variants => listArguments variants
  | .object (some base) fields => arguments base ++ fieldArguments fields
  | .object none fields => fieldArguments fields
  | .filtered shape _ argument => argument :: arguments shape
  | _ => []
termination_by structural type => type

def listArguments : List TypeExpr → List String
  | [] => []
  | type :: rest => arguments type ++ listArguments rest

def fieldArguments : List (Property TypeExpr) → List String
  | [] => []
  | ⟨_, type, _, _, _⟩ :: rest => arguments type ++ fieldArguments rest
end

theorem isEmpty_append {α : Type} (left right : List α) :
    (left ++ right).isEmpty = (left.isEmpty && right.isEmpty) := by
  cases left <;> simp

theorem isEmpty_arguments_filter (style : TypeStyle) (inModel : Bool) (restrictions : VisibilityMap)
    (shape : TypeExpr) :
    ((filter style inModel restrictions shape).arguments.isEmpty && (!inModel || restrictions.isEmpty)) =
      (shape.arguments.isEmpty && restrictions.isEmpty) := by
  rw [filter]
  cases hempty : restrictions.isEmpty <;> cases inModel <;> simp [arguments]

theorem isEmpty_ofProperty (key : String) (states : Option LifecycleSet) (nested : VisibilityMap) :
    (VisibilityMap.ofProperty key states nested).isEmpty = (!states.isSome && nested.isEmpty) := by
  unfold VisibilityMap.ofProperty VisibilityMap.push VisibilityEntry.isMeaningful
  cases states <;> cases nested <;> simp

theorem isEmpty_wildcard (element : VisibilityMap) :
    (VisibilityMap.wildcard element).isEmpty = element.isEmpty := by
  unfold VisibilityMap.wildcard VisibilityMap.push VisibilityEntry.isMeaningful
  cases element <;> simp

theorem isEmpty_restrictions_indexed (kind : Indexed) (element : Expansion) :
    (Expansion.indexed kind element).restrictions.isEmpty = element.restrictions.isEmpty := by
  cases kind with
  | array => rfl
  | record => exact isEmpty_wildcard _

mutual
/-- What restricts an expansion is an argument of its type or, inside a model, left to the model. -/
theorem restricts_ofExpansion (style : TypeStyle) (inModel : Bool) (expansion : Expansion) :
    ((ofExpansion style inModel expansion).arguments.isEmpty && (!inModel || expansion.restrictions.isEmpty)) =
      !expansion.restricts := by
  cases expansion with
  | reference entry generic => cases generic <;> cases inModel <;> rfl
  | primitive | enumeration | mapped | terminal | unresolved => cases inModel <;> rfl
  | member owner name literal => cases owner <;> cases inModel <;> rfl
  | derived base =>
    have hroot := restricts_ofExpansion style false base
    have hinner := restricts_ofExpansion style true base
    simp only [Bool.not_false, Bool.true_or, Bool.and_true] at hroot
    simp only [Bool.not_true, Bool.false_or] at hinner
    rw [ofExpansion, Expansion.restricts, Expansion.restrictions, hroot]
    -- A restriction that could be left to a model is one all the same.
    cases inModel with
    | false => simp
    | true =>
      cases hempty : base.restrictions.isEmpty with
      | true => simp
      | false =>
        rw [hempty, Bool.and_false] at hinner
        simp [← hinner]
  | indexed kind element =>
    have hinner := restricts_ofExpansion style true element
    simp only [Bool.not_true, Bool.false_or] at hinner
    rw [ofExpansion, isEmpty_arguments_filter, isEmpty_restrictions_indexed, Expansion.restricts, ← hinner]
    rfl
  | model base properties =>
    have hfields := restrict_fieldsOf style properties
    cases base with
    | none => rw [ofExpansion, isEmpty_arguments_filter, Expansion.restricts, ← hfields]; rfl
    | some base =>
      have hinner := restricts_ofExpansion style true base
      simp only [Bool.not_true, Bool.false_or] at hinner
      rw [ofExpansion, isEmpty_arguments_filter, Expansion.restricts, Bool.not_or, ← hinner, ← hfields,
        arguments, Expansion.restrictions, isEmpty_append, isEmpty_append]
      cases (ofExpansion style true base).arguments.isEmpty <;>
        cases (fieldArguments (fieldsOf style properties)).isEmpty <;> simp
  | tuple elements =>
    have helements := restrict_listOf style elements
    cases inModel <;> simpa [ofExpansion, Expansion.restricts, Expansion.restrictions, arguments] using helements
  | union variants =>
    have hvariants := restrict_listOf style variants
    cases inModel <;> simpa [ofExpansion, Expansion.restricts, Expansion.restrictions, arguments] using hvariants
termination_by structural expansion

theorem restrict_fieldsOf (style : TypeStyle) (properties : List (Property Expansion)) :
    ((fieldArguments (fieldsOf style properties)).isEmpty &&
      (Expansion.propertyRestrictions properties).isEmpty) = !Expansion.propertiesRestrict properties := by
  cases properties with
  | nil => rfl
  | cons property rest =>
    rcases property with ⟨name, type, optional, visibility, doc⟩
    have htype := restricts_ofExpansion style true type
    have hrest := restrict_fieldsOf style rest
    simp only [Bool.not_true, Bool.false_or] at htype
    rw [fieldsOf, fieldArguments, Expansion.propertyRestrictions, Expansion.propertiesRestrict,
      isEmpty_append, isEmpty_append, isEmpty_ofProperty, Bool.not_or, Bool.not_or, ← htype, ← hrest]
    cases visibility.isSome <;> cases type.restrictions.isEmpty <;> simp [Bool.and_assoc]

theorem restrict_listOf (style : TypeStyle) (expansions : List Expansion) :
    (listArguments (listOf style expansions)).isEmpty = !Expansion.listRestricts expansions := by
  cases expansions with
  | nil => rfl
  | cons expansion rest =>
    have hfirst := restricts_ofExpansion style false expansion
    have hrest := restrict_listOf style rest
    simp only [Bool.not_false, Bool.true_or, Bool.and_true] at hfirst
    rw [listOf, listArguments, Expansion.listRestricts, isEmpty_append, hfirst, hrest, Bool.not_or]
end

/-- Outside a model, a type takes the lifecycle when its expansion restricts anything. -/
theorem isEmpty_arguments (style : TypeStyle) (expansion : Expansion) :
    (ofExpansion style false expansion).arguments.isEmpty = !expansion.restricts := by
  simpa using restricts_ofExpansion style false expansion

/-- Nothing is left to a model by an expansion that restricts nothing. -/
theorem isEmpty_restrictions {expansion : Expansion} (h : expansion.restricts = false) :
    expansion.restrictions.isEmpty = true := by
  have htype := restricts_ofExpansion ⟨none, "", false, false⟩ true expansion
  rw [h, Bool.not_false, Bool.not_true, Bool.false_or, Bool.and_eq_true] at htype
  exact htype.2

mutual
theorem arguments_eq (style : TypeStyle) (inModel : Bool) (expansion : Expansion) :
    ∀ argument ∈ (ofExpansion style inModel expansion).arguments, argument = style.argument := by
  have hfilter : ∀ (restrictions : VisibilityMap) (shape : TypeExpr),
      (∀ argument ∈ shape.arguments, argument = style.argument) →
      ∀ argument ∈ (filter style inModel restrictions shape).arguments, argument = style.argument := by
    intro restrictions shape hshape argument hargument
    rw [filter] at hargument
    split at hargument
    · exact hshape argument hargument
    · rcases List.mem_cons.1 hargument with rfl | hargument
      · rfl
      · exact hshape argument hargument
  cases expansion with
  | reference entry generic => cases generic <;> simp [ofExpansion, arguments]
  | primitive | enumeration | mapped | terminal | unresolved => simp [ofExpansion, arguments]
  | member owner name literal => cases owner <;> simp [ofExpansion, arguments]
  | derived base => exact arguments_eq style false base
  | indexed kind element => exact hfilter _ _ (arguments_eq style true element)
  | model base properties =>
    have hfields := fieldArguments_eq style properties
    cases base with
    | none => exact hfilter _ _ hfields
    | some base =>
      have hbase := arguments_eq style true base
      apply hfilter
      intro argument hargument
      rw [arguments, List.mem_append] at hargument
      exact hargument.elim (hbase argument) (hfields argument)
  | tuple elements => exact listArguments_eq style elements
  | union variants => exact listArguments_eq style variants
termination_by structural expansion

theorem fieldArguments_eq (style : TypeStyle) (properties : List (Property Expansion)) :
    ∀ argument ∈ fieldArguments (fieldsOf style properties), argument = style.argument := by
  cases properties with
  | nil => simp [fieldsOf, fieldArguments]
  | cons property rest =>
    rcases property with ⟨name, type, optional, visibility, doc⟩
    intro argument hargument
    rw [fieldsOf, fieldArguments, List.mem_append] at hargument
    exact hargument.elim (arguments_eq style true type argument) (fieldArguments_eq style rest argument)

theorem listArguments_eq (style : TypeStyle) (expansions : List Expansion) :
    ∀ argument ∈ listArguments (listOf style expansions), argument = style.argument := by
  cases expansions with
  | nil => simp [listOf, listArguments]
  | cons expansion rest =>
    intro argument hargument
    rw [listOf, listArguments, List.mem_append] at hargument
    exact hargument.elim (arguments_eq style false expansion argument) (listArguments_eq style rest argument)
end

def withArgument (style : TypeStyle) (argument : String) : TypeStyle := { style with argument }

mutual
/-- An expansion that restricts nothing is written the same with every lifecycle argument. -/
theorem ofExpansion_withArgument (style : TypeStyle) (argument : String) (inModel : Bool) (expansion : Expansion)
    (h : expansion.restricts = false) :
    ofExpansion (withArgument style argument) inModel expansion = ofExpansion style inModel expansion := by
  have hfilter : ∀ shape : TypeExpr, filter (withArgument style argument) inModel expansion.restrictions shape =
      filter style inModel expansion.restrictions shape := by
    intro shape
    simp [filter, isEmpty_restrictions h]
  cases expansion with
  | reference entry generic =>
    cases h
    rfl
  | primitive | enumeration | mapped | terminal | unresolved => rfl
  | member owner name literal => cases owner <;> rfl
  | derived base => exact ofExpansion_withArgument style argument false base h
  | indexed kind element =>
    rw [ofExpansion, ofExpansion, hfilter, ofExpansion_withArgument style argument true element h]
  | model base properties =>
    cases base with
    | none => rw [ofExpansion, ofExpansion, hfilter, fieldsOf_withArgument style argument properties h]
    | some base =>
      rw [Expansion.restricts, Bool.or_eq_false_iff] at h
      rw [ofExpansion, ofExpansion, hfilter, ofExpansion_withArgument style argument true base h.1,
        fieldsOf_withArgument style argument properties h.2]
  | tuple elements => rw [ofExpansion, ofExpansion, listOf_withArgument style argument elements h]
  | union variants => rw [ofExpansion, ofExpansion, listOf_withArgument style argument variants h]
termination_by structural expansion

theorem fieldsOf_withArgument (style : TypeStyle) (argument : String) (properties : List (Property Expansion))
    (h : Expansion.propertiesRestrict properties = false) :
    fieldsOf (withArgument style argument) properties = fieldsOf style properties := by
  cases properties with
  | nil => rfl
  | cons property rest =>
    rcases property with ⟨name, type, optional, visibility, doc⟩
    rw [Expansion.propertiesRestrict, Bool.or_eq_false_iff, Bool.or_eq_false_iff] at h
    rw [fieldsOf, fieldsOf, ofExpansion_withArgument style argument true type h.1.2,
      fieldsOf_withArgument style argument rest h.2]
    rfl

theorem listOf_withArgument (style : TypeStyle) (argument : String) (expansions : List Expansion)
    (h : Expansion.listRestricts expansions = false) :
    listOf (withArgument style argument) expansions = listOf style expansions := by
  cases expansions with
  | nil => rfl
  | cons expansion rest =>
    rw [Expansion.listRestricts, Bool.or_eq_false_iff] at h
    rw [listOf, listOf, ofExpansion_withArgument style argument false expansion h.1,
      listOf_withArgument style argument rest h.2]
end

/-- How a lifecycle argument stands in the text of a type. -/
def Shows (text argument : String) : Prop :=
  Text.Contains text ("<" ++ argument ++ ">") ∨ Text.Contains text (", " ++ argument ++ ">")

mutual
theorem shows_argument (type : TypeExpr) {argument : String} (h : argument ∈ type.arguments) :
    ∃ content ∈ Layout.texts type.layout, Shows content argument := by
  cases type with
  | literal | terminal | verbatim | member | enumeration => cases h
  | reference target written =>
    cases written with
    | none => cases h
    | some own =>
      cases List.mem_singleton.1 h
      refine ⟨target.text ++ "<" ++ argument ++ ">", ?_, .inl ⟨target.text, "", ?_⟩⟩
      · rw [layout]
        apply Layout.mem_texts_text
        simp [String.append_eq_empty_iff]
      · simp [String.append_assoc]
  | indexed kind element =>
    rcases shows_argument element h with ⟨content, hcontent, hshows⟩
    refine ⟨content, ?_, hshows⟩
    cases kind with
    | array => exact Layout.texts_subset_wrapped _ _ _ hcontent
    | record => exact Layout.texts_subset_wrapped _ _ _ hcontent
  | tuple elements =>
    rcases shows_listArguments elements h with ⟨item, hitem, content, hcontent, hshows⟩
    exact ⟨content, Layout.texts_subset_wrapped _ _ _ (Layout.texts_subset_separated hitem hcontent), hshows⟩
  | union variants =>
    rcases shows_listArguments variants h with ⟨item, hitem, content, hcontent, hshows⟩
    refine ⟨content, ?_, hshows⟩
    cases variants with
    | nil => cases h
    | cons first rest => exact Layout.texts_subset_separated hitem hcontent
  | object base fields =>
    cases base with
    | none =>
      rcases shows_fieldArguments fields h with ⟨item, hitem, content, hcontent, hshows⟩
      exact ⟨content, Layout.texts_subset_block hitem hcontent, hshows⟩
    | some base =>
      rw [arguments, List.mem_append] at h
      rw [layout]
      simp only [Layout.texts_append, List.mem_append]
      rcases h with hbase | hfields
      · rcases shows_argument base hbase with ⟨content, hcontent, hshows⟩
        exact ⟨content, .inl (.inl hcontent), hshows⟩
      · rcases shows_fieldArguments fields hfields with ⟨item, hitem, content, hcontent, hshows⟩
        exact ⟨content, .inr (Layout.texts_subset_block hitem hcontent), hshows⟩
  | filtered shape restrictions own =>
    rw [layout]
    simp only [Layout.texts_append, List.mem_append]
    rcases List.mem_cons.1 h with rfl | hshape
    · refine ⟨", " ++ argument ++ ">", .inr (Layout.mem_texts_text ?_), .inr (.refl _)⟩
      simp [String.append_eq_empty_iff]
    · rcases shows_argument shape hshape with ⟨content, hcontent, hshows⟩
      exact ⟨content, .inl (.inl (Layout.texts_subset_wrapped _ _ _ hcontent)), hshows⟩
termination_by structural type

theorem shows_listArguments (types : List TypeExpr) {argument : String} (h : argument ∈ listArguments types) :
    ∃ item ∈ layouts types, ∃ content ∈ Layout.texts item, Shows content argument := by
  cases types with
  | nil => cases h
  | cons type rest =>
    rw [listArguments, List.mem_append] at h
    rw [layouts]
    rcases h with htype | hrest
    · exact ⟨type.layout, by simp, shows_argument type htype⟩
    · rcases shows_listArguments rest hrest with ⟨item, hitem, hshows⟩
      exact ⟨item, List.mem_cons_of_mem _ hitem, hshows⟩

theorem shows_fieldArguments (fields : List (Property TypeExpr)) {argument : String}
    (h : argument ∈ fieldArguments fields) :
    ∃ item ∈ fieldLayouts fields, ∃ content ∈ Layout.texts item, Shows content argument := by
  cases fields with
  | nil => cases h
  | cons field rest =>
    rcases field with ⟨name, type, optional, visibility, doc⟩
    rw [fieldArguments, List.mem_append] at h
    rw [fieldLayouts]
    rcases h with htype | hrest
    · rcases shows_argument type htype with ⟨content, hcontent, hshows⟩
      refine ⟨_, List.mem_cons_self, content, ?_, hshows⟩
      simp only [Layout.texts_append, List.mem_append]
      exact .inr hcontent
    · rcases shows_fieldArguments rest hrest with ⟨item, hitem, hshows⟩
      exact ⟨item, List.mem_cons_of_mem _ hitem, hshows⟩
end

end TypeExpr
end SchemaGuards

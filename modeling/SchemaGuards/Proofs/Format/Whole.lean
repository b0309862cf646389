import SchemaGuards.Proofs.Format.Reading
import SchemaGuards.Proofs.Traced

/-!
# All that is read is written

The readers take the attributes of an element in order, read all of its children and want it closed. So an
element that is read is a tree, and on trees the readers are the rules of the format: nothing is read but
what the rules write.
-/
namespace SchemaGuards

namespace Markup

/-- An element that is a tree: no attribute of it is at fault, it is closed, and so are all inside it. -/
def Element.IsWhole (element : Element) : Prop := ∃ tree : Tree, tree.toElement = element

def IsWholeContent (children : List Element) (ending : Ending) : Prop :=
  (∃ trees, toElements trees = children) ∧ ending = .closed

theorem exists_trees {children : List Element} (h : ∀ child ∈ children, child.IsWhole) :
    ∃ trees, toElements trees = children := by
  induction children with
  | nil => exact ⟨[], rfl⟩
  | cons child rest ih =>
    obtain ⟨tree, rfl⟩ := h child List.mem_cons_self
    obtain ⟨trees, rfl⟩ := ih fun other hother => h other (List.mem_cons_of_mem _ hother)
    exact ⟨tree :: trees, rfl⟩

mutual
/-- What holds of an element whenever it holds of its children holds of every element. -/
theorem Element.induct {motive : Element → Prop}
    (step : ∀ name attributes children ending, (∀ child ∈ children, motive child) →
      motive ⟨name, attributes, children, ending⟩) (element : Element) : motive element := by
  cases element with
  | mk name attributes children ending =>
    exact step name attributes children ending (Element.induct_children step children)
termination_by structural element

theorem Element.induct_children {motive : Element → Prop}
    (step : ∀ name attributes children ending, (∀ child ∈ children, motive child) →
      motive ⟨name, attributes, children, ending⟩) (children : List Element) : ∀ child ∈ children, motive child := by
  cases children with
  | nil => simp
  | cons first rest => exact List.forall_mem_cons.2 ⟨Element.induct step first, Element.induct_children step rest⟩
termination_by structural children
end

end Markup

namespace Draft
open Markup

section Whole
variable {name : String} {attributes : Attributes} {children : List Element} {ending : Ending}

theorem readEnding_ok {done : Unit} (h : readEnding name ending = .ok done) : ending = .closed := by
  cases ending with
  | closed => rfl
  | unfinished | broken => cases h

theorem readLeaf_ok {done : Unit} (h : readLeaf name children ending = .ok done) : IsWholeContent children ending := by
  cases children with
  | nil => exact ⟨⟨[], rfl⟩, readEnding_ok h⟩
  | cons child rest => cases h

theorem isWhole_of_content {element : Element} {keys : List Attribute}
    (hkeys : readKeys element.attributes = .ok keys) (h : IsWholeContent element.children element.ending) :
    element.IsWhole := by
  obtain ⟨name, attributes, children, ending⟩ := element
  obtain ⟨⟨trees, rfl⟩, rfl⟩ := h
  cases attributes with
  | error error => cases hkeys
  | ok keys => exact ⟨⟨name, keys, trees⟩, rfl⟩

/-- Children that are read one by one are whole. -/
theorem exists_trees_of_mapM {α : Type} {read : Element → Except ReadError α} {results : List α}
    (hread : ∀ child ∈ children, ∀ result, read child = .ok result → child.IsWhole)
    (h : children.mapM read = .ok results) : ∃ trees, toElements trees = children := by
  refine exists_trees fun child hchild => ?_
  obtain ⟨result, _, hresult⟩ := (mem_of_forall₂ (except_mapM_eq_ok.1 h)).1 child hchild
  exact hread child hchild result hresult

theorem exists_trees_of_foldlM {α : Type} {read : α → Element → Except ReadError α} {start result : α}
    (hread : ∀ child before after, read before child = .ok after → child.IsWhole)
    (h : children.foldlM read start = .ok result) : ∃ trees, toElements trees = children := by
  refine exists_trees ?_
  induction children generalizing start with
  | nil => simp
  | cons child rest ih =>
    rw [List.foldlM_cons] at h
    obtain ⟨middle, hmiddle, h⟩ := except_bind_ok h
    exact List.forall_mem_cons.2 ⟨hread child start middle hmiddle, ih h⟩

theorem forall_of_readSingle {found single : Option Form} (h : readSingle name found children = .ok single) :
    ∀ child ∈ children, ∃ form, readForm child = .ok form := by
  induction children generalizing found with
  | nil => simp
  | cons child rest ih =>
    rw [readSingle] at h
    obtain ⟨form, hform, h⟩ := except_bind_ok h
    split at h
    · cases h
    · exact List.forall_mem_cons.2 ⟨⟨form, hform⟩, ih h⟩

theorem readOptionalForm_isWhole {keys : List Attribute} {element : Element} {found : Option Form}
    (hforms : ∀ child ∈ element.children, ∀ form, readForm child = .ok form → child.IsWhole)
    (h : readOptionalForm keys element = .ok found) : IsWholeContent element.children element.ending := by
  rw [readOptionalForm] at h
  split at h
  · obtain ⟨_, hleaf, _⟩ := except_bind_ok h
    exact readLeaf_ok hleaf
  · obtain ⟨single, hsingle, h⟩ := except_bind_ok h
    obtain ⟨_, hending, _⟩ := except_bind_ok h
    refine ⟨exists_trees fun child hchild => ?_, readEnding_ok hending⟩
    obtain ⟨form, hform⟩ := forall_of_readSingle hsingle child hchild
    exact hforms child hchild form hform

theorem readForm_isWhole_of_children
    (hforms : ∀ child ∈ children, ∀ form, readForm child = .ok form → child.IsWhole)
    (hproperties : ∀ child ∈ children, ∀ owner property, readProperty owner child = .ok property → child.IsWhole)
    {form : Form} (h : readForm ⟨name, attributes, children, ending⟩ = .ok form) :
    Element.IsWhole ⟨name, attributes, children, ending⟩ := by
  by_cases hindexed : ∃ kind, FormElement.ofName? name = some (.indexed kind)
  · obtain ⟨kind, hkind⟩ := hindexed
    rw [readForm_eq_of_indexed hkind] at h
    obtain ⟨keys, hkeys, h⟩ := except_bind_ok h
    obtain ⟨element, helement, _⟩ := except_bind_ok h
    exact isWhole_of_content hkeys (readOptionalForm_isWhole hforms helement)
  · rw [readForm] at h
    obtain ⟨keys, hkeys, h⟩ := except_bind_ok h
    refine isWhole_of_content hkeys ?_
    cases hkind : FormElement.ofName? name with
    | none =>
      simp only [hkind] at h
      cases h
    | some kind =>
      simp only [hkind] at h
      cases hleaf : readLeafForm? name keys kind with
      | some leaf =>
        simp only [hleaf] at h
        obtain ⟨_, _, h⟩ := except_bind_ok h
        obtain ⟨_, hcontent, _⟩ := except_bind_ok h
        exact readLeaf_ok hcontent
      | none =>
        simp only [hleaf] at h
        cases kind with
        | tuple | union =>
          obtain ⟨parts, hparts, h⟩ := except_bind_ok h
          obtain ⟨_, hending, _⟩ := except_bind_ok h
          rw [readForms_eq_mapM] at hparts
          exact ⟨exists_trees_of_mapM hforms hparts, readEnding_ok hending⟩
        | model =>
          obtain ⟨properties, hread, h⟩ := except_bind_ok h
          obtain ⟨_, hending, _⟩ := except_bind_ok h
          rw [readProperties_eq_mapM] at hread
          exact ⟨exists_trees_of_mapM (fun child hchild => hproperties child hchild name) hread,
            readEnding_ok hending⟩
        | indexed kind => exact absurd ⟨kind, hkind⟩ hindexed
        | reference | string | number | boolean | unsupported => cases hleaf

theorem readProperty_isWhole_of_children {owner : String}
    (hforms : ∀ child ∈ children, ∀ form, readForm child = .ok form → child.IsWhole) {property : Property Form}
    (h : readProperty owner ⟨name, attributes, children, ending⟩ = .ok property) :
    Element.IsWhole ⟨name, attributes, children, ending⟩ := by
  by_cases hname : name = "property"
  · subst hname
    rw [readProperty_eq_of_name] at h
    obtain ⟨keys, hkeys, h⟩ := except_bind_ok h
    obtain ⟨_, _, h⟩ := except_bind_ok h
    obtain ⟨_, _, h⟩ := except_bind_ok h
    obtain ⟨_, _, h⟩ := except_bind_ok h
    obtain ⟨found, hfound, _⟩ := except_bind_ok h
    exact isWhole_of_content hkeys (readOptionalForm_isWhole hforms hfound)
  · rw [readProperty, if_neg hname] at h
    cases h

end Whole

/-- Types and properties, which hold one another, are read from whole elements only. -/
theorem readForm_and_readProperty_isWhole (element : Element) :
    (∀ form, readForm element = .ok form → element.IsWhole) ∧
      ∀ owner property, readProperty owner element = .ok property → element.IsWhole := by
  induction element using Element.induct with
  | step name attributes children ending ih =>
    have hforms := fun child hchild => (ih child hchild).1
    exact ⟨fun form => readForm_isWhole_of_children hforms fun child hchild => (ih child hchild).2,
      fun owner property => readProperty_isWhole_of_children hforms⟩

theorem readForm_isWhole {element : Element} {form : Form} (h : readForm element = .ok form) : element.IsWhole :=
  (readForm_and_readProperty_isWhole element).1 form h

theorem readType_isWhole {keys : List Attribute} {element : Element} {found : Option Form}
    (h : readOptionalForm keys element = .ok found) : IsWholeContent element.children element.ending :=
  readOptionalForm_isWhole (fun _ _ _ => readForm_isWhole) h

theorem readMember_isWhole {element : Element} {member : Member} (h : readMember element = .ok member) :
    element.IsWhole := by
  rw [readMember] at h
  split at h
  · obtain ⟨keys, hkeys, h⟩ := except_bind_ok h
    obtain ⟨_, _, h⟩ := except_bind_ok h
    -- the value is read before the end, whatever it is
    have hleaf : ∃ done, readLeaf "member" element.children element.ending = .ok done := by
      split at h
      · obtain ⟨_, _, h⟩ := except_bind_ok h
        obtain ⟨done, hdone, _⟩ := except_bind_ok h
        exact ⟨done, hdone⟩
      · obtain ⟨_, _, h⟩ := except_bind_ok h
        obtain ⟨done, hdone, _⟩ := except_bind_ok h
        exact ⟨done, hdone⟩
    obtain ⟨done, hdone⟩ := hleaf
    exact isWhole_of_content hkeys (readLeaf_ok hdone)
  · cases h

theorem readBody_isWhole {keys : List Attribute} {element : Element} {body : Body}
    (h : readBody keys element = .ok body) : IsWholeContent element.children element.ending := by
  rw [readBody] at h
  split at h
  · obtain ⟨properties, hproperties, h⟩ := except_bind_ok h
    obtain ⟨_, hending, _⟩ := except_bind_ok h
    rw [readProperties_eq_mapM] at hproperties
    exact ⟨exists_trees_of_mapM (fun child _ => (readForm_and_readProperty_isWhole child).2 _) hproperties,
      readEnding_ok hending⟩
  · obtain ⟨members, hmembers, h⟩ := except_bind_ok h
    obtain ⟨_, hending, _⟩ := except_bind_ok h
    exact ⟨exists_trees_of_mapM (fun _ _ _ => readMember_isWhole) hmembers, readEnding_ok hending⟩
  · obtain ⟨variants, hvariants, h⟩ := except_bind_ok h
    obtain ⟨_, hending, _⟩ := except_bind_ok h
    rw [readForms_eq_mapM] at hvariants
    exact ⟨exists_trees_of_mapM (fun _ _ _ => readForm_isWhole) hvariants, readEnding_ok hending⟩
  · obtain ⟨_, hleaf, _⟩ := except_bind_ok h
    exact readLeaf_ok hleaf
  · cases h

theorem readDeclaration_isWhole {scope : Scope} {element : Element} {declaration : Declaration}
    (h : readDeclaration scope element = .ok declaration) : element.IsWhole := by
  rw [readDeclaration] at h
  obtain ⟨keys, hkeys, h⟩ := except_bind_ok h
  obtain ⟨_, _, h⟩ := except_bind_ok h
  obtain ⟨body, hbody, _⟩ := except_bind_ok h
  exact isWhole_of_content hkeys (readBody_isWhole hbody)

theorem readExchange_isWhole {element : Element} {operation next : Operation Form}
    (h : readExchange operation element = .ok next) : element.IsWhole := by
  rw [readExchange] at h
  obtain ⟨keys, hkeys, h⟩ := except_bind_ok h
  have htype : ∃ found, readOptionalForm keys element = .ok found := by
    split at h
    · split at h
      · cases h
      · obtain ⟨found, hfound, _⟩ := except_bind_ok h
        exact ⟨found, hfound⟩
    · -- the status is read before the body, whatever it is
      split at h
      · split at h
        · obtain ⟨_, _, h⟩ := except_bind_ok h
          obtain ⟨found, hfound, _⟩ := except_bind_ok h
          exact ⟨found, hfound⟩
        · cases h
      · obtain ⟨_, _, h⟩ := except_bind_ok h
        obtain ⟨found, hfound, _⟩ := except_bind_ok h
        exact ⟨found, hfound⟩
    · cases h
  obtain ⟨found, hfound⟩ := htype
  exact isWhole_of_content hkeys (readType_isWhole hfound)

theorem readOperation_isWhole {scope : Scope} {element : Element} {operation : Operation Form}
    (h : readOperation scope element = .ok operation) : element.IsWhole := by
  rw [readOperation] at h
  obtain ⟨keys, hkeys, h⟩ := except_bind_ok h
  obtain ⟨_, _, h⟩ := except_bind_ok h
  obtain ⟨_, _, h⟩ := except_bind_ok h
  split at h
  · cases h
  · obtain ⟨_, _, h⟩ := except_bind_ok h
    obtain ⟨_, hexchanges, h⟩ := except_bind_ok h
    obtain ⟨_, hending, _⟩ := except_bind_ok h
    exact isWhole_of_content hkeys
      ⟨exists_trees_of_foldlM (fun _ _ _ => readExchange_isWhole) hexchanges, readEnding_ok hending⟩

theorem forall_of_readNamespaceItems {scope : Scope} {children : List Element} {contents : Contents}
    (h : readNamespaceItems scope children = .ok contents) :
    ∀ child ∈ children, ∃ found, readNamespaceItem scope child = .ok found := by
  induction children generalizing contents with
  | nil => simp
  | cons child rest ih =>
    rw [readNamespaceItems] at h
    obtain ⟨first, hfirst, h⟩ := except_bind_ok h
    obtain ⟨others, hothers, _⟩ := except_bind_ok h
    exact List.forall_mem_cons.2 ⟨⟨first, hfirst⟩, ih hothers⟩

theorem readNamespaceItem_isWhole (element : Element) : ∀ {scope : Scope} {contents : Contents},
    readNamespaceItem scope element = .ok contents → element.IsWhole := by
  induction element using Element.induct with
  | step name attributes children ending ih =>
    intro scope contents h
    rw [readNamespaceItem] at h
    split at h
    · obtain ⟨keys, hkeys, h⟩ := except_bind_ok h
      obtain ⟨inner, _, h⟩ := except_bind_ok h
      obtain ⟨_, hitems, h⟩ := except_bind_ok h
      obtain ⟨_, hending, _⟩ := except_bind_ok h
      refine isWhole_of_content hkeys ⟨exists_trees fun child hchild => ?_, readEnding_ok hending⟩
      obtain ⟨found, hfound⟩ := forall_of_readNamespaceItems hitems child hchild
      exact ih child hchild hfound
    · split at h
      · obtain ⟨_, hoperation, _⟩ := except_bind_ok h
        exact readOperation_isWhole hoperation
      · obtain ⟨_, hdeclaration, _⟩ := except_bind_ok h
        exact readDeclaration_isWhole hdeclaration

theorem forall_of_readSchemaItems {children : List Element} {contents : Contents}
    (h : readSchemaItems children = .ok contents) :
    ∀ child ∈ children, ∃ found, readNamespaceItem [] child = .ok found := by
  induction children generalizing contents with
  | nil => simp
  | cons child rest ih =>
    rw [readSchemaItems] at h
    split at h
    · obtain ⟨first, hfirst, h⟩ := except_bind_ok h
      obtain ⟨others, hothers, _⟩ := except_bind_ok h
      exact List.forall_mem_cons.2 ⟨⟨first, hfirst⟩, ih hothers⟩
    · cases h

/-- An element is read as a draft exactly when it is a tree that writes the draft. -/
theorem readSchema_iff {element : Element} {draft : Draft} :
    readSchema element = .ok draft ↔ ∃ tree : Tree, tree.toElement = element ∧ WritesSchema tree draft := by
  constructor
  · intro h
    have hwhole : element.IsWhole := by
      rw [readSchema] at h
      split at h
      · obtain ⟨keys, hkeys, h⟩ := except_bind_ok h
        obtain ⟨_, hitems, h⟩ := except_bind_ok h
        obtain ⟨_, hending, _⟩ := except_bind_ok h
        refine isWhole_of_content hkeys ⟨exists_trees fun child hchild => ?_, readEnding_ok hending⟩
        obtain ⟨found, hfound⟩ := forall_of_readSchemaItems hitems child hchild
        exact readNamespaceItem_isWhole child hfound
      · cases h
    obtain ⟨tree, rfl⟩ := hwhole
    exact ⟨tree, rfl, readSchema_eq_ok.1 h⟩
  · intro h
    obtain ⟨tree, rfl, hwrites⟩ := h
    exact readSchema_eq_ok.2 hwrites

/-- Of several schema elements the last one is read into the draft. -/
theorem ofDocument_last {document : Document} {draft : Draft} (h : ofDocument document = .ok draft) :
    ∃ earlier last, document.elements = earlier ++ [last] ∧ readSchema last = .ok draft := by
  rw [ofDocument] at h
  obtain ⟨drafts, hdrafts, h⟩ := except_bind_ok h
  have hlast : drafts.getLast? = some draft := by
    split at h
    · cases h
    · split at h
      · next hlast =>
        cases h
        exact hlast
      · cases h
  obtain ⟨before, rfl⟩ := List.getLast?_eq_some_iff.1 hlast
  have hpairs := List.forall₂_reverse_iff.2 (except_mapM_eq_ok.1 hdrafts)
  rw [List.reverse_append, List.reverse_singleton, List.singleton_append] at hpairs
  obtain ⟨last, rest, hread, _, helements⟩ := List.forall₂_cons_right_iff.1 hpairs
  refine ⟨rest.reverse, last, ?_, hread⟩
  rw [← List.reverse_cons, ← helements, List.reverse_reverse]

/-- A draft is what one of the document's elements writes. -/
theorem ofDocument_writes {document : Document} {draft : Draft} (h : ofDocument document = .ok draft) :
    ∃ tree : Tree, tree.toElement ∈ document.elements ∧ WritesSchema tree draft := by
  obtain ⟨earlier, last, helements, hread⟩ := ofDocument_last h
  obtain ⟨tree, rfl, hwrites⟩ := readSchema_iff.1 hread
  exact ⟨tree, by simp [helements], hwrites⟩

end Draft
end SchemaGuards

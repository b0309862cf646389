import SchemaGuards.Proofs.Format.Forms
import SchemaGuards.Proofs.Order.Graphs

/-!
# Reordered documents write reordered drafts

A document may list the declarations of a namespace in any order, also between the operations and the
namespaces inside of it. Each declaration is read by itself, so that every order is read when one is, and
writes the same declarations and operations.
-/
namespace SchemaGuards.Markup

def Element.isDeclaration (element : Element) : Bool :=
  element.name ∈ ["model", "enum", "union", "scalar"]

/-- Elements that differ at most in the order of the declarations in namespaces. -/
inductive Element.Reordered : Element → Element → Prop
  | same (element : Element) : Reordered element element
  | namespace (attributes : Attributes) (ending : Ending) (children others : List Element)
    (hdeclarations : (children.filter isDeclaration).Perm (others.filter isDeclaration))
    (hrest : List.Forall₂ Reordered (children.filter (fun child => !child.isDeclaration))
      (others.filter (fun child => !child.isDeclaration))) :
    Reordered ⟨"namespace", attributes, children, ending⟩ ⟨"namespace", attributes, others, ending⟩

/-- Documents that differ at most in the order of the declarations in namespaces. -/
structure Document.Reordered (document other : Document) : Prop where
  ending_eq : other.ending = document.ending
  elements : List.Forall₂ (fun element element' : Element => element'.name = element.name ∧
    element'.attributes = element.attributes ∧ element'.ending = element.ending ∧
    List.Forall₂ Element.Reordered element.children element'.children) document.elements other.elements

namespace Element

/-- Induction over reordered elements; it comes to the children of a namespace that are no declarations. -/
@[elab_as_elim]
theorem Reordered.induct {motive : ∀ element other : Element, element.Reordered other → Prop}
    (same : ∀ element, motive element element (.same element))
    («namespace» : ∀ attributes ending children others
      (hdeclarations : (children.filter isDeclaration).Perm (others.filter isDeclaration))
      (hrest : List.Forall₂ (fun child child' => ∃ h : child.Reordered child', motive child child' h)
        (children.filter (fun child => !child.isDeclaration)) (others.filter (fun child => !child.isDeclaration))),
      motive ⟨"namespace", attributes, children, ending⟩ ⟨"namespace", attributes, others, ending⟩
        (.namespace attributes ending children others hdeclarations (hrest.imp (fun _ _ h => h.1))))
    {element other : Element} (h : element.Reordered other) : motive element other h := by
  cases h with
  | same => exact same element
  | «namespace» attributes ending children others hdeclarations hrest =>
    refine «namespace» attributes ending children others hdeclarations ?_
    refine ((List.forall₂_and_left _ _).2 ⟨fun child hchild => hchild, hrest⟩).imp ?_
    intro child child' hand
    exact ⟨hand.2, Reordered.induct same «namespace» hand.2⟩
termination_by sizeOf element
decreasing_by
  have hlt := List.sizeOf_lt_of_mem (List.mem_of_mem_filter hand.1)
  rw [Element.mk.sizeOf_spec]
  omega

theorem Reordered.symm {element other : Element} (h : element.Reordered other) : other.Reordered element := by
  induction h using Reordered.induct with
  | same element => exact .same element
  | «namespace» attributes ending children others hdeclarations hrest =>
    exact .namespace attributes ending others children hdeclarations.symm (hrest.imp (fun _ _ ⟨_, h⟩ => h)).flip

theorem Reordered.name_eq {element other : Element} (h : element.Reordered other) : other.name = element.name := by
  cases h <;> rfl

end Element

theorem Document.Reordered.symm {document other : Document} (h : document.Reordered other) :
    other.Reordered document := by
  refine ⟨h.ending_eq.symm, (h.elements.imp ?_).flip⟩
  rintro element element' ⟨hname, hattributes, hending, hchildren⟩
  exact ⟨hname.symm, hattributes.symm, hending.symm, (hchildren.imp (fun _ _ => Element.Reordered.symm)).flip⟩

end SchemaGuards.Markup

namespace SchemaGuards.Draft
open Markup

variable {outer scope : Scope} {contents : Contents}

/-- What a child of a namespace writes, and nothing if it cannot be read. -/
def itemContents (scope : Scope) (element : Element) : Contents :=
  (readNamespaceItem scope element).toOption.getD {}

theorem itemContents_eq {element : Element} (h : readNamespaceItem scope element = .ok contents) :
    itemContents scope element = contents := by
  rw [itemContents, h]
  rfl

def itemsContents (scope : Scope) (children : List Element) : Contents where
  declarations := children.flatMap (fun child => (itemContents scope child).declarations)
  operations := children.flatMap (fun child => (itemContents scope child).operations)

theorem readNamespaceItems_eq_ok {children : List Element} : readNamespaceItems scope children = .ok contents ↔
    (∀ child ∈ children, readNamespaceItem scope child = .ok (itemContents scope child)) ∧
      contents = itemsContents scope children := by
  induction children generalizing contents with
  | nil =>
    rw [readNamespaceItems]
    exact ⟨fun h => ⟨by simp, (Except.ok.inj h).symm⟩, fun h => congrArg Except.ok h.2.symm⟩
  | cons child rest ih =>
    rw [readNamespaceItems, except_bind_eq_ok, List.forall_mem_cons, itemsContents, List.flatMap_cons,
      List.flatMap_cons]
    constructor
    · rintro ⟨first, hfirst, h⟩
      rcases except_bind_ok h with ⟨others, hothers, h⟩
      cases h
      rcases ih.1 hothers with ⟨hrest, rfl⟩
      rw [itemContents_eq hfirst]
      exact ⟨⟨hfirst, hrest⟩, rfl⟩
    · rintro ⟨⟨hfirst, hrest⟩, rfl⟩
      exact ⟨_, hfirst, except_bind_eq_ok.2 ⟨_, ih.2 ⟨hrest, rfl⟩, rfl⟩⟩

theorem operations_of_isDeclaration {element : Element} (hdeclaration : element.isDeclaration)
    (h : readNamespaceItem scope element = .ok contents) : contents.operations = [] := by
  rcases element with ⟨name, attributes, children, ending⟩
  rw [Element.isDeclaration] at hdeclaration
  have hnamespace : name ≠ "namespace" := by
    rintro rfl
    simp at hdeclaration
  have hoperation : name ≠ "operation" := by
    rintro rfl
    simp at hdeclaration
  rw [readNamespaceItem, if_neg hnamespace, if_neg hoperation] at h
  rcases except_bind_ok h with ⟨declaration, _, h⟩
  cases h
  rfl

section Children
variable {children others : List Element}

theorem declarations_perm (scope : Scope) (children : List Element) (keep : Element → Bool) :
    (itemsContents scope children).declarations.Perm ((itemsContents scope (children.filter keep)).declarations ++
      (itemsContents scope (children.filter (fun child => !keep child))).declarations) := by
  rw [itemsContents, itemsContents, itemsContents, ← List.flatMap_append]
  exact (List.filter_append_perm keep children).symm.flatMap_right _

/-- The operations of a namespace are those of the children that are no declarations. -/
theorem operations_eq (h : ∀ child ∈ children, readNamespaceItem scope child = .ok (itemContents scope child)) :
    (itemsContents scope children).operations =
      (itemsContents scope (children.filter (fun child => !child.isDeclaration))).operations := by
  induction children with
  | nil => rfl
  | cons child rest ih =>
    have hrest := ih (fun other hother => h other (by simp [hother]))
    simp only [itemsContents] at hrest ⊢
    cases hdeclaration : child.isDeclaration with
    | true =>
      rw [List.flatMap_cons, operations_of_isDeclaration hdeclaration (h child (by simp)), List.nil_append, hrest,
        List.filter_cons_of_neg (by simp [hdeclaration])]
    | false => rw [List.flatMap_cons, hrest, List.filter_cons_of_pos (by simp [hdeclaration]), List.flatMap_cons]

theorem itemsContents_reorders (h : List.Forall₂ (fun child child' =>
    (itemContents scope child).Reorders (itemContents scope child')) children others) :
    (itemsContents scope children).Reorders (itemsContents scope others) := by
  induction h with
  | nil => exact ⟨.refl _, rfl⟩
  | cons hfirst _ ih =>
    refine ⟨hfirst.declarations.append ih.declarations, ?_⟩
    have hrest := ih.operations_eq
    simp only [itemsContents] at hrest
    simp only [itemsContents, List.flatMap_cons, hfirst.operations_eq, hrest]

end Children

/-- A child of a namespace is read in every order. -/
theorem readNamespaceItem_reordered {element other : Element} (horder : element.Reordered other) {outer : Scope}
    {contents : Contents} (h : readNamespaceItem outer element = .ok contents) :
    ∃ contents', readNamespaceItem outer other = .ok contents' ∧ contents.Reorders contents' := by
  induction horder using Element.Reordered.induct generalizing outer contents with
  | same element => exact ⟨contents, h, .refl _, rfl⟩
  | «namespace» attributes ending children others hdeclarations hrest =>
    rw [readNamespaceItem, if_pos rfl] at h
    rcases except_bind_ok h with ⟨keys, hkeys, h⟩
    rcases except_bind_ok h with ⟨scope, hscope, h⟩
    rcases except_bind_ok h with ⟨inner, hinner, h⟩
    rcases except_bind_ok h with ⟨_, hending, h⟩
    cases h
    rcases readNamespaceItems_eq_ok.1 hinner with ⟨hchildren, rfl⟩
    have hkept : List.Forall₂ (fun child child' => readNamespaceItem scope child' = .ok (itemContents scope child') ∧
        (itemContents scope child).Reorders (itemContents scope child'))
        (children.filter (fun child => !child.isDeclaration)) (others.filter (fun child => !child.isDeclaration)) := by
      refine ((List.forall₂_and_left _ _).2 ⟨fun child hchild => hchild, hrest⟩).imp ?_
      rintro child child' ⟨hmem, _, ih⟩
      rcases ih (hchildren child (List.mem_of_mem_filter hmem)) with ⟨contents', hcontents', hreorders⟩
      rw [itemContents_eq hcontents']
      exact ⟨hcontents', hreorders⟩
    have hothers : ∀ child ∈ others, readNamespaceItem scope child = .ok (itemContents scope child) := by
      intro child hchild
      cases hdeclaration : child.isDeclaration with
      | true =>
        have hmem := hdeclarations.mem_iff.2 (List.mem_filter.2 ⟨hchild, hdeclaration⟩)
        exact hchildren child (List.mem_of_mem_filter hmem)
      | false =>
        rcases (mem_of_forall₂ hkept).2 child (List.mem_filter.2 ⟨hchild, by simp [hdeclaration]⟩) with ⟨_, _, hread, _⟩
        exact hread
    have hreorders := itemsContents_reorders (hkept.imp (fun _ _ hand => hand.2))
    refine ⟨itemsContents scope others, ?_, ?_, ?_⟩
    · rw [readNamespaceItem, if_pos rfl, hkeys, except_ok_bind, hscope, except_ok_bind,
        readNamespaceItems_eq_ok.2 ⟨hothers, rfl⟩, except_ok_bind, hending]
      rfl
    · refine (declarations_perm scope children Element.isDeclaration).trans
        (.trans ?_ (declarations_perm scope others Element.isDeclaration).symm)
      exact (hdeclarations.flatMap_right _).append hreorders.declarations
    · rw [operations_eq hothers, operations_eq hchildren, hreorders.operations_eq]

theorem readSchemaItems_reordered {children others : List Element}
    (horder : List.Forall₂ Element.Reordered children others) {contents : Contents}
    (h : readSchemaItems children = .ok contents) :
    ∃ contents', readSchemaItems others = .ok contents' ∧ contents.Reorders contents' := by
  induction horder generalizing contents with
  | nil => exact ⟨contents, h, .refl _, rfl⟩
  | @cons child child' _ _ hfirst _ ih =>
    rw [readSchemaItems] at h
    split at h
    · next hname =>
      rcases except_bind_ok h with ⟨first, hread, h⟩
      rcases except_bind_ok h with ⟨rest, hrest, h⟩
      cases h
      rcases readNamespaceItem_reordered hfirst hread with ⟨first', hread', hreorders⟩
      rcases ih hrest with ⟨rest', hrest', hreorders'⟩
      refine ⟨first' ++ rest', ?_, ?_⟩
      · rw [readSchemaItems, hfirst.name_eq, if_pos hname, hread', except_ok_bind, hrest']
        rfl
      · exact ⟨hreorders.declarations.append hreorders'.declarations,
          congrArg₂ (· ++ ·) hreorders.operations_eq hreorders'.operations_eq⟩
    · cases h

theorem readSchema_reordered {element other : Element} (hname : other.name = element.name)
    (hattributes : other.attributes = element.attributes) (hending : other.ending = element.ending)
    (hchildren : List.Forall₂ Element.Reordered element.children other.children) {draft : Draft}
    (h : readSchema element = .ok draft) : ∃ draft', readSchema other = .ok draft' ∧ draft.Reorders draft' := by
  rw [readSchema] at h
  split at h
  · next hschema =>
    rcases except_bind_ok h with ⟨keys, hkeys, h⟩
    rcases except_bind_ok h with ⟨contents, hcontents, h⟩
    rcases except_bind_ok h with ⟨_, hend, h⟩
    cases h
    rcases readSchemaItems_reordered hchildren hcontents with ⟨contents', hcontents', hreorders⟩
    refine ⟨⟨readRoots keys, contents'⟩, ?_, rfl, hreorders⟩
    rw [readSchema, hname, hattributes, hending, if_pos hschema, hkeys, except_ok_bind, hcontents', except_ok_bind,
      hend]
    rfl
  · cases h

theorem rel_getLast? {α β : Type} {related : α → β → Prop} {values : List α} {others : List β}
    (h : List.Forall₂ related values others) : Option.Rel related values.getLast? others.getLast? := by
  have hreverse : List.Forall₂ related values.reverse others.reverse := List.rel_reverse h
  rw [List.getLast?_eq_head?_reverse, List.getLast?_eq_head?_reverse]
  generalize values.reverse = reversed at hreverse
  generalize others.reverse = reversed' at hreverse
  cases hreverse with
  | nil => exact .none
  | cons hfirst _ => exact .some hfirst

/-- A document is read in every order. -/
theorem ofDocument_reordered {document other : Document} (horder : document.Reordered other) {draft : Draft}
    (h : ofDocument document = .ok draft) : ∃ draft', ofDocument other = .ok draft' ∧ draft.Reorders draft' := by
  rw [ofDocument] at h
  rcases except_bind_ok h with ⟨drafts, hdrafts, h⟩
  have hread : ∃ drafts', other.elements.mapM readSchema = .ok drafts' ∧ List.Forall₂ Reorders drafts drafts' := by
    have hresults := except_mapM_eq_ok.1 hdrafts
    simp only [except_mapM_eq_ok]
    have helements := horder.elements
    generalize document.elements = elements at hresults helements
    generalize other.elements = elements' at helements
    clear hdrafts h
    induction hresults generalizing elements' with
    | nil =>
      cases helements
      exact ⟨[], .nil, .nil⟩
    | cons hdraft _ ih =>
      cases helements with
      | cons helement hrest =>
        rcases helement with ⟨hname, hattributes, hending, hchildren⟩
        rcases readSchema_reordered hname hattributes hending hchildren hdraft with ⟨draft', hdraft', hreorders⟩
        rcases ih _ hrest with ⟨drafts', hdrafts', hreorders'⟩
        exact ⟨draft' :: drafts', .cons hdraft' hdrafts', .cons hreorders hreorders'⟩
  rcases hread with ⟨drafts', hdrafts', hreorders⟩
  rw [ofDocument, hdrafts', except_ok_bind, horder.ending_eq]
  have hlast := rel_getLast? hreorders
  generalize drafts.getLast? = last at h hlast
  generalize drafts'.getLast? = last' at hlast
  split at h
  · cases h
  · cases hlast with
    | none => cases h
    | some hreorders =>
      cases h
      exact ⟨_, rfl, hreorders⟩

end SchemaGuards.Draft

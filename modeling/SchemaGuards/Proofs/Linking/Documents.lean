import SchemaGuards.Draft.Linking
import SchemaGuards.Generator
import SchemaGuards.Proofs.Format.Origins
import SchemaGuards.Proofs.Linking.Declarations

/-!
# Linked documents

An unsupported kind gets into a draft through one element only. So the graph of a document without
that element is linked with no unsupported kind at all.
-/
namespace SchemaGuards

namespace Markup

mutual
def Element.names : Element → List String
  | ⟨name, _, children, _⟩ => name :: elementsNames children
termination_by structural element => element

def elementsNames : List Element → List String
  | [] => []
  | element :: rest => element.names ++ elementsNames rest
end

def Document.names (document : Document) : List String := elementsNames document.elements

theorem names_subset_of_mem {element : Element} {elements : List Element} (h : element ∈ elements) :
    element.names ⊆ elementsNames elements := by
  induction elements with
  | nil => cases h
  | cons first rest ih =>
    rcases List.mem_cons.1 h with rfl | h
    · exact List.subset_append_left _ _
    · exact List.Subset.trans (ih h) (List.subset_append_right _ _)

theorem children_names_subset (tree : Tree) : elementsNames (toElements tree.children) ⊆ tree.toElement.names := by
  cases tree
  exact List.subset_cons_self _ _

theorem Tree.names_subset_of_mem {tree : Tree} {trees : List Tree} (h : tree ∈ trees) :
    tree.toElement.names ⊆ elementsNames (toElements trees) := by
  rw [toElements_eq_map]
  exact Markup.names_subset_of_mem (List.mem_map_of_mem h)

theorem Tree.StandsIn.names_subset {item : Tree} {trees : List Tree} (h : item.StandsIn trees) :
    item.toElement.names ⊆ elementsNames (toElements trees) := by
  induction h with
  | here hitem => exact Tree.names_subset_of_mem hitem
  | inside houter _ ih =>
    have houter := List.Subset.trans (children_names_subset _) (Tree.names_subset_of_mem houter)
    exact List.Subset.trans ih houter

end Markup

namespace Draft
open Markup

def unsupportedName : String := "opaque"

theorem formsKinds_eq_nil {forms : List Form} (h : ∀ form ∈ forms, form.unsupportedKinds = []) :
    formsKinds forms = [] := by
  induction forms with
  | nil => rfl
  | cons form rest ih =>
    obtain ⟨hform, hrest⟩ := List.forall_mem_cons.1 h
    rw [formsKinds, hform, ih hrest]
    rfl

theorem propertiesKinds_eq_nil {properties : List (Property Form)}
    (h : ∀ property ∈ properties, propertyKinds property = []) : propertiesKinds properties = [] := by
  induction properties with
  | nil => rfl
  | cons property rest ih =>
    obtain ⟨hproperty, hrest⟩ := List.forall_mem_cons.1 h
    rw [propertiesKinds, hproperty, ih hrest]
    rfl

theorem not_mem_names_of_child {tree child : Tree} (hnames : unsupportedName ∉ tree.toElement.names)
    (hchild : child ∈ tree.children) : unsupportedName ∉ child.toElement.names :=
  fun hmem => hnames (children_names_subset tree (Tree.names_subset_of_mem hchild hmem))

/-- Types and properties, which hold one another, write no unsupported kind without the element. -/
theorem writesForm_and_writesProperty_kinds (tree : Tree) (hnames : unsupportedName ∉ tree.toElement.names) :
    (∀ form, WritesForm tree form → form.unsupportedKinds = []) ∧
      ∀ property, WritesProperty tree property → propertyKinds property = [] := by
  induction tree using Tree.induct with
  | step name attributes children ih =>
    have hinner := fun child (hchild : child ∈ children) => ih child hchild (not_mem_names_of_child hnames hchild)
    have hforms := fun child hchild => (hinner child hchild).1
    constructor
    · intro form h
      cases h with
      | reference | string | number | boolean => rfl
      | unsupported => exact absurd List.mem_cons_self hnames
      | array htype | record htype =>
        rw [Form.unsupportedKinds]
        exact htype.holds (fun _ => rfl) hforms _ rfl
      | tuple hparts | union hparts =>
        refine formsKinds_eq_nil fun part hpart => ?_
        obtain ⟨child, hchild, hwrites⟩ := (mem_of_forall₂ hparts).2 part hpart
        exact hforms child hchild part hwrites
      | model hproperties =>
        refine propertiesKinds_eq_nil fun property hproperty => ?_
        obtain ⟨child, hchild, hwrites⟩ := (mem_of_forall₂ hproperties).2 property hproperty
        exact (hinner child hchild).2 property hwrites
    · intro property h
      cases h with
      | intro _ htype => exact htype.holds (fun _ => rfl) hforms _ rfl

theorem WritesForm.kinds_eq {tree : Tree} {form : Form} (h : WritesForm tree form)
    (hnames : unsupportedName ∉ tree.toElement.names) : form.unsupportedKinds = [] :=
  (writesForm_and_writesProperty_kinds tree hnames).1 form h

theorem WritesBody.kinds_eq {tree : Tree} {body : Body} (h : WritesBody tree body)
    (hnames : unsupportedName ∉ tree.toElement.names) : body.unsupportedKinds = [] := by
  cases h with
  | model hproperties =>
    refine propertiesKinds_eq_nil fun property hproperty => ?_
    obtain ⟨child, hchild, hwrites⟩ := (mem_of_forall₂ hproperties).2 property hproperty
    exact (writesForm_and_writesProperty_kinds child (not_mem_names_of_child hnames hchild)).2 property hwrites
  | union hvariants =>
    refine formsKinds_eq_nil fun variant hvariant => ?_
    obtain ⟨child, hchild, hwrites⟩ := (mem_of_forall₂ hvariants).2 variant hvariant
    exact hwrites.kinds_eq (not_mem_names_of_child hnames hchild)
  | enumeration | scalar => rfl

def supportsBodies (operation : Operation Form) : Prop :=
  ∀ form ∈ operation.bodies, form.unsupportedKinds = []

theorem WritesOperation.supportsBodies {scope : Scope} {tree : Tree} {operation : Operation Form}
    (h : WritesOperation scope tree operation) (hnames : unsupportedName ∉ tree.toElement.names) :
    supportsBodies operation := by
  intro form hform
  obtain ⟨child, hchild, htype⟩ := h.bodies form hform
  have hinner := not_mem_names_of_child hnames hchild
  exact htype.holds (fun _ => rfl)
    (fun part hpart _ hwrites => hwrites.kinds_eq (not_mem_names_of_child hinner hpart)) form rfl

/-- Contents that write no unsupported kind, and that lie in a namespace. -/
structure Contents.IsSupported (contents : Contents) : Prop where
  declarations : ∀ declaration ∈ contents.declarations, declaration.body.unsupportedKinds = []
  operations : ∀ operation ∈ contents.operations, supportsBodies operation

theorem Contents.IsSupported.kinds_eq {contents : Contents} (h : contents.IsSupported) :
    contents.unsupportedKinds = [] := by
  rw [unsupportedKinds, List.append_eq_nil_iff, List.flatMap_eq_nil_iff, List.flatMap_eq_nil_iff]
  refine ⟨h.declarations, ?_⟩
  intro operation hmem
  exact List.flatMap_eq_nil_iff.2 (h.operations operation hmem)

/-- Contents that come from trees without the element write no unsupported kind. -/
theorem Contents.ComesFrom.isSupported {contents : Contents} {trees : List Tree} (h : contents.ComesFrom trees)
    (hnames : unsupportedName ∉ elementsNames (toElements trees)) : contents.IsSupported := by
  constructor
  · intro declaration hdeclaration
    obtain ⟨_, item, _, hitem, hwrites⟩ := h.declarations declaration hdeclaration
    exact hwrites.writesBody.kinds_eq fun hmem => hnames (hitem.names_subset hmem)
  · intro operation hoperation
    obtain ⟨_, item, _, hitem, hwrites⟩ := h.operations operation hoperation
    exact hwrites.supportsBodies fun hmem => hnames (hitem.names_subset hmem)

/-- A document without the element of the unsupported kinds has no unsupported kind. -/
theorem ofDocument_kinds {document : Document} {draft : Draft} (hnames : unsupportedName ∉ document.names)
    (h : ofDocument document = .ok draft) : draft.contents.unsupportedKinds = [] := by
  obtain ⟨tree, htree, hwrites⟩ := ofDocument_writes h
  refine (hwrites.comesFrom.isSupported fun hmem => hnames ?_).kinds_eq
  exact names_subset_of_mem htree (children_names_subset tree hmem)

end Draft

/-- The graph of a document is linked, with no more unsupported kinds than it has elements for. -/
theorem Graph.ofText_isLinked {text : String} {graph : Graph} (h : Graph.ofText text = .ok graph) :
    ∃ kinds, graph.IsLinked kinds ∧
      (Draft.unsupportedName ∉ (Markup.Document.ofText text).names → kinds = []) := by
  rw [Graph.ofText] at h
  rcases except_bind_ok h with ⟨draft, hdraft, h⟩
  refine ⟨_, (Draft.link_isLinked h).1, ?_⟩
  intro hnames
  exact Draft.ofDocument_kinds hnames hdraft

end SchemaGuards

import Mathlib.Data.List.Forall2
import SchemaGuards.Proofs.Format.Origins
import SchemaGuards.Proofs.Linking.Unfolding
import SchemaGuards.Proofs.Format.Reading
import SchemaGuards.Proofs.Traced

/-!
# What becomes of the elements of a document

A document may hold declarations and operations anywhere, at any depth. Those of its last schema element all
become declarations and operations of the graph, each once and in their order; the reader comes to no other
place in it where one could stand. What the elements before it hold is read and left out, so a document loses
nothing exactly when they hold none.
-/
namespace SchemaGuards

namespace Markup
open Draft

/-- The elements that hold types: a model or a union inside of them is no declaration. -/
def typeHolders : List String := ["property", "array", "record", "tuple", "union", "request", "response"]

/-- Whether an element declares something or is an operation, by its name and that of the element around it. -/
def isItem (parent name : String) : Bool :=
  name ∈ ["enum", "scalar", "operation"] || name ∈ ["model", "union"] && parent ∉ typeHolders

def innerScope (outer : Scope) (name : String) (attributes : Attributes) : Scope :=
  match attributes with
  | .ok keys => if name = "namespace" then outer ++ ((key? keys "name").map (Text.splitText '.')).getD [] else outer
  | .error _ => outer

mutual
/-- The declarations and operations at an element and inside it, in document order, with their namespaces. -/
def Element.items (scope : Scope) (parent : String) : Element → List (Scope × Element)
  | ⟨name, attributes, children, ending⟩ =>
    (if isItem parent name then [(scope, ⟨name, attributes, children, ending⟩)] else []) ++
      itemsIn (innerScope scope name attributes) name children
termination_by structural element => element

def itemsIn (scope : Scope) (parent : String) : List Element → List (Scope × Element)
  | [] => []
  | element :: rest => element.items scope parent ++ itemsIn scope parent rest
end

def Document.items (document : Document) : List (Scope × Element) := itemsIn [] "" document.elements

theorem itemsIn_append (scope : Scope) (parent : String) (first second : List Element) :
    itemsIn scope parent (first ++ second) = itemsIn scope parent first ++ itemsIn scope parent second := by
  induction first with
  | nil => rfl
  | cons element rest ih => rw [List.cons_append, itemsIn, itemsIn, ih, List.append_assoc]

theorem itemsIn_eq_nil {scope : Scope} {parent : String} {elements : List Element}
    (h : ∀ element ∈ elements, element.items scope parent = []) : itemsIn scope parent elements = [] := by
  induction elements with
  | nil => rfl
  | cons element rest ih =>
    rw [itemsIn, h element List.mem_cons_self, ih (fun other hother => h other (List.mem_cons_of_mem _ hother))]
    rfl

theorem Tree.items_eq (scope : Scope) (parent : String) (tree : Tree) : tree.toElement.items scope parent =
    (if isItem parent tree.name then [(scope, tree.toElement)] else []) ++
      itemsIn (innerScope scope tree.name (.ok tree.attributes)) tree.name (toElements tree.children) := by
  cases tree
  rw [toElement, Element.items]

theorem itemsIn_toElements_eq_nil {scope : Scope} {parent : String} {trees : List Tree}
    (h : ∀ tree ∈ trees, tree.toElement.items scope parent = []) : itemsIn scope parent (toElements trees) = [] := by
  refine itemsIn_eq_nil fun element helement => ?_
  rw [toElements_eq_map] at helement
  obtain ⟨tree, htree, rfl⟩ := List.mem_map.1 helement
  exact h tree htree

theorem Tree.items_eq_singleton {scope : Scope} {parent : String} {tree : Tree} (h : isItem parent tree.name = true)
    (hinside : ∀ inner, itemsIn inner tree.name (toElements tree.children) = []) :
    tree.toElement.items scope parent = [(scope, tree.toElement)] := by
  rw [items_eq, h, if_pos rfl, hinside, List.append_nil]

theorem Tree.items_eq_nil {scope : Scope} {parent : String} {tree : Tree} (h : isItem parent tree.name = false)
    (hchildren : ∀ child ∈ tree.children, ∀ scope, child.toElement.items scope tree.name = []) :
    tree.toElement.items scope parent = [] := by
  rw [items_eq, h, if_neg Bool.false_ne_true, List.nil_append]
  exact itemsIn_toElements_eq_nil fun child hchild => hchildren child hchild _

end Markup

namespace Draft
open Markup

section Types
variable {tree : Tree} {attributes : List Attribute} {children : List Tree}

theorem WritesForm.isItem_eq {form : Form} (h : WritesForm tree form) {parent : String}
    (hparent : parent ∈ typeHolders) : isItem parent tree.name = false := by
  cases h with
  | reference hname => rcases hname with rfl | rfl <;> simp [isItem]
  | _ => simp [isItem, hparent]

theorem WritesType.children_write {found : Option Form} (h : WritesType attributes children found) :
    ∀ child ∈ children, ∃ form, WritesForm child form := by
  cases h with
  | absent | named => simp
  | nested _ hform => exact List.forall_mem_singleton.2 ⟨_, hform⟩

/-- What stands in a type is another type, if the element holds types, or else a property. -/
theorem WritesForm.children_write {form : Form} (h : WritesForm tree form) :
    (tree.name ∈ typeHolders ∧ ∀ child ∈ tree.children, ∃ part, WritesForm child part) ∨
      ∀ child ∈ tree.children, ∃ property, WritesProperty child property := by
  cases h with
  | reference | string | number | boolean | unsupported => exact .inr (by simp)
  | array htype | record htype => exact .inl ⟨by simp [typeHolders], htype.children_write⟩
  | tuple hparts | union hparts =>
    refine .inl ⟨by simp [typeHolders], fun child hchild => ?_⟩
    obtain ⟨part, _, hwrites⟩ := (mem_of_forall₂ hparts).1 child hchild
    exact ⟨part, hwrites⟩
  | model hproperties =>
    refine .inr fun child hchild => ?_
    obtain ⟨property, _, hwrites⟩ := (mem_of_forall₂ hproperties).1 child hchild
    exact ⟨property, hwrites⟩

/-- Types and properties, which hold one another, hold no declaration and no operation. -/
theorem writesForm_and_writesProperty_items (tree : Tree) :
    (∀ form, WritesForm tree form → ∀ scope, ∀ parent ∈ typeHolders, tree.toElement.items scope parent = []) ∧
      ∀ property, WritesProperty tree property → ∀ scope parent, tree.toElement.items scope parent = [] := by
  induction tree using Tree.induct with
  | step name attributes children ih =>
    constructor
    · intro form h scope parent hparent
      refine Tree.items_eq_nil (h.isItem_eq hparent) fun child hchild inner => ?_
      rcases h.children_write with ⟨hholder, hparts⟩ | hproperties
      · obtain ⟨part, hpart⟩ := hparts child hchild
        exact (ih child hchild).1 part hpart inner _ hholder
      · obtain ⟨property, hproperty⟩ := hproperties child hchild
        exact (ih child hchild).2 property hproperty inner _
    · intro property h scope parent
      cases h with
      | intro _ htype =>
        refine Tree.items_eq_nil (by simp [isItem]) fun child hchild inner => ?_
        obtain ⟨form, hform⟩ := htype.children_write child hchild
        exact (ih child hchild).1 form hform inner _ (by simp [typeHolders])

theorem WritesForm.items_eq_nil {form : Form} (h : WritesForm tree form) (scope : Scope) {parent : String}
    (hparent : parent ∈ typeHolders) : tree.toElement.items scope parent = [] :=
  (writesForm_and_writesProperty_items tree).1 form h scope parent hparent

theorem WritesMember.items_eq_nil {member : Member} (h : WritesMember tree member) (scope : Scope) :
    tree.toElement.items scope "enum" = [] := by
  cases h
  exact Tree.items_eq_nil (by simp [isItem]) (by simp)

/-- The children of an operation are requests and responses, and each may hold a type. -/
theorem WritesExchanges.children_write {request : Option Form} {responses : List (Response Form)}
    (h : WritesExchanges children request responses) : ∀ child ∈ children,
      child.name ∈ ["request", "response"] ∧ ∃ found, WritesType child.attributes child.children found := by
  induction h with
  | nil => simp
  | request htype _ ih => exact List.forall_mem_cons.2 ⟨⟨by simp, _, htype⟩, ih⟩
  | response hresponse _ ih =>
    cases hresponse with
    | intro _ htype => exact List.forall_mem_cons.2 ⟨⟨by simp, _, htype⟩, ih⟩

end Types

theorem WritesOperation.items_eq_nil {scope : Scope} {tree : Tree} {operation : Operation Form}
    (h : WritesOperation scope tree operation) (inner : Scope) :
    itemsIn inner tree.name (toElements tree.children) = [] := by
  have hnames : ∀ name ∈ ["request", "response"], isItem "operation" name = false ∧ name ∈ typeHolders := by decide
  cases h with
  | intro _ _ _ _ hexchanges =>
    refine itemsIn_toElements_eq_nil fun child hchild => ?_
    obtain ⟨hname, found, htype⟩ := hexchanges.children_write child hchild
    obtain ⟨hitem, hholder⟩ := hnames child.name hname
    refine Tree.items_eq_nil hitem fun part hpart scope => ?_
    obtain ⟨form, hform⟩ := htype.children_write part hpart
    exact hform.items_eq_nil scope hholder

theorem WritesBody.items_eq_nil {tree : Tree} {body : Body} (h : WritesBody tree body) (inner : Scope) :
    itemsIn inner tree.name (toElements tree.children) = [] := by
  refine itemsIn_toElements_eq_nil ?_
  cases h with
  | model hproperties =>
    intro child hchild
    obtain ⟨property, _, hwrites⟩ := (mem_of_forall₂ hproperties).1 child hchild
    exact (writesForm_and_writesProperty_items child).2 property hwrites inner _
  | enumeration hmembers =>
    intro child hchild
    obtain ⟨member, _, hwrites⟩ := (mem_of_forall₂ hmembers).1 child hchild
    exact hwrites.items_eq_nil inner
  | union hvariants =>
    intro child hchild
    obtain ⟨variant, _, hwrites⟩ := (mem_of_forall₂ hvariants).1 child hchild
    exact hwrites.items_eq_nil inner (by simp [typeHolders])
  | scalar => simp

/-- Items that are read as declarations and operations, each kind in document order. -/
structure ReadAs (items : List (Scope × Element)) (contents : Contents) : Prop where
  declarations : List.Forall₂ (fun item declaration => readDeclaration item.1 item.2 = .ok declaration)
    (items.filter fun item => item.2.name ≠ "operation") contents.declarations
  operations : List.Forall₂ (fun item operation => readOperation item.1 item.2 = .ok operation)
    (items.filter fun item => item.2.name = "operation") contents.operations

theorem ReadAs.nil : ReadAs [] {} := ⟨.nil, .nil⟩

theorem ReadAs.append {items others : List (Scope × Element)} {contents contents' : Contents}
    (h : ReadAs items contents) (h' : ReadAs others contents') : ReadAs (items ++ others) (contents ++ contents') := by
  constructor
  · rw [List.filter_append]
    exact List.rel_append h.declarations h'.declarations
  · rw [List.filter_append]
    exact List.rel_append h.operations h'.operations

theorem ReadAs.operation {scope : Scope} {tree : Tree} {operation : Operation Form} (hname : tree.name = "operation")
    (h : WritesOperation scope tree operation) : ReadAs [(scope, tree.toElement)] ⟨[], [operation]⟩ := by
  obtain ⟨name, attributes, children⟩ := tree
  obtain rfl : name = "operation" := hname
  exact ⟨by simp [Tree.toElement], by simpa [Tree.toElement] using readOperation_eq_ok.2 h⟩

theorem ReadAs.declaration {scope : Scope} {tree : Tree} {declaration : Declaration} (hname : tree.name ≠ "operation")
    (h : WritesDeclaration scope tree declaration) : ReadAs [(scope, tree.toElement)] ⟨[declaration], []⟩ := by
  have hread := readDeclaration_eq_ok.2 h
  obtain ⟨name, attributes, children⟩ := tree
  exact ⟨by simpa [Tree.toElement, hname] using hread, by simpa [Tree.toElement] using hname⟩

mutual
/-- What a namespace holds is read item by item. -/
theorem WritesItem.readAs {outer : Scope} {tree : Tree} {contents : Contents} {parent : String}
    (hparent : parent ∉ typeHolders) (h : WritesItem outer tree contents) :
    ReadAs (tree.toElement.items outer parent) contents := by
  cases h with
  | @inner _ name attributes children _ hname hitems =>
    have hscope : innerScope outer "namespace" (.ok attributes) = outer ++ Text.splitText '.' name := by
      simp [innerScope, hname]
    rw [Tree.items_eq, hscope]
    exact hitems.readAs (by simp [typeHolders])
  | operation hwrites =>
    have hname : tree.name = "operation" := by cases hwrites; rfl
    rw [Tree.items_eq_singleton (by simp [isItem, hname]) hwrites.items_eq_nil]
    exact .operation hname hwrites
  | declaration hwrites =>
    have hnames := hwrites.writesBody.name_mem
    simp only [List.mem_cons, List.not_mem_nil, or_false] at hnames
    have hitem : isItem parent tree.name = true := by
      rcases hnames with hname | hname | hname | hname <;> simp [isItem, hname, hparent]
    have hname : tree.name ≠ "operation" := by
      rcases hnames with hname | hname | hname | hname <;> simp [hname]
    rw [Tree.items_eq_singleton hitem hwrites.writesBody.items_eq_nil]
    exact .declaration hname hwrites

theorem WritesItems.readAs {scope : Scope} {trees : List Tree} {contents : Contents} {parent : String}
    (hparent : parent ∉ typeHolders) (h : WritesItems scope trees contents) :
    ReadAs (itemsIn scope parent (toElements trees)) contents := by
  cases h with
  | nil => exact .nil
  | cons hfirst hrest => exact (hfirst.readAs hparent).append (hrest.readAs hparent)
end

/-- Nothing but namespaces stands in a schema element, so all that it holds is read item by item. -/
theorem WritesNamespaces.readAs {trees : List Tree} {contents : Contents} (h : WritesNamespaces trees contents) :
    ReadAs (itemsIn [] "schema" (toElements trees)) contents := by
  induction h with
  | nil => exact .nil
  | cons _ hfirst _ ih => exact (hfirst.readAs (by decide)).append ih

theorem readSchema_items {element : Element} {draft : Draft} (h : readSchema element = .ok draft) :
    ReadAs (itemsIn [] "" [element]) draft.contents := by
  obtain ⟨tree, rfl, hwrites⟩ := readSchema_iff.1 h
  cases hwrites with
  | intro hcontents =>
    rw [itemsIn, itemsIn, List.append_nil, Tree.items_eq]
    exact hcontents.readAs

end Draft

/-- A graph whose declarations and operations are what given items are read as, each once and in order. -/
def Graph.Represents (graph : Graph) (items : List (Scope × Markup.Element)) : Prop :=
  ∃ contents, Draft.ReadAs items contents ∧
    graph.declarations = List.range contents.declarations.length ∧
    (∀ place declaration, contents.declarations[place]? = some declaration → ∃ node,
      graph.node? place = some node ∧ Draft.ReadsDeclaration contents graph declaration node) ∧
    List.Forall₂ (Draft.ReadsOperation contents graph) contents.operations graph.operations

namespace Graph
variable {graph : Graph} {items earlier : List (Scope × Markup.Element)}

theorem Represents.length (h : graph.Represents items) :
    graph.declarations.length = (items.filter fun item => item.2.name ≠ "operation").length ∧
      graph.operations.length = (items.filter fun item => item.2.name = "operation").length := by
  obtain ⟨contents, hread, hdeclarations, _, hoperations⟩ := h
  constructor
  · rw [hdeclarations, List.length_range, hread.declarations.length_eq]
  · rw [← hoperations.length_eq, hread.operations.length_eq]

theorem Represents.append_iff (h : graph.Represents items) : graph.Represents (earlier ++ items) ↔ earlier = [] := by
  constructor
  · intro hall
    obtain ⟨hdeclarations, hoperations⟩ := h.length
    obtain ⟨hdeclarations', hoperations'⟩ := hall.length
    rw [hdeclarations, List.filter_append, List.length_append] at hdeclarations'
    rw [hoperations, List.filter_append, List.length_append] at hoperations'
    have hnone : (earlier.filter fun item => item.2.name ≠ "operation") = [] := by
      apply List.length_eq_zero_iff.1
      omega
    have hnone' : (earlier.filter fun item => item.2.name = "operation") = [] := by
      apply List.length_eq_zero_iff.1
      omega
    refine List.eq_nil_iff_forall_not_mem.2 (fun item hitem => ?_)
    have hother := List.filter_eq_nil_iff.1 hnone item hitem
    have hoperation := List.filter_eq_nil_iff.1 hnone' item hitem
    rw [decide_eq_true_eq] at hother hoperation
    exact hother hoperation
  · rintro rfl
    exact h

/-- A graph represents the declarations and operations of its document's last schema element. It represents those
of the whole document exactly when none stand before that element. -/
theorem ofText_represents {text : String} (h : Graph.ofText text = .ok graph) : ∃ earlier last,
    (Markup.Document.ofText text).elements = earlier ++ [last] ∧
      graph.Represents (Markup.itemsIn [] "" [last]) ∧
      (graph.Represents (Markup.Document.ofText text).items ↔ Markup.itemsIn [] "" earlier = []) := by
  rw [Graph.ofText, Draft.ofText] at h
  obtain ⟨draft, hdraft, hlink⟩ := except_bind_ok h
  obtain ⟨earlier, last, helements, hread⟩ := Draft.ofDocument_last hdraft
  obtain ⟨⟨_, rfl, hfaithful⟩, hdeclared, hoperations⟩ := Draft.linkedInto hlink
  have hlast : Graph.Represents _ (Markup.itemsIn [] "" [last]) :=
    ⟨draft.contents, Draft.readSchema_items hread, hfaithful.declarations_eq, hdeclared, hoperations⟩
  refine ⟨earlier, last, helements, hlast, ?_⟩
  rw [Markup.Document.items, helements, Markup.itemsIn_append]
  exact hlast.append_iff

end Graph

namespace Sample
open Text

def itemsText : String :=
  "<schema><namespace name=\"A\"><model name=\"M\"/><namespace name=\"B\">" ++
    "<operation name=\"f\" verb=\"get\" path=\"/f\"/></namespace></namespace></schema>"

def itemsGraph : Graph where
  nodes := #[.model { decl := { name := some "M", scope := ["A"] } }]
  declarations := [0]
  operations := [{ name := "f", scope := ["A", "B"], path := "/f", verb := .get }]
  names := [("A.M", 0)]

theorem ofText_itemsText : Graph.ofText itemsText = .ok itemsGraph :=
  (Graph.ofText_eq (toList_append (toList_literal rfl) (toList_literal rfl)) (by decide)).trans (by decide +kernel)

end Sample

theorem Graph.ofText_represents_itemsText :
    Sample.itemsGraph.Represents (Markup.Document.ofText Sample.itemsText).items ∧
      (Markup.Document.ofText Sample.itemsText).items.map (fun item => (item.1, item.2.name)) =
        [(["A"], "model"), (["A", "B"], "operation")] := by
  have htext : Sample.itemsText.toList = _ := Text.toList_append (Text.toList_literal rfl) (Text.toList_literal rfl)
  have hdocument := Markup.Document.ofText_eq htext (by decide)
  obtain ⟨earlier, last, helements, _, hiff⟩ := Graph.ofText_represents Sample.ofText_itemsText
  have hsingle : (Markup.Document.ofText Sample.itemsText).elements.length = 1 := by
    rw [hdocument]
    decide +kernel
  have hearlier : earlier = [] := by
    rw [helements, List.length_append, List.length_singleton] at hsingle
    exact List.length_eq_zero_iff.1 (by omega)
  refine ⟨hiff.2 (by rw [hearlier]; rfl), ?_⟩
  rw [hdocument]
  decide +kernel

namespace Sample
open Text

def twoSchemasText : String :=
  "<schema><namespace name=\"A\"><model name=\"M\"/></namespace></schema>" ++
    "<schema><namespace name=\"B\"><model name=\"N\"/></namespace></schema>"

def twoSchemasGraph : Graph where
  nodes := #[.model { decl := { name := some "N", scope := ["B"] } }]
  declarations := [0]
  names := [("B.N", 0)]

end Sample

/-- The declaration of the first schema element is not in the graph. -/
theorem Graph.ofText_twoSchemasText : Graph.ofText Sample.twoSchemasText = .ok Sample.twoSchemasGraph ∧
    (Markup.Document.ofText Sample.twoSchemasText).items.map (fun item => (item.1, item.2.name)) =
      [(["A"], "model"), (["B"], "model")] ∧
    ¬ Sample.twoSchemasGraph.Represents (Markup.Document.ofText Sample.twoSchemasText).items := by
  have htext : Sample.twoSchemasText.toList = _ :=
    Text.toList_append (Text.toList_literal rfl) (Text.toList_literal rfl)
  have hdocument := Markup.Document.ofText_eq htext (by decide)
  refine ⟨(Graph.ofText_eq htext (by decide)).trans (by decide +kernel), ?_, fun hrepresents => ?_⟩
  · rw [hdocument]
    decide +kernel
  · have hlength := hrepresents.length.1
    have hcount : ((Markup.Document.ofText Sample.twoSchemasText).items.filter
        fun item => item.2.name ≠ "operation").length = 2 := by
      rw [hdocument]
      decide +kernel
    rw [hcount] at hlength
    cases hlength

end SchemaGuards

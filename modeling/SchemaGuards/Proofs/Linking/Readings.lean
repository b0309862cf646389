import Mathlib.Data.List.Forall2
import Mathlib.Data.Option.Basic
import SchemaGuards.Proofs.Linking.Growth
import SchemaGuards.Proofs.Linking.Naming

/-!
# How a graph reads as a draft

A graph reads as a type of a draft when unfolding it from a place gives back that type, with every name
replaced by the place of what it stands for. Unfolding ends at declarations, built-in scalars and members
of enumerations; all other places hold nodes of their own that nobody declared.
-/
namespace SchemaGuards
open Draft

namespace Graph

/-- A place that is no declaration's holds a node. -/
def Holds (graph : Graph) (id : NodeId) (node : Node) : Prop :=
  id ∉ graph.declarations ∧ graph.node? id = some node

/-- The place of the first of some built-in scalars, each of which extends the next. -/
def HasBuiltin (graph : Graph) : List String → Option NodeId → Prop
  | [], found => found = none
  | name :: bases, found => ∃ id base, found = some id ∧
      graph.Holds id (.scalar ⟨{ name := some name, scope := builtinScope }, base⟩) ∧ graph.HasBuiltin bases base

/-- The place of what a name stands for. Declarations come first, in their order. -/
def Stands (graph : Graph) : Target → NodeId → Prop
  | .intrinsic value, id => graph.Holds id (.primitive (.intrinsic value))
  | .declaration place, id => id = place
  | .builtin name, id => ∃ bases, builtinBases? name = some bases ∧ graph.HasBuiltin (name :: bases) (some id)
  | .member place name, id => graph.Holds id (.member place name)

/-- A later state of a graph that keeps all its places but some. -/
structure KeepsBut (graph later : Graph) (places : List NodeId) : Prop where
  names_eq : later.names = graph.names
  declarations_eq : later.declarations = graph.declarations
  kept : ∀ id ∉ places, ∀ node, graph.node? id = some node → later.node? id = some node

namespace KeepsBut
variable {graph later last : Graph} {places others : List NodeId}

theorem refl (graph : Graph) : graph.KeepsBut graph places := ⟨rfl, rfl, fun _ _ _ h => h⟩

theorem trans (h : graph.KeepsBut later places) (h' : later.KeepsBut last others) :
    graph.KeepsBut last (places ++ others) := by
  refine ⟨h'.names_eq.trans h.names_eq, h'.declarations_eq.trans h.declarations_eq, ?_⟩
  intro id hid node hnode
  rw [List.mem_append, not_or] at hid
  exact h'.kept id hid.2 node (h.kept id hid.1 node hnode)

theorem declared_eq (h : graph.KeepsBut later places) (qualified : String) :
    later.declared? qualified = graph.declared? qualified := by
  rw [declared?, declared?, h.names_eq]

/-- What is no declaration's stays when only declarations change. -/
theorem holds (h : graph.KeepsBut later places) (hplaces : places ⊆ graph.declarations) {id : NodeId} {node : Node}
    (hid : graph.Holds id node) : later.Holds id node := by
  refine ⟨h.declarations_eq ▸ hid.1, h.kept id ?_ node hid.2⟩
  exact fun hmem => hid.1 (hplaces hmem)

theorem hasBuiltin (h : graph.KeepsBut later places) (hplaces : places ⊆ graph.declarations) {names : List String}
    {found : Option NodeId} (hnames : graph.HasBuiltin names found) : later.HasBuiltin names found := by
  induction names generalizing found with
  | nil => exact hnames
  | cons name bases ih =>
    rcases hnames with ⟨id, base, hfound, hid, hbase⟩
    exact ⟨id, base, hfound, h.holds hplaces hid, ih hbase⟩

theorem stands (h : graph.KeepsBut later places) (hplaces : places ⊆ graph.declarations) {target : Target}
    {id : NodeId} (hid : graph.Stands target id) : later.Stands target id := by
  cases target with
  | intrinsic value => exact h.holds hplaces hid
  | declaration place => exact hid
  | builtin name =>
    rcases hid with ⟨bases, hbases, hid⟩
    exact ⟨bases, hbases, h.hasBuiltin hplaces hid⟩
  | member place name => exact h.holds hplaces hid

end KeepsBut

theorem keepsBut_add (graph : Graph) (node : Node) : graph.KeepsBut (graph.add node).2 [] := by
  refine ⟨rfl, rfl, ?_⟩
  intro id _ old hold
  rw [node?_add, if_neg (Nat.ne_of_lt (lt_size_of_node? hold)), hold]

theorem keepsBut_replace (graph : Graph) (id : NodeId) (node : Node) :
    graph.KeepsBut (graph.replace id node) [id] := by
  refine ⟨rfl, rfl, ?_⟩
  intro other hother old hold
  rw [node?_replace, if_neg (by grind), hold]

theorem keepsBut_addOperation (graph : Graph) (operation : Operation NodeId) :
    graph.KeepsBut (graph.addOperation operation) [] := ⟨rfl, rfl, fun _ _ _ h => h⟩

end Graph

namespace Draft

mutual
/-- A place from which a graph reads as a type inside a namespace. -/
inductive Reads (contents : Contents) (graph : Graph) (scope : Scope) : Form → NodeId → Prop
  | named (name : String) (target : Target) (id : NodeId) (htarget : contents.Names scope name target)
    (hid : graph.Stands target id) : Reads contents graph scope (.named name) id
  | indexed (kind : Indexed) (element : Form) (part id : NodeId)
    (hid : graph.Holds id (.model (Model.ofElement kind part))) (h : Reads contents graph scope element part) :
    Reads contents graph scope (.indexed kind element) id
  | tuple (elements : List Form) (parts : List NodeId) (id : NodeId) (hid : graph.Holds id (.tuple parts))
    (h : List.Forall₂ (Reads contents graph scope) elements parts) : Reads contents graph scope (.tuple elements) id
  | union (variants : List Form) (parts : List NodeId) (id : NodeId) (hid : graph.Holds id (.union ⟨{}, parts⟩))
    (h : List.Forall₂ (Reads contents graph scope) variants parts) : Reads contents graph scope (.union variants) id
  | model (properties : List (Property Form)) (linked : List (Property NodeId)) (id : NodeId)
    (hid : graph.Holds id (.model { decl := {}, properties := linked }))
    (h : List.Forall₂ (ReadsProperty contents graph scope) properties linked) :
    Reads contents graph scope (.model properties) id
  | literal (value : Primitive) (id : NodeId) (hid : graph.Holds id (.primitive value)) :
    Reads contents graph scope (.literal value) id
  | unsupported (kind : String) (id : NodeId) (hid : graph.Holds id (.unsupported kind)) :
    Reads contents graph scope (.unsupported kind) id

inductive ReadsProperty (contents : Contents) (graph : Graph) (scope : Scope) :
    Property Form → Property NodeId → Prop
  | mk (name : String) (type : Form) (optional : Bool) (visibility : Option LifecycleSet) (doc : Option String)
    (id : NodeId) (h : Reads contents graph scope type id) :
    ReadsProperty contents graph scope ⟨name, type, optional, visibility, doc⟩ ⟨name, id, optional, visibility, doc⟩
end

/-- A node that is a declaration with its whole body. -/
inductive ReadsDeclaration (contents : Contents) (graph : Graph) (declaration : Declaration) : Node → Prop
  | model (base : Option String) (properties : List (Property Form)) (extended : Option NodeId)
    (linked : List (Property NodeId)) (hbody : declaration.body = .model base properties)
    (hbase : Option.Rel (fun name => Reads contents graph declaration.scope (.named name)) base extended)
    (h : List.Forall₂ (ReadsProperty contents graph declaration.scope) properties linked) :
    ReadsDeclaration contents graph declaration
      (.model { decl := declaration.decl, properties := linked, base := extended })
  | enumeration (members : List Member) (hbody : declaration.body = .enumeration members) :
    ReadsDeclaration contents graph declaration (.enumeration ⟨declaration.decl, members⟩)
  | union (variants : List Form) (parts : List NodeId) (hbody : declaration.body = .union variants)
    (h : List.Forall₂ (Reads contents graph declaration.scope) variants parts) :
    ReadsDeclaration contents graph declaration (.union ⟨declaration.decl, parts⟩)
  | scalar (base : Option String) (extended : Option NodeId) (hbody : declaration.body = .scalar base)
    (hbase : Option.Rel (fun name => Reads contents graph declaration.scope (.named name)) base extended) :
    ReadsDeclaration contents graph declaration (.scalar ⟨declaration.decl, extended⟩)

def ReadsResponse (contents : Contents) (graph : Graph) (scope : Scope) (response : Response Form)
    (linked : Response NodeId) : Prop :=
  linked.status = response.status ∧ Option.Rel (Reads contents graph scope) response.body linked.body

structure ReadsOperation (contents : Contents) (graph : Graph) (operation : Operation Form)
    (linked : Operation NodeId) : Prop where
  name_eq : linked.name = operation.name
  scope_eq : linked.scope = operation.scope
  path_eq : linked.path = operation.path
  verb_eq : linked.verb = operation.verb
  doc_eq : linked.doc = operation.doc
  request : Option.Rel (Reads contents graph operation.scope) operation.request linked.request
  responses : List.Forall₂ (ReadsResponse contents graph operation.scope) operation.responses linked.responses

section Keep
variable {contents : Contents} {graph later : Graph} {places : List NodeId} {scope : Scope}

mutual
theorem Reads.keep (hkeeps : graph.KeepsBut later places) (hplaces : places ⊆ graph.declarations) {form : Form}
    {id : NodeId} (h : Reads contents graph scope form id) : Reads contents later scope form id := by
  cases form with
  | named name =>
    cases h with
    | named _ target _ htarget hid => exact .named name target id htarget (hkeeps.stands hplaces hid)
  | indexed kind element =>
    cases h with
    | indexed _ _ part _ hid h =>
      exact .indexed kind element part id (hkeeps.holds hplaces hid) (h.keep hkeeps hplaces)
  | tuple elements =>
    cases h with
    | tuple _ parts _ hid h =>
      exact .tuple elements parts id (hkeeps.holds hplaces hid) (Reads.keepAll hkeeps hplaces h)
  | union variants =>
    cases h with
    | union _ parts _ hid h =>
      exact .union variants parts id (hkeeps.holds hplaces hid) (Reads.keepAll hkeeps hplaces h)
  | model properties =>
    cases h with
    | model _ linked _ hid h =>
      exact .model properties linked id (hkeeps.holds hplaces hid) (ReadsProperty.keepAll hkeeps hplaces h)
  | literal value =>
    cases h with
    | literal _ _ hid => exact .literal value id (hkeeps.holds hplaces hid)
  | unsupported kind =>
    cases h with
    | unsupported _ _ hid => exact .unsupported kind id (hkeeps.holds hplaces hid)
termination_by structural form

theorem Reads.keepAll (hkeeps : graph.KeepsBut later places) (hplaces : places ⊆ graph.declarations)
    {forms : List Form} {ids : List NodeId} (h : List.Forall₂ (Reads contents graph scope) forms ids) :
    List.Forall₂ (Reads contents later scope) forms ids := by
  cases forms with
  | nil =>
    cases h
    exact .nil
  | cons form rest =>
    cases h with
    | cons hfirst hrest => exact .cons (hfirst.keep hkeeps hplaces) (Reads.keepAll hkeeps hplaces hrest)

theorem ReadsProperty.keep (hkeeps : graph.KeepsBut later places) (hplaces : places ⊆ graph.declarations)
    {property : Property Form} {linked : Property NodeId} (h : ReadsProperty contents graph scope property linked) :
    ReadsProperty contents later scope property linked := by
  rcases property with ⟨name, type, optional, visibility, doc⟩
  cases h with
  | mk _ _ _ _ _ id h => exact .mk name type optional visibility doc id (h.keep hkeeps hplaces)

theorem ReadsProperty.keepAll (hkeeps : graph.KeepsBut later places) (hplaces : places ⊆ graph.declarations)
    {properties : List (Property Form)} {linked : List (Property NodeId)}
    (h : List.Forall₂ (ReadsProperty contents graph scope) properties linked) :
    List.Forall₂ (ReadsProperty contents later scope) properties linked := by
  cases properties with
  | nil =>
    cases h
    exact .nil
  | cons property rest =>
    cases h with
    | cons hfirst hrest => exact .cons (hfirst.keep hkeeps hplaces) (ReadsProperty.keepAll hkeeps hplaces hrest)
end

theorem rel_imp {α β : Type} {related other : α → β → Prop} {value : Option α} {result : Option β}
    (h : Option.Rel related value result) (himp : ∀ value result, related value result → other value result) :
    Option.Rel other value result := by
  cases h with
  | none => exact .none
  | some h => exact .some (himp _ _ h)

theorem ReadsDeclaration.keep (hkeeps : graph.KeepsBut later places) (hplaces : places ⊆ graph.declarations)
    {declaration : Declaration} {node : Node} (h : ReadsDeclaration contents graph declaration node) :
    ReadsDeclaration contents later declaration node := by
  cases h with
  | model base properties extended linked hbody hbase h =>
    have hbase := rel_imp hbase (fun _ _ => Reads.keep hkeeps hplaces)
    exact .model base properties extended linked hbody hbase (ReadsProperty.keepAll hkeeps hplaces h)
  | enumeration members hbody => exact .enumeration members hbody
  | union variants parts hbody h => exact .union variants parts hbody (Reads.keepAll hkeeps hplaces h)
  | scalar base extended hbody hbase =>
    exact .scalar base extended hbody (rel_imp hbase (fun _ _ => Reads.keep hkeeps hplaces))

theorem ReadsOperation.keep (hkeeps : graph.KeepsBut later places) (hplaces : places ⊆ graph.declarations)
    {operation : Operation Form} {linked : Operation NodeId} (h : ReadsOperation contents graph operation linked) :
    ReadsOperation contents later operation linked := by
  have hoption : ∀ form found, Option.Rel (Reads contents graph operation.scope) form found →
      Option.Rel (Reads contents later operation.scope) form found :=
    fun _ _ hfound => rel_imp hfound (fun _ _ => Reads.keep hkeeps hplaces)
  exact {
    h with
    request := hoption _ _ h.request
    responses := h.responses.imp (fun _ _ hresponse => ⟨hresponse.1, hoption _ _ hresponse.2⟩) }

end Keep
end Draft
end SchemaGuards

import Mathlib.Data.List.Forall2
import SchemaGuards.Proofs.Format.Tree

/-!
# The format of schema documents

Which trees are schema documents, and which draft each of them writes. There is one rule for each
element of the format. A rule names the attributes that have to be there, the texts that they may hold
and the children that may stand inside; any other attribute is passed over.
-/
namespace SchemaGuards.Draft
open Markup

/-- The texts of a flag, which is off when it is not given. -/
def WritesFlag (given : Option String) (flag : Bool) : Prop :=
  if flag then given = some "true" else given = none ∨ given = some "false"

theorem WritesFlag.absent {given : Option String} (h : given = none) : WritesFlag given false := .inl h

theorem WritesFlag.present {given : Option String} (h : given = some "true") : WritesFlag given true := h

/-- A number with blanks around it. -/
def WritesNumber (value text : String) : Prop :=
  text = Text.trim value ∧ Decimal.isFiniteLiteral text.toList = true

/-- Names of phases between commas; blank parts do not count. -/
def WritesVisibility (value : String) (states : LifecycleSet) : Prop :=
  ∃ phases, List.Forall₂ (fun part phase => Lifecycle.ofName? part = some phase) (commaParts value) phases ∧
    states = LifecycleSet.ofList phases

theorem WritesVisibility.one (phase : Lifecycle) (h : commaParts phase.lowerName = [phase.lowerName]) :
    WritesVisibility phase.lowerName (LifecycleSet.ofList [phase]) :=
  ⟨[phase], h ▸ .cons phase.ofName?_lowerName .nil, rfl⟩

mutual
inductive WritesForm : Tree → Form → Prop
  | reference {name type : String} {attributes : List Attribute} :
    name = "ref" ∨ name = "variant" → key? attributes "type" = some type →
    WritesForm ⟨name, attributes, []⟩ (.named type)
  | string {value : String} {attributes : List Attribute} :
    key? attributes "value" = some value → WritesForm ⟨"string", attributes, []⟩ (.literal (.string value))
  | number {value text : String} {attributes : List Attribute} :
    key? attributes "value" = some value → WritesNumber value text →
    WritesForm ⟨"number", attributes, []⟩ (.literal (.number text))
  | boolean {value : String} {flag : Bool} {attributes : List Attribute} :
    key? attributes "value" = some value → WritesFlag (some value) flag →
    WritesForm ⟨"boolean", attributes, []⟩ (.literal (.boolean flag))
  | unsupported {kind : String} {attributes : List Attribute} :
    key? attributes "kind" = some kind → WritesForm ⟨"opaque", attributes, []⟩ (.unsupported kind)
  | array {attributes : List Attribute} {children : List Tree} {element : Form} :
    WritesType attributes children (some element) →
    WritesForm ⟨"array", attributes, children⟩ (.indexed .array element)
  | record {attributes : List Attribute} {children : List Tree} {element : Form} :
    WritesType attributes children (some element) →
    WritesForm ⟨"record", attributes, children⟩ (.indexed .record element)
  | tuple {attributes : List Attribute} {children : List Tree} {elements : List Form} :
    List.Forall₂ WritesForm children elements → WritesForm ⟨"tuple", attributes, children⟩ (.tuple elements)
  | union {attributes : List Attribute} {children : List Tree} {variants : List Form} :
    List.Forall₂ WritesForm children variants → WritesForm ⟨"union", attributes, children⟩ (.union variants)
  | model {attributes : List Attribute} {children : List Tree} {properties : List (Property Form)} :
    List.Forall₂ WritesProperty children properties →
    WritesForm ⟨"model", attributes, children⟩ (.model properties)

/-- A type in one of its two ways: an attribute and no child, or one child and no attribute. -/
inductive WritesType : List Attribute → List Tree → Option Form → Prop
  | absent {attributes : List Attribute} : key? attributes "type" = none → WritesType attributes [] none
  | named {type : String} {attributes : List Attribute} :
    key? attributes "type" = some type → WritesType attributes [] (some (.named type))
  | nested {attributes : List Attribute} {child : Tree} {form : Form} :
    key? attributes "type" = none → WritesForm child form → WritesType attributes [child] (some form)

inductive WritesProperty : Tree → Property Form → Prop
  | intro {name : String} {attributes : List Attribute} {children : List Tree} {type : Form} {optional : Bool}
    {visibility : Option LifecycleSet} :
    key? attributes "name" = some name → WritesType attributes children (some type) →
    WritesFlag (key? attributes "optional") optional →
    Option.Rel WritesVisibility (key? attributes "visibility") visibility →
    WritesProperty ⟨"property", attributes, children⟩
      ⟨name, type, optional, visibility, key? attributes "doc"⟩
end

/-- The value of a member; a number goes before a text. -/
inductive WritesMemberValue (attributes : List Attribute) : Option MemberValue → Prop
  | number {value text : String} :
    key? attributes "number" = some value → WritesNumber value text →
    WritesMemberValue attributes (some (.number text))
  | string {value : String} :
    key? attributes "number" = none → key? attributes "value" = some value →
    WritesMemberValue attributes (some (.string value))
  | absent :
    key? attributes "number" = none → key? attributes "value" = none → WritesMemberValue attributes none

inductive WritesMember : Tree → Member → Prop
  | intro {name : String} {attributes : List Attribute} {value : Option MemberValue} :
    key? attributes "name" = some name → WritesMemberValue attributes value →
    WritesMember ⟨"member", attributes, []⟩ ⟨name, value, key? attributes "doc"⟩

inductive WritesBody : Tree → Body → Prop
  | model {attributes : List Attribute} {children : List Tree} {properties : List (Property Form)} :
    List.Forall₂ WritesProperty children properties →
    WritesBody ⟨"model", attributes, children⟩ (.model (key? attributes "base") properties)
  | enumeration {attributes : List Attribute} {children : List Tree} {members : List Member} :
    List.Forall₂ WritesMember children members →
    WritesBody ⟨"enum", attributes, children⟩ (.enumeration members)
  | union {attributes : List Attribute} {children : List Tree} {variants : List Form} :
    List.Forall₂ WritesForm children variants → WritesBody ⟨"union", attributes, children⟩ (.union variants)
  | scalar {attributes : List Attribute} :
    WritesBody ⟨"scalar", attributes, []⟩ (.scalar (key? attributes "base"))

inductive WritesDeclaration (scope : Scope) : Tree → Declaration → Prop
  | intro {tree : Tree} {name : String} {body : Body} :
    key? tree.attributes "name" = some name → WritesBody tree body →
    WritesDeclaration scope tree ⟨name, scope, key? tree.attributes "doc", body⟩

inductive WritesResponse : Tree → Response Form → Prop
  | intro {attributes : List Attribute} {children : List Tree} {status : Option Nat} {body : Option Form} :
    Option.Rel (fun value status => readStatus? value = some status) (key? attributes "status") status →
    WritesType attributes children body → WritesResponse ⟨"response", attributes, children⟩ ⟨status, body⟩

/-- The children of an operation: its responses, and among them one request at most. -/
inductive WritesExchanges : List Tree → Option Form → List (Response Form) → Prop
  | nil : WritesExchanges [] none []
  | request {attributes : List Attribute} {children rest : List Tree} {form : Form}
    {responses : List (Response Form)} :
    WritesType attributes children (some form) → WritesExchanges rest none responses →
    WritesExchanges (⟨"request", attributes, children⟩ :: rest) (some form) responses
  | response {tree : Tree} {rest : List Tree} {request : Option Form} {response : Response Form}
    {responses : List (Response Form)} :
    WritesResponse tree response → WritesExchanges rest request responses →
    WritesExchanges (tree :: rest) request (response :: responses)

inductive WritesOperation (scope : Scope) : Tree → Operation Form → Prop
  | intro {name verbName path : String} {verb : Verb} {attributes : List Attribute} {children : List Tree}
    {request : Option Form} {responses : List (Response Form)} :
    key? attributes "name" = some name → key? attributes "path" = some path →
    key? attributes "verb" = some verbName → Verb.ofName? verbName = some verb →
    WritesExchanges children request responses →
    WritesOperation scope ⟨"operation", attributes, children⟩
      ⟨name, scope, path, verb, request, responses, key? attributes "doc"⟩

mutual
/-- One child of a namespace. The name of an inner namespace may hold several segments. -/
inductive WritesItem : Scope → Tree → Contents → Prop
  | inner {outer : Scope} {name : String} {attributes : List Attribute} {children : List Tree}
    {contents : Contents} :
    key? attributes "name" = some name → WritesItems (outer ++ Text.splitText '.' name) children contents →
    WritesItem outer ⟨"namespace", attributes, children⟩ contents
  | operation {scope : Scope} {tree : Tree} {operation : Operation Form} :
    WritesOperation scope tree operation → WritesItem scope tree ⟨[], [operation]⟩
  | declaration {scope : Scope} {tree : Tree} {declaration : Declaration} :
    WritesDeclaration scope tree declaration → WritesItem scope tree ⟨[declaration], []⟩

inductive WritesItems : Scope → List Tree → Contents → Prop
  | nil {scope : Scope} : WritesItems scope [] {}
  | cons {scope : Scope} {tree : Tree} {rest : List Tree} {contents others : Contents} :
    WritesItem scope tree contents → WritesItems scope rest others →
    WritesItems scope (tree :: rest) (contents ++ others)
end

theorem WritesItem.outermost {name : String} {scope : Scope} {children : List Tree} {contents : Contents}
    (hscope : Text.splitText '.' name = scope) (hitems : WritesItems scope children contents) :
    WritesItem [] ⟨"namespace", [⟨"name", name⟩], children⟩ contents := by
  subst hscope
  exact .inner rfl hitems

/-- What a schema holds: namespaces only. -/
inductive WritesNamespaces : List Tree → Contents → Prop
  | nil : WritesNamespaces [] {}
  | cons {tree : Tree} {rest : List Tree} {contents others : Contents} :
    tree.name = "namespace" → WritesItem [] tree contents → WritesNamespaces rest others →
    WritesNamespaces (tree :: rest) (contents ++ others)

inductive WritesSchema : Tree → Draft → Prop
  | intro {attributes : List Attribute} {children : List Tree} {contents : Contents} :
    WritesNamespaces children contents →
    WritesSchema ⟨"schema", attributes, children⟩ ⟨readRoots attributes, contents⟩

section Items

theorem Contents.append_eq (first second : Contents) :
    first ++ second = ⟨first.declarations ++ second.declarations, first.operations ++ second.operations⟩ := rfl

theorem Contents.append_empty (contents : Contents) : contents ++ {} = contents := by
  simp only [append_eq, List.append_nil]

theorem Contents.append_assoc (first second third : Contents) :
    first ++ second ++ third = first ++ (second ++ third) := by
  simp only [append_eq, List.append_assoc]

theorem WritesItems.append {scope : Scope} {trees others : List Tree} {contents more : Contents}
    (h : WritesItems scope trees contents) (h' : WritesItems scope others more) :
    WritesItems scope (trees ++ others) (contents ++ more) := by
  induction trees generalizing contents with
  | nil =>
    cases h
    exact h'
  | cons tree rest ih =>
    cases h with
    | cons hfirst hrest =>
      rw [Contents.append_assoc]
      exact .cons hfirst (ih hrest)

theorem WritesItems.flatMap {α : Type} {scope : Scope} {tree : α → Tree} {contents : α → Contents}
    (values : List α) (h : ∀ value, WritesItem scope (tree value) (contents value)) :
    WritesItems scope (values.flatMap (fun value => [tree value]))
      ⟨values.flatMap (fun value => (contents value).declarations),
        values.flatMap (fun value => (contents value).operations)⟩ := by
  induction values with
  | nil => exact .nil
  | cons value rest ih => exact .cons (h value) ih

end Items
end SchemaGuards.Draft

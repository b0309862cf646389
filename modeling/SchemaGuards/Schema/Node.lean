import SchemaGuards.Lifecycle
import SchemaGuards.Text.Blank

/-!
# Schema nodes

A schema is a graph of numbered nodes that refer to one another by number, so that a declaration may
refer to itself. A node is referred to by name when it has an identity: a name and a namespace.
-/
namespace SchemaGuards

/-- A node's place in its graph. Places have no bound here: where they are numbered by 32 bits, the same holds
of every graph of at most 2 ^ 32 nodes. -/
abbrev NodeId := Nat

def NodeId.text (id : NodeId) : String := "#" ++ toString id

/-- A path of namespaces, the outermost first. -/
abbrev Scope := List String

inductive Kind where
  | primitive
  | enumeration
  | member
  | scalar
  | model
  | tuple
  | union
  /-- A kind that a schema may hold but that has no written form. -/
  | unsupported
deriving DecidableEq, Repr

def Kind.all : List Kind :=
  [.primitive, .enumeration, .member, .scalar, .model, .tuple, .union, .unsupported]

def Kind.name : Kind → String
  | .primitive => "Primitive"
  | .enumeration => "Enum"
  | .member => "EnumMember"
  | .scalar => "Scalar"
  | .model => "Model"
  | .tuple => "Tuple"
  | .union => "Union"
  | .unsupported => "Opaque"

/-- What a declaration is referred to by. -/
structure Identity where
  kind : Kind
  name : String
  scope : Scope
deriving DecidableEq, Repr

def Identity.qualified (identity : Identity) : String := Text.dotted (identity.scope ++ [identity.name])

def Identity.text (identity : Identity) : String := identity.kind.name ++ " " ++ identity.qualified

/-- Name, namespace and documentation of a node that can be declared. -/
structure Decl where
  name : Option String := none
  scope : Scope := []
  doc : Option String := none
deriving DecidableEq, Repr

inductive Intrinsic where
  /-- Accepts no value. -/
  | never
  /-- Accepts every value. -/
  | unknown
  /-- The absent value. -/
  | void
  | null
deriving DecidableEq, Repr

def Intrinsic.all : List Intrinsic := [.never, .unknown, .void, .null]

def Intrinsic.name : Intrinsic → String
  | .never => "never"
  | .unknown => "unknown"
  | .void => "void"
  | .null => "null"

def Intrinsic.ofName? (s : String) : Option Intrinsic :=
  Intrinsic.all.find? (fun intrinsic => intrinsic.name = s)

/-- A literal or an intrinsic type; a number keeps its text. -/
inductive Primitive where
  | boolean (value : Bool)
  | number (text : String)
  | string (value : String)
  | intrinsic (value : Intrinsic)
deriving DecidableEq, Repr

inductive MemberValue where
  | string (value : String)
  | number (text : String)
deriving DecidableEq, Repr

structure Member where
  name : String
  value : Option MemberValue := none
  doc : Option String := none
deriving DecidableEq, Repr

structure Enumeration where
  decl : Decl
  members : List Member
deriving DecidableEq, Repr

structure Scalar where
  decl : Decl
  /-- The scalar that this one extends. -/
  base : Option NodeId
deriving DecidableEq, Repr

/-- A property whose type is given in some form: by a name, by a node or in full. -/
structure Property (τ : Type) where
  name : String
  type : τ
  optional : Bool := false
  /-- The phases that the property is restricted to. -/
  visibility : Option LifecycleSet := none
  doc : Option String := none
deriving DecidableEq, Repr

structure Model where
  decl : Decl
  properties : List (Property NodeId) := []
  /-- The model that this one extends. -/
  base : Option NodeId := none
  /-- The element type of an indexed model. -/
  indexer : Option NodeId := none
deriving DecidableEq, Repr

structure Union where
  decl : Decl
  variants : List NodeId
deriving DecidableEq, Repr

/-- The models with elements instead of properties. -/
inductive Indexed where
  | array
  /-- String keys. -/
  | record
deriving DecidableEq, Repr

def Indexed.all : List Indexed := [.array, .record]

def Indexed.name : Indexed → String
  | .array => "Array"
  | .record => "Record"

def Indexed.ofName? (s : String) : Option Indexed := Indexed.all.find? (fun indexed => indexed.name = s)

/-- The namespace of the built-in scalars and of the indexed models. -/
def builtinScope : Scope := ["TypeSpec"]

/-- A model's reserved name decides whether it is indexed. -/
def Model.indexed? (model : Model) : Option Indexed := model.decl.name.bind Indexed.ofName?

def Model.ofElement (indexed : Indexed) (element : NodeId) : Model where
  decl := { name := some indexed.name, scope := builtinScope }
  indexer := some element

inductive Node where
  | primitive (value : Primitive)
  | enumeration (content : Enumeration)
  /-- One member of an enumeration. -/
  | member (owner : NodeId) (name : String)
  | scalar (content : Scalar)
  | model (content : Model)
  | tuple (elements : List NodeId)
  | union (content : Union)
  | unsupported (kind : String)
deriving DecidableEq, Repr

namespace Node

def kind : Node → Kind
  | .primitive _ => .primitive
  | .enumeration _ => .enumeration
  | .member .. => .member
  | .scalar _ => .scalar
  | .model _ => .model
  | .tuple _ => .tuple
  | .union _ => .union
  | .unsupported _ => .unsupported

def decl? : Node → Option Decl
  | .enumeration content => some content.decl
  | .scalar content => some content.decl
  | .model content => some content.decl
  | .union content => some content.decl
  | _ => none

def name? : Node → Option String
  | .member _ name => some name
  | node => node.decl?.bind Decl.name

def scope (node : Node) : Scope := (node.decl?.map Decl.scope).getD []

def doc? (node : Node) : Option String := node.decl?.bind Decl.doc

/-- A node has an identity when neither its name nor its namespace is empty. -/
def identity? (node : Node) : Option Identity :=
  match node.name? with
  | some name =>
    if name = "" || node.scope = [] then none else some ⟨node.kind, name, node.scope⟩
  | none => none

def qualified? (node : Node) : Option String := node.identity?.map Identity.qualified

def isIndexed : Node → Bool
  | .model content => content.indexed?.isSome
  | _ => false

def isNever (node : Node) : Bool := node = .primitive (.intrinsic .never)

/-- Whether a node accepts an absent value. -/
def admitsAbsence (node : Node) : Bool :=
  node = .primitive (.intrinsic .unknown) || node = .primitive (.intrinsic .void)

theorem kind_of_identity? {node : Node} {identity : Identity} (h : node.identity? = some identity) :
    identity.kind = node.kind := by
  unfold identity? at h
  split at h
  · split at h
    · simp at h
    · simp only [Option.some.injEq] at h
      exact h ▸ rfl
  · simp at h

end Node
end SchemaGuards

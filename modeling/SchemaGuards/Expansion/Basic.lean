import SchemaGuards.Config
import SchemaGuards.Expansion.Numbering
import SchemaGuards.Expansion.Terminal
import SchemaGuards.Schema.Reachability
import SchemaGuards.Schema.Registry
import SchemaGuards.Traced

/-!
# Expansion

Expanding a node follows it to everything that its written form holds. A registered node below the
root becomes a reference, which is what ends the expansion of most cyclic schemas; a node inside its
own expansion that cannot be referred to is an error. Types and guards are written from the same
expansion, apart from the mappings of scalars and from the properties that have to be absent.

What is made of a single node is the same in every kind of computation that can report diagnostics; how
the nodes that it mentions are expanded is left open.
-/
namespace SchemaGuards

inductive Mode where
  | type
  /-- A predicate over a value. -/
  | guard
deriving DecidableEq, Repr

def Mode.name : Mode → String
  | .type => "type"
  | .guard => "typeguard"

/-- A node with everything that its written form holds. -/
inductive Expansion where
  /-- A registered declaration; generic when a restriction can be reached from it. -/
  | reference (entry : Entry) (generic : Bool)
  | primitive (value : Primitive)
  | enumeration (members : List Member)
  /-- A member, with its registered owner and the literal that is written without one. -/
  | member (owner : Option Entry) (name : String) (literal : String)
  /-- A scalar with a text of its own. -/
  | mapped (text : String)
  | terminal (type : Terminal)
  /-- A scalar of no known type. -/
  | unresolved
  /-- A scalar that another node decides on. -/
  | derived (base : Expansion)
  | indexed (kind : Indexed) (element : Expansion)
  | model (base : Option Expansion) (properties : List (Property Expansion))
  | tuple (elements : List Expansion)
  | union (variants : List Expansion)

/-- What nodes are expanded with. -/
structure Workspace where
  graph : Graph
  registry : Registry
  config : Config

namespace Workspace

/-- The entry under which a node is referred to. -/
def registered? (workspace : Workspace) (node : Node) : Option Entry :=
  node.identity?.bind workspace.registry.find?

/-- The kind of a node as messages about another expected kind name it. -/
def shownKind (workspace : Workspace) (id : NodeId) : String :=
  match workspace.graph.node? id with
  | some node => node.kind.name
  | none => "missing"

def failureCode (mode : Mode) (fault : String) : String := "resolve-" ++ mode.name ++ "-" ++ fault

def mapping? (workspace : Workspace) (mode : Mode) (scalar : Scalar) : Option String :=
  match mode with
  | .type => workspace.config.typeMappings.lookup scalar.shownName
  | .guard => workspace.config.guardMappings.lookup scalar.shownName

def expandMember (workspace : Workspace) (mode : Mode) (owner : NodeId) (name : String) : Traced Expansion :=
  match workspace.graph.node? owner with
  | some (.enumeration content) =>
    match content.position? name with
    | some index =>
      pure (.member (workspace.registered? (.enumeration content)) name
        (content.literal workspace.config.nominalEnums index))
    | none => Traced.fail (failureCode mode "enum-member") (.unknownMember (content.decl.name.getD "") name)
  | _ =>
    Traced.fail (failureCode mode "typeclass-mismatch")
      (.kindMismatch Kind.enumeration.name (workspace.shownKind owner) (NodeId.text owner))

variable {m : Type → Type} [Monad m] [MonadLiftT Traced m]

/-- A scalar has its mapped text, or is what it extends, or has a built-in type. -/
def expandScalar (workspace : Workspace) (mode : Mode) (scalar : Scalar)
    (child : NodeId → m Expansion) : m Expansion :=
  match workspace.mapping? mode scalar with
  | some text => pure (.mapped text)
  | none =>
    match scalar.deferredTo? with
    | some base => .derived <$> child base
    | none =>
      match scalar.terminal? workspace.config.serializableDates with
      | some type => pure (.terminal type)
      | none => do
        Traced.warn "resolve-unresolved-scalar"
          ("could not resolve scalar '" ++ scalar.shownName ++ "' (" ++ mode.name ++
            "), using a permissive fallback")
        pure .unresolved

/-- A property's type; in a guard a property that has to be absent has no type to follow. -/
def expandProperty (workspace : Workspace) (mode : Mode) (child : NodeId → m Expansion)
    (property : Property NodeId) : m (Property Expansion) := do
  let isAbsent := mode = .guard && (workspace.graph.node? property.type).any Node.isNever
  let type ← if isAbsent then pure (.primitive (.intrinsic .never)) else child property.type
  pure ⟨property.name, type, property.optional, property.visibility, property.doc⟩

def refuseUnindexed (mode : Mode) (model : Model) : Traced Expansion :=
  Traced.fail (failureCode mode "no-indexer")
    (.malformedIndexed (model.decl.name.getD "") "no element indexer")

/-- An indexed model is its elements, any other one its base and its properties. -/
def expandModel (workspace : Workspace) (mode : Mode) (model : Model) (child : NodeId → m Expansion) :
    m Expansion :=
  match model.indexed?, model.indexer with
  | some kind, some element => .indexed kind <$> child element
  | some _, none =>
    liftM (refuseUnindexed mode model)
  | none, _ => do
    let base ← model.base.mapM child
    let properties ← model.properties.mapM (workspace.expandProperty mode child)
    pure (.model base properties)

def refuseDangling (id : NodeId) : Traced Expansion :=
  Traced.fail "resolve-unresolved" (.danglingNode (NodeId.text id))

def refuseKind (kind : String) : Traced Expansion :=
  Traced.fail "resolve-unresolved" (.unsupportedKind kind)

/-- Stops at a node inside its own expansion, unless its kind is to blame already. -/
def refuseCycle (id : NodeId) : Node → Traced Expansion
  | .unsupported kind => refuseKind kind
  | node =>
    Traced.fail "resolve-unresolvable-cycle" (.unresolvableCycle (node.qualified?.getD (NodeId.text id)))

/-- Expands a node, given how the nodes are expanded that it mentions. -/
def expandNode (workspace : Workspace) (mode : Mode) (node : Node) (child : NodeId → m Expansion) :
    m Expansion :=
  match node with
  | .primitive value => pure (.primitive value)
  | .enumeration content => pure (.enumeration content.members)
  | .member owner name => liftM (workspace.expandMember mode owner name)
  | .scalar content => workspace.expandScalar mode content child
  | .model content => workspace.expandModel mode content child
  | .tuple elements => .tuple <$> elements.mapM child
  | .union content => .union <$> content.variants.mapM child
  | .unsupported kind => liftM (refuseKind kind)

/-- The reference to a node, when it is below the root and registered. -/
def reference? (workspace : Workspace) (locked : Bool) (id : NodeId) (node : Node) : Option Expansion :=
  if locked then
    (workspace.registered? node).map (fun entry => .reference entry (workspace.graph.reachesRestriction id))
  else none

/-- Expands a node inside the given ones, the innermost first. Every step down adds a node of the
graph to them, so the expansion ends. -/
def expand (workspace : Workspace) (mode : Mode) (locked : Bool) (ancestry : List NodeId) (id : NodeId) :
    Traced Expansion :=
  match hnode : workspace.graph.node? id with
  | none => refuseDangling id
  | some node =>
    match workspace.reference? locked id node with
    | some reference => pure reference
    | none =>
      if hcycle : id ∈ ancestry then refuseCycle id node
      else
        have := Graph.length_unvisited_cons (Graph.lt_size_of_node? hnode) hcycle
        workspace.expandNode mode node (fun child => workspace.expand mode true (id :: ancestry) child)
termination_by (workspace.graph.unvisited ancestry).length

end Workspace
end SchemaGuards

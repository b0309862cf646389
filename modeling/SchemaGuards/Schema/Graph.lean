import SchemaGuards.Schema.Node

/-!
# Schema graphs

A graph holds its nodes in the order in which they were added, the nodes that are declarations, and
the operations. A name is bound to a declaration when the declaration is added and stays bound to it;
of two declarations with one name the later one counts.
-/
namespace SchemaGuards

structure Response (τ : Type) where
  status : Option Nat
  body : Option τ
deriving DecidableEq, Repr

structure Operation (τ : Type) where
  name : String
  scope : Scope
  path : String
  verb : Verb
  request : Option τ := none
  responses : List (Response τ) := []
  doc : Option String := none
deriving DecidableEq, Repr

structure Graph where
  /-- The namespaces whose declarations are emitted; none means all. -/
  roots : List String := []
  nodes : Array Node := #[]
  declarations : List NodeId := []
  operations : List (Operation NodeId) := []
  /-- Declared names, the latest first. -/
  names : List (String × NodeId) := []
deriving DecidableEq, Repr

namespace Graph

def size (graph : Graph) : Nat := graph.nodes.size

def node? (graph : Graph) (id : NodeId) : Option Node := graph.nodes[id]?

def declared? (graph : Graph) (qualified : String) : Option NodeId := graph.names.lookup qualified

/-- Adds a node and gives its place, which is the number of nodes before it, also past 2 ^ 32. -/
def add (graph : Graph) (node : Node) : NodeId × Graph :=
  (graph.size, { graph with nodes := graph.nodes.push node })

def declare (graph : Graph) (node : Node) : NodeId × Graph :=
  (graph.size,
    { graph with
      nodes := graph.nodes.push node
      declarations := graph.declarations ++ [graph.size]
      names := (node.qualified?.map (·, graph.size)).toList ++ graph.names })

/-- Puts another node into an existing place; bound names stay as they are. -/
def replace (graph : Graph) (id : NodeId) (node : Node) : Graph :=
  { graph with nodes := graph.nodes.setIfInBounds id node }

def addOperation (graph : Graph) (operation : Operation NodeId) : Graph :=
  { graph with operations := graph.operations ++ [operation] }

theorem node?_eq_none_iff {graph : Graph} {id : NodeId} : graph.node? id = none ↔ graph.size ≤ id := by
  simp [node?, size]

theorem lt_size_of_node? {graph : Graph} {id : NodeId} {node : Node} (h : graph.node? id = some node) :
    id < graph.size := by
  apply Nat.lt_of_not_le
  intro hle
  simp [node?_eq_none_iff.2 hle] at h

theorem node?_add (graph : Graph) (node : Node) (id : NodeId) :
    (graph.add node).2.node? id = if id = graph.size then some node else graph.node? id := by
  simp only [add, node?, size, Array.getElem?_push]
  rfl

theorem node?_declare (graph : Graph) (node : Node) (id : NodeId) :
    (graph.declare node).2.node? id = if id = graph.size then some node else graph.node? id := by
  simp only [declare, node?, size, Array.getElem?_push]
  rfl

end Graph
end SchemaGuards

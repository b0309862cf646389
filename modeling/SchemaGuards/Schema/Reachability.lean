import SchemaGuards.Schema.Graph

/-!
# Reachable restrictions

A declaration is generic in the lifecycle when a restricted property can be reached from it along
property types, bases, indexers, tuple elements and union variants. The search visits each node of
the graph at most once, so that it ends on cyclic graphs.
-/
namespace SchemaGuards

namespace Model

def isRestricted (model : Model) : Bool := model.properties.any (fun property => property.visibility.isSome)

def mentioned (model : Model) : List NodeId :=
  model.base.toList ++ model.indexer.toList ++ model.properties.map Property.type

end Model

namespace Node

def isRestricted : Node → Bool
  | .model content => content.isRestricted
  | _ => false

/-- The nodes through which restrictions are reached. -/
def successors : Node → List NodeId
  | .model content => content.mentioned
  | .tuple elements => elements
  | .union content => content.variants
  | _ => []

end Node

namespace Graph

def unvisited (graph : Graph) (visited : List NodeId) : List NodeId :=
  (List.range graph.size).filter (fun id => id ∉ visited)

theorem length_unvisited_cons {graph : Graph} {visited : List NodeId} {id : NodeId}
    (hid : id < graph.size) (hnew : id ∉ visited) :
    (graph.unvisited (id :: visited)).length < (graph.unvisited visited).length := by
  have hsub : graph.unvisited (id :: visited) =
      (graph.unvisited visited).filter (fun other => other ≠ id) := by
    simp only [unvisited, List.filter_filter]
    apply List.filter_congr
    intro other _
    by_cases h : other = id <;> simp [h]
  rw [hsub]
  apply List.length_filter_lt_length_iff_exists.2
  exact ⟨id, by simp [unvisited, hid, hnew], by simp⟩

/-- Searches for a restriction among the nodes still to visit and those behind them. -/
def searchRestriction (graph : Graph) (visited : List NodeId) : List NodeId → Bool
  | [] => false
  | id :: rest =>
    if hseen : id ∈ visited then searchRestriction graph visited rest
    else
      match hnode : graph.node? id with
      | none => searchRestriction graph visited rest
      | some node =>
        have := length_unvisited_cons (lt_size_of_node? hnode) hseen
        node.isRestricted || searchRestriction graph (id :: visited) (node.successors ++ rest)
termination_by pending => ((graph.unvisited visited).length, pending.length)

/-- Whether a restricted property can be reached from a node. -/
def reachesRestriction (graph : Graph) (id : NodeId) : Bool := graph.searchRestriction [] [id]

end Graph
end SchemaGuards

import SchemaGuards.Proofs.Linking.Growth
import SchemaGuards.Schema.Reachability
import SchemaGuards.Schema.Registry

/-!
# Linked graphs

Every place that a node of a linked graph mentions exists. A node that is no declaration only mentions
places before its own, so that a circle always goes through a declaration, and a declaration is only
mentioned when it has an identity. Different declarations have different identities.
-/
namespace SchemaGuards

namespace Node

/-- The places that a node's written form may be made from. -/
def parts : Node → List NodeId
  | .scalar content => content.base.toList
  | .model content => content.mentioned
  | .tuple elements => elements
  | .union content => content.variants
  | _ => []

theorem identity_of_qualified? {node : Node} {qualified : String} (h : node.qualified? = some qualified) :
    ∃ identity, node.identity? = some identity ∧ identity.qualified = qualified := by
  simpa [qualified?] using h

theorem qualified?_of_identity? {node : Node} {identity : Identity} (h : node.identity? = some identity) :
    node.qualified? = some identity.qualified := by
  simp [qualified?, h]

end Node

def Operation.bodies {τ : Type} (operation : Operation τ) : List τ :=
  operation.request.toList ++ operation.responses.filterMap Response.body

namespace Graph

/-- A place that may be mentioned: it exists, and has an identity if it is a declaration's. -/
def IsTarget (graph : Graph) (id : NodeId) : Prop :=
  ∃ node, graph.node? id = some node ∧ (id ∈ graph.declarations → node.identity?.isSome)

/-- What a node's kind demands of the nodes that it mentions. The kinds without a written form are
among the given ones. -/
def Supports (graph : Graph) (kinds : List String) : Node → Prop
  | .member owner name =>
    ∃ content, graph.node? owner = some (.enumeration content) ∧ name ∈ content.members.map Member.name
  | .scalar content => ∀ base, content.base = some base → ∃ extended, graph.node? base = some (.scalar extended)
  | .model content =>
    (∀ base, content.base = some base → ∃ extended, graph.node? base = some (.model extended)) ∧
      ∀ element, content.indexer = some element → ∃ indexed, content = Model.ofElement indexed element
  | .unsupported kind => kind ∈ kinds
  | _ => True

structure Fits (graph : Graph) (kinds : List String) (id : NodeId) (node : Node) : Prop where
  targets : ∀ part ∈ node.parts, graph.IsTarget part
  descending : id ∉ graph.declarations → ∀ part ∈ node.parts, part < id
  supported : graph.Supports kinds node
  builtin : id ∉ graph.declarations → node.identity?.isSome → node.kind = .scalar ∨ node.isIndexed
  unindexed : id ∈ graph.declarations → ∀ content, node = .model content → content.indexer = none

structure IsLinked (graph : Graph) (kinds : List String) : Prop where
  named : ∀ qualified id, graph.declared? qualified = some id →
    id ∈ graph.declarations ∧ ∃ node, graph.node? id = some node ∧ node.qualified? = some qualified
  declared : ∀ id ∈ graph.declarations, ∃ node, graph.node? id = some node ∧ node.kind.isDeclarable ∧
    ∀ qualified, node.qualified? = some qualified → graph.declared? qualified = some id
  nodup : graph.declarations.Nodup
  fits : ∀ id node, graph.node? id = some node → graph.Fits kinds id node
  bodies : ∀ operation ∈ graph.operations, ∀ body ∈ operation.bodies, graph.IsTarget body

variable {graph later : Graph} {kinds : List String}

theorem IsTarget.of_not_mem {id : NodeId} {node : Node} (hnode : graph.node? id = some node)
    (h : id ∉ graph.declarations) : graph.IsTarget id :=
  ⟨node, hnode, fun hmem => absurd hmem h⟩

theorem IsTarget.lt_size {id : NodeId} (h : graph.IsTarget id) : id < graph.size := by
  rcases h with ⟨node, hnode, _⟩
  exact lt_size_of_node? hnode

theorem IsTarget.grow {id : NodeId} (h : graph.IsTarget id) (hgrows : graph.Grows later) :
    later.IsTarget id := by
  rcases h with ⟨node, hnode, hidentity⟩
  rcases hgrows.kept id node hnode with ⟨revised, hrevised, hr⟩
  refine ⟨revised, hrevised, ?_⟩
  rw [hgrows.declarations_eq, hr.identity_eq]
  exact hidentity

theorem Supports.grow {node : Node} (h : graph.Supports kinds node) (hgrows : graph.Grows later) :
    later.Supports kinds node := by
  cases node with
  | member owner name =>
    rcases h with ⟨content, hcontent, hname⟩
    exact ⟨content, hgrows.enumeration hcontent, hname⟩
  | scalar content =>
    intro base hbase
    rcases h base hbase with ⟨extended, hextended⟩
    exact hgrows.scalar hextended
  | model content =>
    refine ⟨?_, h.2⟩
    intro base hbase
    rcases h.1 base hbase with ⟨extended, hextended⟩
    exact hgrows.model hextended
  | _ => exact h

theorem Fits.grow {id : NodeId} {node : Node} (h : graph.Fits kinds id node) (hgrows : graph.Grows later) :
    later.Fits kinds id node := by
  refine ⟨fun part hpart => (h.targets part hpart).grow hgrows, ?_, h.supported.grow hgrows, ?_, ?_⟩
  · rw [hgrows.declarations_eq]
    exact h.descending
  · rw [hgrows.declarations_eq]
    exact h.builtin
  · rw [hgrows.declarations_eq]
    exact h.unindexed

namespace IsLinked

theorem lt_size_of_mem (h : graph.IsLinked kinds) {id : NodeId} (hid : id ∈ graph.declarations) :
    id < graph.size := by
  rcases h.declared id hid with ⟨node, hnode, _⟩
  exact lt_size_of_node? hnode

theorem size_not_mem (h : graph.IsLinked kinds) : graph.size ∉ graph.declarations :=
  fun hmem => absurd (h.lt_size_of_mem hmem) (Nat.lt_irrefl _)

theorem target_of_declared (h : graph.IsLinked kinds) {qualified : String} {id : NodeId}
    (hid : graph.declared? qualified = some id) : graph.IsTarget id := by
  rcases h.named qualified id hid with ⟨_, node, hnode, hqualified⟩
  rcases Node.identity_of_qualified? hqualified with ⟨identity, hidentity, _⟩
  exact ⟨node, hnode, fun _ => by simp [hidentity]⟩

/-- Growth keeps what a graph says about names and declarations; only its nodes need a look. -/
theorem grow (h : graph.IsLinked kinds) (hgrows : graph.Grows later)
    (hfits : ∀ id node, later.node? id = some node → later.Fits kinds id node)
    (hbodies : ∀ operation ∈ later.operations, ∀ body ∈ operation.bodies, later.IsTarget body) :
    later.IsLinked kinds := by
  refine ⟨?_, ?_, ?_, hfits, hbodies⟩
  · intro qualified id hid
    rw [hgrows.declared_eq] at hid
    rcases h.named qualified id hid with ⟨hmem, node, hnode, hqualified⟩
    rcases hgrows.kept id node hnode with ⟨revised, hrevised, hr⟩
    rw [hgrows.declarations_eq]
    exact ⟨hmem, revised, hrevised, hr.qualified_eq.trans hqualified⟩
  · intro id hid
    rw [hgrows.declarations_eq] at hid
    rcases h.declared id hid with ⟨node, hnode, hkind, hnames⟩
    rcases hgrows.kept id node hnode with ⟨revised, hrevised, hr⟩
    refine ⟨revised, hrevised, hr.kind_eq ▸ hkind, ?_⟩
    intro qualified hqualified
    rw [hgrows.declared_eq]
    exact hnames qualified (hr.qualified_eq ▸ hqualified)
  · rw [hgrows.declarations_eq]
    exact h.nodup

theorem add (h : graph.IsLinked kinds) {node : Node} (htargets : ∀ part ∈ node.parts, graph.IsTarget part)
    (hsupported : graph.Supports kinds node)
    (hbuiltin : node.identity?.isSome → node.kind = .scalar ∨ node.isIndexed) :
    (graph.add node).2.IsLinked kinds := by
  have hgrows := grows_add graph node
  refine h.grow hgrows ?_ ?_
  · intro id other hother
    rw [node?_add] at hother
    split at hother
    · next hid =>
      cases hother
      refine Fits.grow ⟨htargets, ?_, hsupported, fun _ => hbuiltin, ?_⟩ hgrows
      · intro _ part hpart
        exact hid ▸ (htargets part hpart).lt_size
      · intro hmem
        exact absurd (hid ▸ hmem) h.size_not_mem
    · exact (h.fits id other hother).grow hgrows
  · intro operation hoperation body hbody
    exact (h.bodies operation hoperation body hbody).grow hgrows

theorem replace (h : graph.IsLinked kinds) {id : NodeId} {old node : Node} (hid : id ∈ graph.declarations)
    (hold : graph.node? id = some old) (hrevised : old.Revised node)
    (htargets : ∀ part ∈ node.parts, graph.IsTarget part) (hsupported : graph.Supports kinds node)
    (hunindexed : ∀ content, node = .model content → content.indexer = none) :
    (graph.replace id node).IsLinked kinds := by
  have hgrows := grows_replace hold hrevised
  refine h.grow hgrows ?_ ?_
  · intro other kept hkept
    rw [node?_replace] at hkept
    split at hkept
    · next heq =>
      cases hkept
      cases heq.1
      exact Fits.grow ⟨htargets, fun hnot => absurd hid hnot, hsupported, fun hnot => absurd hid hnot,
        fun _ => hunindexed⟩ hgrows
    · exact (h.fits other kept hkept).grow hgrows
  · intro operation hoperation body hbody
    exact (h.bodies operation hoperation body hbody).grow hgrows

theorem addOperation (h : graph.IsLinked kinds) {operation : Operation NodeId}
    (hbodies : ∀ body ∈ operation.bodies, graph.IsTarget body) :
    (graph.addOperation operation).IsLinked kinds := by
  have hgrows := grows_addOperation graph operation
  apply h.grow hgrows (fun id node hnode => (h.fits id node hnode).grow hgrows)
  intro other hother body hbody
  simp only [Graph.addOperation, List.mem_append, List.mem_singleton] at hother
  rcases hother with hother | rfl
  · exact (h.bodies other hother body hbody).grow hgrows
  · exact (hbodies body hbody).grow hgrows

theorem eq_of_identity (h : graph.IsLinked kinds) {id other : NodeId} {node node' : Node} {identity : Identity}
    (hid : id ∈ graph.declarations) (hother : other ∈ graph.declarations)
    (hnode : graph.node? id = some node) (hnode' : graph.node? other = some node')
    (hidentity : node.identity? = some identity) (hidentity' : node'.identity? = some identity) :
    id = other := by
  rcases h.declared id hid with ⟨found, hfound, _, hnames⟩
  rcases h.declared other hother with ⟨found', hfound', _, hnames'⟩
  rw [hnode] at hfound
  rw [hnode'] at hfound'
  cases hfound
  cases hfound'
  have hfirst := hnames _ (Node.qualified?_of_identity? hidentity)
  have hsecond := hnames' _ (Node.qualified?_of_identity? hidentity')
  rw [hfirst] at hsecond
  exact Option.some.inj hsecond

end IsLinked
end Graph
end SchemaGuards

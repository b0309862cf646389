import Mathlib.Data.List.Chain
import SchemaGuards.Proofs.Linking.Documents

/-!
# Graphs of documents are well-formed

Nothing in the graph of an accepted document mentions a place that does not exist or that holds a node of
the wrong kind, names are bound to the declarations that have them, and every circle goes through a
declaration. All of this holds of a linked graph.
-/
namespace SchemaGuards

/-- The places that a node holds: an enumeration for a member, and else the parts of its written form. -/
def Node.links : Node → List NodeId
  | .member owner _ => [owner]
  | node => node.parts

namespace Graph

/-- The node at one place holds the other place. -/
def LinksTo (graph : Graph) (id next : NodeId) : Prop :=
  ∃ node, graph.node? id = some node ∧ next ∈ node.links

structure IsWellFormed (graph : Graph) : Prop where
  links_exist : ∀ id next, graph.LinksTo id next → ∃ node, graph.node? next = some node
  declarations_exist : ∀ id ∈ graph.declarations, ∃ node, graph.node? id = some node
  bodies_exist : ∀ operation ∈ graph.operations, ∀ body ∈ operation.bodies, ∃ node, graph.node? body = some node
  declarations_nodup : graph.declarations.Nodup
  /-- A name is bound to the one declaration whose node has it now. -/
  declared_iff : ∀ qualified id, graph.declared? qualified = some id ↔
    id ∈ graph.declarations ∧ (graph.node? id).bind Node.qualified? = some qualified
  scalar_base : ∀ id content base, graph.node? id = some (.scalar content) → content.base = some base →
    ∃ extended, graph.node? base = some (.scalar extended)
  model_base : ∀ id content base, graph.node? id = some (.model content) → content.base = some base →
    ∃ extended, graph.node? base = some (.model extended)
  member_owner : ∀ id owner name, graph.node? id = some (.member owner name) →
    ∃ content, graph.node? owner = some (.enumeration content) ∧ name ∈ content.members.map Member.name
  /-- Only a list or a record of the built-in namespace is indexed, and it is nothing else. -/
  indexed : ∀ id content element, graph.node? id = some (.model content) → content.indexer = some element →
    content.properties = [] ∧ content.base = none ∧ content.decl.scope = builtinScope ∧
      ∃ kind : Indexed, content.decl.name = some kind.name
  /-- Along a circle from a place back to it there is a declaration. -/
  circles : ∀ first rest, List.IsChain graph.LinksTo (first :: rest ++ [first]) →
    ∃ id ∈ first :: rest, id ∈ graph.declarations

theorem exists_next {graph : Graph} {last : NodeId} {path : List NodeId}
    (h : List.IsChain graph.LinksTo (path ++ [last])) : ∀ id ∈ path, ∃ next, graph.LinksTo id next := by
  induction path with
  | nil => simp
  | cons first rest ih =>
    intro id hid
    rcases List.mem_cons.1 hid with rfl | hid
    · cases rest with
      | nil => exact ⟨last, (List.isChain_cons_cons.1 h).1⟩
      | cons second rest => exact ⟨second, (List.isChain_cons_cons.1 h).1⟩
    · exact ih h.tail id hid

namespace IsLinked
variable {graph : Graph} {kinds : List String}

theorem exists_link (h : graph.IsLinked kinds) {id next : NodeId} (hlink : graph.LinksTo id next) :
    ∃ node, graph.node? next = some node := by
  rcases hlink with ⟨node, hnode, hnext⟩
  have hfits := h.fits id node hnode
  cases node with
  | member owner name =>
    cases List.mem_singleton.1 hnext
    rcases hfits.supported with ⟨content, howner, _⟩
    exact ⟨_, howner⟩
  | _ =>
    rcases hfits.targets next hnext with ⟨part, hpart, _⟩
    exact ⟨part, hpart⟩

/-- Without a declaration a link leads to a place further in front, or to an enumeration, which holds none. -/
theorem lt_of_linksTo (h : graph.IsLinked kinds) {id next last : NodeId} (hid : id ∉ graph.declarations)
    (hlink : graph.LinksTo id next) (hlast : graph.LinksTo next last) : next < id := by
  rcases hlink with ⟨node, hnode, hnext⟩
  have hfits := h.fits id node hnode
  cases node with
  | member owner name =>
    cases List.mem_singleton.1 hnext
    rcases hfits.supported with ⟨content, howner, _⟩
    rcases hlast with ⟨held, hheld, hlast⟩
    cases howner.symm.trans hheld
    cases hlast
  | _ => exact hfits.descending hid next hnext

theorem exists_declaration (h : graph.IsLinked kinds) {first : NodeId} {rest : List NodeId}
    (hcircle : List.IsChain graph.LinksTo (first :: rest ++ [first])) :
    ∃ id ∈ first :: rest, id ∈ graph.declarations := by
  by_contra hnone
  have hundeclared : ∀ id ∈ first :: rest, id ∉ graph.declarations :=
    fun id hid hdeclared => hnone ⟨id, hid, hdeclared⟩
  have hround : ∀ id ∈ first :: rest ++ [first], id ∈ first :: rest := by
    intro id hid
    rcases List.mem_append.1 hid with hid | hid
    · exact hid
    · exact List.mem_cons.2 (.inl (List.mem_singleton.1 hid))
  -- Every place of the circle leads on, so the places along it only get smaller.
  have hdescends : List.IsChain (fun id next => next < id) (first :: rest ++ [first]) := by
    apply hcircle.imp_of_mem_imp
    intro id next hid hnext hlink
    obtain ⟨last, hlast⟩ := exists_next hcircle next (hround next hnext)
    exact h.lt_of_linksTo (hundeclared id (hround id hid)) hlink hlast
  have hsmaller : first < first := hdescends.rel_cons (by simp)
  exact Nat.lt_irrefl first hsmaller

theorem isWellFormed (h : graph.IsLinked kinds) : graph.IsWellFormed where
  links_exist _ _ hlink := h.exists_link hlink
  declarations_exist id hid := by
    rcases h.declared id hid with ⟨node, hnode, _⟩
    exact ⟨node, hnode⟩
  bodies_exist operation hoperation body hbody := by
    rcases h.bodies operation hoperation body hbody with ⟨node, hnode, _⟩
    exact ⟨node, hnode⟩
  declarations_nodup := h.nodup
  declared_iff qualified id := by
    constructor
    · intro hid
      rcases h.named qualified id hid with ⟨hmem, node, hnode, hqualified⟩
      exact ⟨hmem, by rw [hnode, Option.bind_some, hqualified]⟩
    · rintro ⟨hmem, hqualified⟩
      rcases h.declared id hmem with ⟨node, hnode, _, hnames⟩
      rw [hnode, Option.bind_some] at hqualified
      exact hnames qualified hqualified
  scalar_base id content base hnode := (h.fits id _ hnode).supported base
  model_base id content base hnode := (h.fits id _ hnode).supported.1 base
  member_owner id owner name hnode := (h.fits id _ hnode).supported
  indexed id content element hnode helement := by
    rcases (h.fits id _ hnode).supported.2 element helement with ⟨kind, rfl⟩
    exact ⟨rfl, rfl, rfl, kind, rfl⟩
  circles _ _ hcircle := h.exists_declaration hcircle

end IsLinked

/-- Every document that is accepted has a well-formed graph. -/
theorem ofText_isWellFormed {text : String} {graph : Graph} (h : Graph.ofText text = .ok graph) :
    graph.IsWellFormed := by
  rcases ofText_isLinked h with ⟨kinds, hlinked, _⟩
  exact hlinked.isWellFormed

end Graph

namespace Sample
open Draft Markup Text

/-- A model whose properties are of the model itself and of a member of an enumeration. -/
def circularText : String :=
  "<schema><namespace name=\"A\"><enum name=\"Kind\"><member name=\"on\"/></enum><model name=\"M\">" ++
    "<property name=\"next\" type=\"M\"/><property name=\"kind\" type=\"Kind.on\"/></model></namespace></schema>"

def circularGraph : Graph where
  nodes := #[.enumeration ⟨{ name := some "Kind", scope := ["A"] }, [{ name := "on" }]⟩,
             .model { decl := { name := some "M", scope := ["A"] },
                      properties := [{ name := "next", type := 1 }, { name := "kind", type := 2 }] },
             .member 0 "on"]
  declarations := [0, 1]
  names := [("A.M", 1), ("A.Kind", 0)]

theorem ofText_circularText : Graph.ofText circularText = .ok circularGraph :=
  (Graph.ofText_eq (toList_append (toList_literal rfl) (toList_literal rfl)) (by decide)).trans (by decide +kernel)

end Sample

/-- The circle of the model goes through the model. -/
theorem Graph.ofText_isWellFormed_circularText :
    Graph.ofText Sample.circularText = .ok Sample.circularGraph ∧ Sample.circularGraph.IsWellFormed ∧
      ∃ id ∈ [1], id ∈ Sample.circularGraph.declarations := by
  have hwellFormed := Graph.ofText_isWellFormed Sample.ofText_circularText
  have hlink : Sample.circularGraph.LinksTo 1 1 := ⟨_, rfl, by decide⟩
  exact ⟨Sample.ofText_circularText, hwellFormed, hwellFormed.circles 1 [] (.cons_cons hlink (.singleton 1))⟩

end SchemaGuards

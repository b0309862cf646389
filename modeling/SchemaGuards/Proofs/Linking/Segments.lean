import SchemaGuards.Proofs.Linkage
import SchemaGuards.Proofs.Linking.Documents
import SchemaGuards.Proofs.Linking.Unfolding
import SchemaGuards.Proofs.Paths
import SchemaGuards.Proofs.Traced

/-!
# The namespaces of documents

A document writes the segments of a namespace with dots between them, so no segment of a declaration's or
an operation's namespace holds a dot. Roots are written between commas and keep their dots.
-/
namespace SchemaGuards

namespace Draft
open Markup

/-- Contents that all stand in namespaces, whose segments have no dots. -/
structure Contents.IsSegmented (contents : Contents) : Prop where
  declarations : ∀ declaration ∈ contents.declarations, Scope.IsWritten declaration.scope
  operations : ∀ operation ∈ contents.operations, Scope.IsWritten operation.scope

theorem WritesDeclaration.scope_eq {scope : Scope} {tree : Tree} {declaration : Declaration}
    (h : WritesDeclaration scope tree declaration) : declaration.scope = scope := by
  cases h
  rfl

theorem WritesOperation.scope_eq {scope : Scope} {tree : Tree} {operation : Operation Form}
    (h : WritesOperation scope tree operation) : operation.scope = scope := by
  cases h
  rfl

theorem Contents.ComesFrom.isSegmented {contents : Contents} {trees : List Tree} (h : contents.ComesFrom trees) :
    contents.IsSegmented := by
  constructor
  · intro declaration hdeclaration
    obtain ⟨_, _, hscope, _, hwrites⟩ := h.declarations declaration hdeclaration
    exact hwrites.scope_eq ▸ hscope
  · intro operation hoperation
    obtain ⟨_, _, hscope, _, hwrites⟩ := h.operations operation hoperation
    exact hwrites.scope_eq ▸ hscope

/-- Qualified names of segments without dots tell declarations apart. -/
theorem Declaration.qualified_eq_iff {first second : Declaration} (h : Scope.IsWritten (first.scope ++ [first.name]))
    (h' : Scope.IsWritten (second.scope ++ [second.name])) :
    first.qualified = second.qualified ↔ first.scope = second.scope ∧ first.name = second.name := by
  rw [Declaration.qualified, Declaration.qualified, Scope.dotted_inj h h']
  constructor
  · intro hsegments
    obtain ⟨hscope, hname⟩ := List.append_inj' hsegments rfl
    exact ⟨hscope, List.singleton_inj.1 hname⟩
  · rintro ⟨hscope, hname⟩
    rw [hscope, hname]

/-- A document is read segment by segment. -/
theorem ofDocument_isSegmented {document : Document} {draft : Draft} (h : ofDocument document = .ok draft) :
    draft.contents.IsSegmented := by
  obtain ⟨_, _, hwrites⟩ := ofDocument_writes h
  exact hwrites.comesFrom.isSegmented

theorem ReadsDeclaration.scope_eq {contents : Contents} {graph : Graph} {declaration : Declaration} {node : Node}
    (h : ReadsDeclaration contents graph declaration node) : node.scope = declaration.scope := by
  cases h <;> rfl

end Draft

namespace Graph
variable {text : String} {graph : Graph}

/-- Everything in a document's graph stands in a namespace whose segments have no dots. -/
theorem ofText_isWritten (h : Graph.ofText text = .ok graph) :
    (∀ id ∈ graph.declarations, ∀ node, graph.node? id = some node → node.scope.IsWritten) ∧
      ∀ operation ∈ graph.operations, operation.scope.IsWritten := by
  rw [Graph.ofText] at h
  rcases except_bind_ok h with ⟨draft, hdraft, hlink⟩
  have hsegmented := Draft.ofDocument_isSegmented hdraft
  obtain ⟨⟨_, rfl, hfaithful⟩, hdeclared, hoperations⟩ := Draft.linkedInto hlink
  constructor
  · intro id hid node hnode
    rw [hfaithful.declarations_eq, List.mem_range] at hid
    obtain ⟨found, hfound, hreads⟩ := hdeclared id _ (List.getElem?_eq_getElem hid)
    cases hnode.symm.trans hfound
    rw [hreads.scope_eq]
    exact hsegmented.declarations _ (List.getElem_mem hid)
  · intro operation hoperation
    rcases (mem_of_forall₂ hoperations).2 operation hoperation with ⟨written, hwritten, hreads⟩
    rw [hreads.scope_eq]
    exact hsegmented.operations written hwritten

end Graph

namespace Workspace
variable {text : String} {config : Config} {workspace : Workspace}

/-- Everything registered for an accepted document has segments that can be written in a document. -/
theorem ofText_isWritten (h : Workspace.ofText text config = .ok workspace) {entry : Entry}
    (hentry : entry ∈ workspace.registry) : entry.identity.scope.IsWritten := by
  obtain ⟨_, kinds, hsound⟩ := ofText_ok h
  obtain ⟨hdeclared, node, hnode, hidentity, _⟩ := hsound.lists.sound entry hentry
  rw [(Node.scope_of_identity? hidentity).1]
  exact (Graph.ofText_isWritten (ofText_parts h).1).1 entry.node hdeclared node hnode

end Workspace
end SchemaGuards

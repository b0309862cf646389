import SchemaGuards.Draft.Linking

/-!
# Growth of a graph

While the bodies of declarations are linked, a graph only gains nodes and a declaration's place only
gets another body. Names, declarations and roots stay, and so does what a node is referred to by.
-/
namespace SchemaGuards

namespace Node

/-- One node put in the place of another: the same one, or a declaration with a new body. -/
inductive Revised : Node → Node → Prop
  | same (node : Node) : Revised node node
  | scalar (decl : Decl) (before after : Option NodeId) :
    Revised (.scalar ⟨decl, before⟩) (.scalar ⟨decl, after⟩)
  | model (before after : Model) (h : before.decl = after.decl) : Revised (.model before) (.model after)
  | union (decl : Decl) (before after : List NodeId) :
    Revised (.union ⟨decl, before⟩) (.union ⟨decl, after⟩)

namespace Revised
variable {node later last : Node}

theorem trans (h : node.Revised later) (h' : later.Revised last) : node.Revised last := by
  cases h with
  | same => exact h'
  | scalar decl before after =>
    cases h' with
    | same => exact .scalar decl before after
    | scalar _ _ final => exact .scalar decl before final
  | model before after hdecl =>
    cases h' with
    | same => exact .model before after hdecl
    | model _ final hdecl' => exact .model before final (hdecl.trans hdecl')
  | union decl before after =>
    cases h' with
    | same => exact .union decl before after
    | union _ _ final => exact .union decl before final

theorem symm (h : node.Revised later) : later.Revised node := by
  cases h with
  | same => exact .same node
  | scalar decl before after => exact .scalar decl after before
  | model before after hdecl => exact .model after before hdecl.symm
  | union decl before after => exact .union decl after before

theorem kind_eq (h : node.Revised later) : later.kind = node.kind := by
  cases h <;> rfl

theorem identity_eq (h : node.Revised later) : later.identity? = node.identity? := by
  cases h with
  | same => rfl
  | scalar => rfl
  | model before after hdecl =>
    cases before
    cases after
    cases hdecl
    rfl
  | union => rfl

theorem qualified_eq (h : node.Revised later) : later.qualified? = node.qualified? := by
  rw [qualified?, qualified?, h.identity_eq]

theorem enumeration_eq {content : Enumeration} (h : (Node.enumeration content).Revised later) :
    later = .enumeration content := by
  cases h
  rfl

end Revised

theorem exists_scalar_of_kind {node : Node} (h : node.kind = .scalar) : ∃ content, node = .scalar content := by
  cases node <;> simp_all [kind]

theorem exists_model_of_kind {node : Node} (h : node.kind = .model) : ∃ content, node = .model content := by
  cases node <;> simp_all [kind]

end Node

namespace Graph

/-- A later state of a graph whose declarations have all been made. -/
structure Grows (graph later : Graph) : Prop where
  roots_eq : later.roots = graph.roots
  names_eq : later.names = graph.names
  declarations_eq : later.declarations = graph.declarations
  kept : ∀ id node, graph.node? id = some node → ∃ revised, later.node? id = some revised ∧ node.Revised revised

namespace Grows
variable {graph later last : Graph}

theorem refl (graph : Graph) : graph.Grows graph :=
  ⟨rfl, rfl, rfl, fun _ node h => ⟨node, h, .same node⟩⟩

theorem trans (h : graph.Grows later) (h' : later.Grows last) : graph.Grows last := by
  refine ⟨h'.roots_eq.trans h.roots_eq, h'.names_eq.trans h.names_eq,
    h'.declarations_eq.trans h.declarations_eq, ?_⟩
  intro id node hnode
  rcases h.kept id node hnode with ⟨mid, hmid, hrevised⟩
  rcases h'.kept id mid hmid with ⟨final, hfinal, hrevised'⟩
  exact ⟨final, hfinal, hrevised.trans hrevised'⟩

theorem declared_eq (h : graph.Grows later) (qualified : String) :
    later.declared? qualified = graph.declared? qualified := by
  rw [declared?, declared?, h.names_eq]

theorem enumeration {id : NodeId} {content : Enumeration} (h : graph.Grows later)
    (hnode : graph.node? id = some (.enumeration content)) : later.node? id = some (.enumeration content) := by
  rcases h.kept id _ hnode with ⟨revised, hrevised, hr⟩
  rw [hrevised, hr.enumeration_eq]

theorem scalar {id : NodeId} {content : Scalar} (h : graph.Grows later)
    (hnode : graph.node? id = some (.scalar content)) : ∃ other, later.node? id = some (.scalar other) := by
  rcases h.kept id _ hnode with ⟨revised, hrevised, hr⟩
  rcases Node.exists_scalar_of_kind hr.kind_eq with ⟨other, rfl⟩
  exact ⟨other, hrevised⟩

theorem model {id : NodeId} {content : Model} (h : graph.Grows later)
    (hnode : graph.node? id = some (.model content)) : ∃ other, later.node? id = some (.model other) := by
  rcases h.kept id _ hnode with ⟨revised, hrevised, hr⟩
  rcases Node.exists_model_of_kind hr.kind_eq with ⟨other, rfl⟩
  exact ⟨other, hrevised⟩

end Grows

theorem grows_add (graph : Graph) (node : Node) : graph.Grows (graph.add node).2 := by
  refine ⟨rfl, rfl, rfl, ?_⟩
  intro id old hold
  refine ⟨old, ?_, .same old⟩
  rw [node?_add, if_neg (Nat.ne_of_lt (lt_size_of_node? hold)), hold]

theorem node?_replace (graph : Graph) (id other : NodeId) (node : Node) :
    (graph.replace id node).node? other =
      if id = other ∧ other < graph.size then some node else graph.node? other := by
  simp only [replace, node?, size, Array.getElem?_setIfInBounds]
  by_cases h : id = other
  · subst h
    by_cases hlt : id < graph.nodes.size
    · simp [hlt]
    · simp [hlt]
  · simp [h]

theorem grows_replace {graph : Graph} {id : NodeId} {old node : Node} (hold : graph.node? id = some old)
    (h : old.Revised node) : graph.Grows (graph.replace id node) := by
  refine ⟨rfl, rfl, rfl, ?_⟩
  intro other kept hkept
  rw [node?_replace]
  by_cases hid : id = other
  · subst hid
    rw [hold] at hkept
    cases hkept
    exact ⟨node, by simp [lt_size_of_node? hold], h⟩
  · exact ⟨kept, by simp [hid, hkept], .same kept⟩

theorem grows_addOperation (graph : Graph) (operation : Operation NodeId) :
    graph.Grows (graph.addOperation operation) :=
  ⟨rfl, rfl, rfl, fun _ node h => ⟨node, h, .same node⟩⟩

end Graph
end SchemaGuards

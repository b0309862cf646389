import SchemaGuards.Proofs.Linking.Linked
import SchemaGuards.Schema.Validation

/-!
# Valid graphs

What validation adds to a linked graph: an indexed model has its elements, and so it is exactly the
one that links an element form. A declaration is never indexed.
-/
namespace SchemaGuards

theorem forM_ok {ε α : Type} {step : α → Except ε Unit} {values : List α}
    (h : List.forM values step = .ok ()) : ∀ value ∈ values, step value = .ok () := by
  induction values with
  | nil => simp
  | cons first rest ih =>
    rw [List.forM_eq_forM, List.forM_cons] at h
    cases hfirst : step first with
    | error error =>
      rw [hfirst] at h
      cases h
    | ok value =>
      rw [hfirst] at h
      intro value hvalue
      rcases List.mem_cons.1 hvalue with rfl | hvalue
      · exact hfirst
      · exact ih h value hvalue

theorem Model.indexer_of_validate {model : Model} (h : model.validate = .ok ()) {kind : Indexed}
    (hkind : model.indexed? = some kind) : ∃ element, model.indexer = some element := by
  cases hindexer : model.indexer with
  | some element => exact ⟨element, rfl⟩
  | none => simp [validate, hkind, hindexer] at h

theorem Node.validate_content {node : Node} (h : node.validate = .ok ()) :
    (∀ content, node = .enumeration content → content.validate = .ok ()) ∧
      ∀ content, node = .model content → content.validate = .ok () := by
  unfold validate at h
  cases hscope : validateScope node.scope with
  | error error =>
    rw [hscope] at h
    cases h
  | ok value =>
    rw [hscope] at h
    constructor <;> rintro content rfl <;> exact h

namespace Graph
variable {graph : Graph} {kinds : List String}

theorem validate_node (h : graph.validate = .ok ()) {id : NodeId} {node : Node}
    (hnode : graph.node? id = some node) : node.validate = .ok () := by
  rw [validate] at h
  cases hnodes : List.forM graph.nodes.toList Node.validate with
  | error error =>
    rw [hnodes] at h
    cases h
  | ok value =>
    have hmem : node ∈ graph.nodes := Array.mem_of_getElem? hnode
    exact forM_ok hnodes node (Array.mem_toList_iff.2 hmem)

theorem validate_enumeration (h : graph.validate = .ok ()) {id : NodeId} {content : Enumeration}
    (hnode : graph.node? id = some (.enumeration content)) : content.validate = .ok () :=
  (Node.validate_content (validate_node h hnode)).1 content rfl

theorem validate_model (h : graph.validate = .ok ()) {id : NodeId} {model : Model}
    (hnode : graph.node? id = some (.model model)) : model.validate = .ok () :=
  (Node.validate_content (validate_node h hnode)).2 model rfl

/-- An indexed model of a valid linked graph has nothing but its element. -/
theorem IsLinked.eq_ofElement (h : graph.IsLinked kinds) (hvalid : graph.validate = .ok ()) {id : NodeId}
    {model : Model} (hnode : graph.node? id = some (.model model)) {kind : Indexed}
    (hkind : model.indexed? = some kind) : ∃ element, model = Model.ofElement kind element := by
  rcases Model.indexer_of_validate (validate_model hvalid hnode) hkind with ⟨element, helement⟩
  rcases (h.fits id _ hnode).supported.2 element helement with ⟨indexed, rfl⟩
  have : indexed = kind := by
    cases indexed <;> cases kind <;> first | rfl | cases hkind
  exact ⟨element, by rw [this]⟩

/-- A model of a linked graph that is not indexed has no indexer. -/
theorem IsLinked.indexer_eq_none (h : graph.IsLinked kinds) {id : NodeId} {model : Model}
    (hnode : graph.node? id = some (.model model)) (hkind : model.indexed? = none) : model.indexer = none := by
  cases hindexer : model.indexer with
  | none => rfl
  | some element =>
    rcases (h.fits id _ hnode).supported.2 element hindexer with ⟨indexed, rfl⟩
    cases indexed <;> cases hkind

theorem IsLinked.indexed?_of_declared (h : graph.IsLinked kinds) (hvalid : graph.validate = .ok ())
    {id : NodeId} {model : Model} (hid : id ∈ graph.declarations)
    (hnode : graph.node? id = some (.model model)) : model.indexed? = none := by
  cases hkind : model.indexed? with
  | none => rfl
  | some kind =>
    rcases Model.indexer_of_validate (validate_model hvalid hnode) hkind with ⟨element, helement⟩
    have hnone := (h.fits id _ hnode).unindexed hid model rfl
    rw [hnone] at helement
    cases helement

end Graph
end SchemaGuards

import SchemaGuards.Proofs.Written.Enforcement

/-!
# Types and guards enforce the same restrictions

Which models stand in full at a place is a matter of the graph alone: references end it, everything else
is followed. The filters of the type and the clauses of the guard both enforce the restricted properties
of exactly these models, once for each place where a model stands.
-/
namespace SchemaGuards
open Trail

/-- The restricted properties of a model itself. -/
def Model.restricted (content : Model) : List (Trail × LifecycleSet) :=
  content.properties.flatMap (fun property => ofVisibility property.name property.visibility)

namespace Trail

end Trail

namespace Workspace

/-- The models that stand in full at a place, each with the trail that leads to it. -/
inductive Writes (workspace : Workspace) : Bool → NodeId → List (Trail × Model) → Prop
  | referred (id : NodeId) (node : Node) (entry : Entry) (hnode : workspace.graph.node? id = some node)
    (hentry : workspace.registered? node = some entry) : Writes workspace true id []
  /-- Literals, enumerations and scalars hold no models. -/
  | leaf (locked : Bool) (id : NodeId) (node : Node) (hid : workspace.IsExpanded locked id node)
    (hkind : node.kind ∉ [Kind.model, Kind.tuple, Kind.union]) : Writes workspace locked id []
  | indexed (locked : Bool) (id element : NodeId) (content : Model) (kind : Indexed)
    (models : List (Trail × Model)) (hid : workspace.IsExpanded locked id (.model content))
    (hkind : content.indexed? = some kind) (helement : content.indexer = some element)
    (h : Writes workspace true element models) :
    Writes workspace locked id (([], content) :: inElements kind models)
  | shaped (locked : Bool) (id : NodeId) (content : Model) (base : List (Trail × Model))
    (properties : List (Property NodeId × List (Trail × Model)))
    (hid : workspace.IsExpanded locked id (.model content)) (hkind : content.indexed? = none)
    (hroot : content.base = none → base = [])
    (hbase : ∀ extended, content.base = some extended → Writes workspace true extended base)
    (hproperties : properties.map Prod.fst = content.properties)
    (h : ∀ pair ∈ properties, Writes workspace true pair.1.type pair.2) :
    Writes workspace locked id
      (([], content) :: (base ++ properties.flatMap (fun pair => under (.key pair.1.name) pair.2)))
  | tuple (locked : Bool) (id : NodeId) (elements : List (NodeId × List (Trail × Model)))
    (hid : workspace.IsExpanded locked id (.tuple (elements.map Prod.fst)))
    (h : ∀ pair ∈ elements, Writes workspace true pair.1 pair.2) :
    Writes workspace locked id (numbered .position 0 (elements.map Prod.snd))
  | union (locked : Bool) (id : NodeId) (content : Union) (variants : List (NodeId × List (Trail × Model)))
    (hid : workspace.IsExpanded locked id (.union content))
    (hvariants : variants.map Prod.fst = content.variants)
    (h : ∀ pair ∈ variants, Writes workspace true pair.1 pair.2) :
    Writes workspace locked id (numbered .variant 0 (variants.map Prod.snd))

variable {workspace : Workspace} {locked : Bool} {id : NodeId} {models : List (Trail × Model)}

theorem IsExpanded.not_referred {node other : Node} {entry : Entry} (h : workspace.IsExpanded true id node)
    (hother : workspace.graph.node? id = some other) (hentry : workspace.registered? other = some entry) :
    False := by
  cases h.1.symm.trans hother
  cases (h.2 rfl).symm.trans hentry

/-- Pairs with the same first parts agree when the second parts are determined by them. -/
theorem pairs_unique {α β : Type} (related : α → β → Prop) {first second : List (α × β)}
    (hfst : first.map Prod.fst = second.map Prod.fst)
    (hunique : ∀ pair ∈ first, ∀ found, related pair.1 found → pair.2 = found)
    (hsecond : ∀ pair ∈ second, related pair.1 pair.2) : first = second := by
  induction first generalizing second with
  | nil => cases second <;> first | rfl | cases hfst
  | cons pair rest ih =>
    cases second with
    | nil => cases hfst
    | cons other others =>
      rw [List.map_cons, List.map_cons, List.cons.injEq] at hfst
      have hpair : pair = other := by
        refine Prod.ext hfst.1 (hunique pair List.mem_cons_self other.2 ?_)
        rw [hfst.1]
        exact hsecond other List.mem_cons_self
      rw [hpair, ih hfst.2 (fun pair hpair => hunique pair (List.mem_cons_of_mem _ hpair))
        (fun pair hpair => hsecond pair (List.mem_cons_of_mem _ hpair))]

section Inversion
variable (h : workspace.Writes locked id models)
include h

theorem Writes.of_leaf {node : Node} (hnode : workspace.graph.node? id = some node)
    (hkind : node.kind ∉ [Kind.model, Kind.tuple, Kind.union]) : models = [] := by
  cases h with
  | referred | leaf => rfl
  | indexed | shaped | tuple | union =>
    have hid : workspace.IsExpanded locked id _ := ‹_›
    cases hnode.symm.trans hid.1
    simp [Node.kind] at hkind

theorem Writes.of_indexed {content : Model} {kind : Indexed} {element : NodeId}
    (hid : workspace.IsExpanded locked id (.model content)) (hkind : content.indexed? = some kind)
    (helement : content.indexer = some element) :
    ∃ inner, workspace.Writes true element inner ∧ models = ([], content) :: inElements kind inner := by
  cases h with
  | referred _ node entry hnode hentry => exact (hid.not_referred hnode hentry).elim
  | leaf _ _ node hother hleaf =>
    cases hid.node_eq hother
    simp [Node.kind] at hleaf
  | indexed _ _ found other foundKind inner hother hfoundKind hfound h =>
    cases hid.node_eq hother
    cases hkind.symm.trans hfoundKind
    cases helement.symm.trans hfound
    exact ⟨inner, h, rfl⟩
  | shaped _ _ other base properties hother hnone =>
    cases hid.node_eq hother
    cases hkind.symm.trans hnone
  | tuple | union => cases hid.node_eq ‹_›

theorem Writes.of_shaped {content : Model} (hid : workspace.IsExpanded locked id (.model content))
    (hkind : content.indexed? = none) :
    ∃ (base : List (Trail × Model)) (properties : List (Property NodeId × List (Trail × Model))),
      (content.base = none → base = []) ∧
      (∀ extended, content.base = some extended → workspace.Writes true extended base) ∧
      properties.map Prod.fst = content.properties ∧
      (∀ pair ∈ properties, workspace.Writes true pair.1.type pair.2) ∧
      models = ([], content) :: (base ++ properties.flatMap (fun pair => under (.key pair.1.name) pair.2)) := by
  cases h with
  | referred _ node entry hnode hentry => exact (hid.not_referred hnode hentry).elim
  | leaf _ _ node hother hleaf =>
    cases hid.node_eq hother
    simp [Node.kind] at hleaf
  | indexed _ _ found other foundKind inner hother hfoundKind hfound h =>
    cases hid.node_eq hother
    cases hkind.symm.trans hfoundKind
  | shaped _ _ other base properties hother hnone hroot hbase hproperties h =>
    cases hid.node_eq hother
    exact ⟨base, properties, hroot, hbase, hproperties, h, rfl⟩
  | tuple | union => cases hid.node_eq ‹_›

theorem Writes.of_tuple {parts : List NodeId} (hid : workspace.IsExpanded locked id (.tuple parts)) :
    ∃ elements : List (NodeId × List (Trail × Model)), elements.map Prod.fst = parts ∧
      (∀ pair ∈ elements, workspace.Writes true pair.1 pair.2) ∧
      models = numbered .position 0 (elements.map Prod.snd) := by
  cases h with
  | referred _ node entry hnode hentry => exact (hid.not_referred hnode hentry).elim
  | leaf _ _ node hother hleaf =>
    cases hid.node_eq hother
    simp [Node.kind] at hleaf
  | tuple _ _ elements hother h =>
    cases hid.node_eq hother
    exact ⟨elements, rfl, h, rfl⟩
  | indexed | shaped | union => cases hid.node_eq ‹_›

theorem Writes.of_union {content : Union} (hid : workspace.IsExpanded locked id (.union content)) :
    ∃ variants : List (NodeId × List (Trail × Model)), variants.map Prod.fst = content.variants ∧
      (∀ pair ∈ variants, workspace.Writes true pair.1 pair.2) ∧
      models = numbered .variant 0 (variants.map Prod.snd) := by
  cases h with
  | referred _ node entry hnode hentry => exact (hid.not_referred hnode hentry).elim
  | leaf _ _ node hother hleaf =>
    cases hid.node_eq hother
    simp [Node.kind] at hleaf
  | union _ _ other variants hother hvariants h =>
    cases hid.node_eq hother
    exact ⟨variants, hvariants, h, rfl⟩
  | indexed | shaped | tuple => cases hid.node_eq ‹_›

end Inversion

theorem Writes.unique (h : workspace.Writes locked id models) :
    ∀ found, workspace.Writes locked id found → models = found := by
  induction h with
  | referred id node entry hnode hentry =>
    intro found hfound
    cases hfound with
    | referred | leaf => rfl
    | indexed _ _ _ _ _ _ hid => exact (hid.not_referred hnode hentry).elim
    | shaped _ _ _ _ _ hid => exact (hid.not_referred hnode hentry).elim
    | tuple _ _ _ hid => exact (hid.not_referred hnode hentry).elim
    | union _ _ _ _ hid => exact (hid.not_referred hnode hentry).elim
  | leaf locked id node hid hkind => exact fun found hfound => (hfound.of_leaf hid.1 hkind).symm
  | indexed locked id element content kind models hid hkind helement _ ih =>
    intro found hfound
    rcases hfound.of_indexed hid hkind helement with ⟨inner, hinner, rfl⟩
    rw [ih inner hinner]
  | shaped locked id content base properties hid hkind hroot _ hproperties _ ihbase ih =>
    intro found hfound
    rcases hfound.of_shaped hid hkind with ⟨otherBase, others, hothersroot, hothersbase, hothers, hwrites, rfl⟩
    have hbase : base = otherBase := by
      cases hextended : content.base with
      | none => rw [hroot hextended, hothersroot hextended]
      | some extended => exact ihbase extended hextended otherBase (hothersbase extended hextended)
    have hproperties : properties = others :=
      pairs_unique (fun property => workspace.Writes true property.type)
        (hproperties.trans hothers.symm) ih hwrites
    rw [hbase, hproperties]
  | tuple locked id elements hid _ ih =>
    intro found hfound
    rcases hfound.of_tuple hid with ⟨others, hothers, hwrites, rfl⟩
    rw [pairs_unique _ hothers.symm ih hwrites]
  | union locked id content variants hid hvariants _ ih =>
    intro found hfound
    rcases hfound.of_union hid with ⟨others, hothers, hwrites, rfl⟩
    rw [pairs_unique _ (hvariants.trans hothers.symm) ih hwrites]

end Workspace

end SchemaGuards

import Mathlib.Data.List.Forall2
import SchemaGuards.Expansion.Basic
import SchemaGuards.Proofs.Reachability
import SchemaGuards.Proofs.Traced

/-!
# Graphs that agree but for their places

Two graphs may hold the same schema at different places. A relation between their places says so when
related places hold nodes of one form whose parts are related again. From such places the same
restrictions can be reached.
-/
namespace SchemaGuards

/-- Properties that differ in their types only, which are related. -/
structure Property.Alike {α β : Type} (related : α → β → Prop) (property : Property α) (other : Property β) :
    Prop where
  name_eq : other.name = property.name
  type : related property.type other.type
  optional_eq : other.optional = property.optional
  visibility_eq : other.visibility = property.visibility
  doc_eq : other.doc = property.doc

/-- Nodes that differ in the places of their parts only, which are related. -/
inductive Node.Alike (related : NodeId → NodeId → Prop) : Node → Node → Prop
  | primitive (value : Primitive) : Alike related (.primitive value) (.primitive value)
  | enumeration (content : Enumeration) : Alike related (.enumeration content) (.enumeration content)
  | member (owner owner' : NodeId) (name : String) (howner : related owner owner') :
    Alike related (.member owner name) (.member owner' name)
  | scalar (decl : Decl) (base base' : Option NodeId) (hbase : Option.Rel related base base') :
    Alike related (.scalar ⟨decl, base⟩) (.scalar ⟨decl, base'⟩)
  | model (decl : Decl) (properties properties' : List (Property NodeId)) (base base' : Option NodeId)
    (indexer indexer' : Option NodeId) (hproperties : List.Forall₂ (Property.Alike related) properties properties')
    (hbase : Option.Rel related base base') (hindexer : Option.Rel related indexer indexer') :
    Alike related (.model ⟨decl, properties, base, indexer⟩) (.model ⟨decl, properties', base', indexer'⟩)
  | tuple (elements elements' : List NodeId) (helements : List.Forall₂ related elements elements') :
    Alike related (.tuple elements) (.tuple elements')
  | union (decl : Decl) (variants variants' : List NodeId) (hvariants : List.Forall₂ related variants variants') :
    Alike related (.union ⟨decl, variants⟩) (.union ⟨decl, variants'⟩)
  | unsupported (kind : String) : Alike related (.unsupported kind) (.unsupported kind)

section Options
variable {α β : Type} {related : α → β → Prop} {value : Option α} {other : Option β}

theorem option_rel_flip (h : Option.Rel related value other) : Option.Rel (flip related) other value := by
  cases h with
  | none => exact .none
  | some h => exact .some h

theorem forall₂_toList (h : Option.Rel related value other) : List.Forall₂ related value.toList other.toList := by
  cases h with
  | none => exact .nil
  | some h => exact .cons h .nil

theorem isSome_eq_of_rel (h : Option.Rel related value other) : value.isSome = other.isSome := by
  cases h <;> rfl

end Options

namespace Node
variable {related : NodeId → NodeId → Prop}

theorem Alike.refl (node : Node) : node.Alike Eq node := by
  have hoption : ∀ value : Option NodeId, Option.Rel Eq value value := by
    intro value
    cases value with
    | none => exact .none
    | some id => exact .some rfl
  have hlist : ∀ values : List NodeId, List.Forall₂ Eq values values :=
    fun values => List.forall₂_same.2 (fun _ _ => rfl)
  cases node with
  | primitive value => exact .primitive value
  | enumeration content => exact .enumeration content
  | member owner name => exact .member owner owner name rfl
  | scalar content => exact .scalar content.decl _ _ (hoption _)
  | model content =>
    have hproperties : List.Forall₂ (Property.Alike Eq) content.properties content.properties :=
      List.forall₂_same.2 (fun _ _ => ⟨rfl, rfl, rfl, rfl, rfl⟩)
    exact .model content.decl _ _ _ _ _ _ hproperties (hoption _) (hoption _)
  | tuple elements => exact .tuple _ _ (hlist elements)
  | union content => exact .union content.decl _ _ (hlist content.variants)
  | unsupported kind => exact .unsupported kind

namespace Alike
variable {node other : Node}

theorem symm (h : node.Alike related other) : other.Alike (flip related) node := by
  cases h with
  | primitive value => exact .primitive value
  | enumeration content => exact .enumeration content
  | member owner owner' name howner => exact .member owner' owner name howner
  | scalar decl base base' hbase => exact .scalar decl base' base (option_rel_flip hbase)
  | model decl properties properties' base base' indexer indexer' hproperties hbase hindexer =>
    refine .model decl properties' properties base' base indexer' indexer ?_ (option_rel_flip hbase)
      (option_rel_flip hindexer)
    refine List.Forall₂.flip (hproperties.imp (fun property property' h => ?_))
    exact ⟨h.name_eq.symm, h.type, h.optional_eq.symm, h.visibility_eq.symm, h.doc_eq.symm⟩
  | tuple elements elements' helements => exact .tuple elements' elements helements.flip
  | union decl variants variants' hvariants => exact .union decl variants' variants hvariants.flip
  | unsupported kind => exact .unsupported kind

theorem kind_eq (h : node.Alike related other) : other.kind = node.kind := by
  cases h <;> rfl

theorem decl_eq (h : node.Alike related other) : other.decl? = node.decl? := by
  cases h <;> rfl

theorem identity_eq (h : node.Alike related other) : other.identity? = node.identity? := by
  cases h <;> rfl

theorem doc_eq (h : node.Alike related other) : other.doc? = node.doc? := by
  rw [doc?, doc?, h.decl_eq]

theorem isNever_eq (h : node.Alike related other) : other.isNever = node.isNever := by
  cases h <;> rfl

theorem isRestricted_eq (h : node.Alike related other) : other.isRestricted = node.isRestricted := by
  cases h with
  | model decl properties properties' base base' indexer indexer' hproperties =>
    simp only [isRestricted, Model.isRestricted]
    induction hproperties with
    | nil => rfl
    | cons hfirst _ ih => rw [List.any_cons, List.any_cons, ih, hfirst.visibility_eq]
  | _ => rfl

theorem successors (h : node.Alike related other) : List.Forall₂ related node.successors other.successors := by
  cases h with
  | model decl properties properties' base base' indexer indexer' hproperties hbase hindexer =>
    refine List.rel_append (List.rel_append (forall₂_toList hbase) (forall₂_toList hindexer)) ?_
    exact List.rel_map (fun _ _ hproperty => hproperty.type) hproperties
  | tuple elements elements' helements => exact helements
  | union decl variants variants' hvariants => exact hvariants
  | _ => exact .nil

end Alike
end Node

namespace Graph
variable {graph other : Graph} {related : NodeId → NodeId → Prop}

/-- Related places hold alike nodes, or none. -/
def IsBisimulation (graph other : Graph) (related : NodeId → NodeId → Prop) : Prop :=
  ∀ id id', related id id' → Option.Rel (Node.Alike related) (graph.node? id) (other.node? id')

theorem IsBisimulation.refl (graph : Graph) : graph.IsBisimulation graph Eq := by
  rintro id _ rfl
  generalize graph.node? id = found
  cases found with
  | none => exact .none
  | some node => exact .some (.refl node)

theorem IsBisimulation.symm (h : graph.IsBisimulation other related) :
    other.IsBisimulation graph (flip related) := by
  intro id' id hid
  have hnodes := h id id' hid
  generalize graph.node? id = found at hnodes
  generalize other.node? id' = found' at hnodes
  cases hnodes with
  | none => exact .none
  | some hnode => exact .some hnode.symm

theorem IsBisimulation.node (h : graph.IsBisimulation other related) {id id' : NodeId} (hid : related id id')
    {node : Node} (hnode : graph.node? id = some node) :
    ∃ node', other.node? id' = some node' ∧ node.Alike related node' := by
  have hnodes := h id id' hid
  rw [hnode] at hnodes
  generalize other.node? id' = found at hnodes
  cases hnodes with
  | some halike => exact ⟨_, rfl, halike⟩

theorem IsBisimulation.leads (h : graph.IsBisimulation other related) {id id' : NodeId} (hid : related id id')
    (hleads : graph.LeadsToRestriction id) : other.LeadsToRestriction id' := by
  induction hleads generalizing id' with
  | here id node hnode hrestricted =>
    rcases h.node hid hnode with ⟨node', hnode', halike⟩
    exact .here id' node' hnode' (halike.isRestricted_eq.trans hrestricted)
  | step id next node hnode hnext _ ih =>
    rcases h.node hid hnode with ⟨node', hnode', halike⟩
    rcases (mem_of_forall₂ halike.successors).1 next hnext with ⟨next', hnext', hrelated⟩
    exact .step id' next' node' hnode' hnext' (ih hrelated)

/-- The same restrictions can be reached from related places. -/
theorem IsBisimulation.reaches_eq (h : graph.IsBisimulation other related) {id id' : NodeId}
    (hid : related id id') : other.reachesRestriction id' = graph.reachesRestriction id := by
  rw [Bool.eq_iff_iff, reachesRestriction_iff, reachesRestriction_iff]
  exact ⟨h.symm.leads hid, h.leads hid⟩

end Graph
end SchemaGuards

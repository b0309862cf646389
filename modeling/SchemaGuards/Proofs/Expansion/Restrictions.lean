import SchemaGuards.Proofs.Expansion.Failures
import SchemaGuards.Proofs.Reachability

/-!
# Restrictions and references of an expansion

The search for restrictions goes through all nodes behind a node, while an expansion stops at
registered declarations. Both agree: an expansion holds a restricted property or a generic reference
exactly when a restriction can be reached from its node.
-/
namespace SchemaGuards

namespace Expansion

mutual
def restricts : Expansion → Bool
  | .reference _ generic => generic
  | .derived base => restricts base
  | .indexed _ element => restricts element
  | .model (some base) properties => restricts base || propertiesRestrict properties
  | .model none properties => propertiesRestrict properties
  | .tuple elements => listRestricts elements
  | .union variants => listRestricts variants
  | _ => false
termination_by structural expansion => expansion

def propertiesRestrict : List (Property Expansion) → Bool
  | [] => false
  | ⟨_, type, _, visibility, _⟩ :: rest => visibility.isSome || restricts type || propertiesRestrict rest

def listRestricts : List Expansion → Bool
  | [] => false
  | expansion :: rest => restricts expansion || listRestricts rest
end

mutual
/-- The entries that an expansion refers to, each with its lifecycle; a member refers to its owner. -/
def references : Expansion → List (Entry × Bool)
  | .reference entry generic => [(entry, generic)]
  | .member (some owner) _ _ => [(owner, false)]
  | .derived base => references base
  | .indexed _ element => references element
  | .model (some base) properties => references base ++ propertyReferences properties
  | .model none properties => propertyReferences properties
  | .tuple elements => listReferences elements
  | .union variants => listReferences variants
  | _ => []
termination_by structural expansion => expansion

def propertyReferences : List (Property Expansion) → List (Entry × Bool)
  | [] => []
  | ⟨_, type, _, _, _⟩ :: rest => references type ++ propertyReferences rest

def listReferences : List Expansion → List (Entry × Bool)
  | [] => []
  | expansion :: rest => references expansion ++ listReferences rest
end

theorem listRestricts_eq (expansions : List Expansion) : listRestricts expansions = expansions.any restricts := by
  induction expansions with
  | nil => rfl
  | cons expansion rest ih => rw [listRestricts, List.any_cons, ih]

theorem propertyReferences_eq (properties : List (Property Expansion)) :
    propertyReferences properties = properties.flatMap (fun property => property.type.references) := by
  induction properties with
  | nil => rfl
  | cons property rest ih => rw [propertyReferences, List.flatMap_cons, ih]

theorem listReferences_eq (expansions : List Expansion) :
    listReferences expansions = expansions.flatMap references := by
  induction expansions with
  | nil => rfl
  | cons expansion rest ih => rw [listReferences, List.flatMap_cons, ih]

end Expansion

theorem any_eq_of_forall₂ {α β : Type} {values : List α} {results : List β}
    {first : α → Bool} {second : β → Bool}
    (h : List.Forall₂ (fun value result => second result = first value) values results) :
    results.any second = values.any first := by
  induction h with
  | nil => rfl
  | cons hfirst hrest ih => rw [List.any_cons, List.any_cons, hfirst, ih]

namespace Graph
variable {graph : Graph} {id : NodeId}

theorem reachesRestriction_eq_false {node : Node} (hnode : graph.node? id = some node)
    (hrestricted : node.isRestricted = false) (hnext : node.successors = []) :
    graph.reachesRestriction id = false := by
  rw [reachesRestriction_eq hnode, hrestricted, hnext]
  rfl

theorem reachesRestriction_scalar {content : Scalar} (hnode : graph.node? id = some (.scalar content)) :
    graph.reachesRestriction id = false :=
  reachesRestriction_eq_false hnode rfl rfl

theorem reachesRestriction_enumeration {content : Enumeration}
    (hnode : graph.node? id = some (.enumeration content)) : graph.reachesRestriction id = false :=
  reachesRestriction_eq_false hnode rfl rfl

end Graph

theorem Node.name_of_identity? {node : Node} {identity : Identity} (h : node.identity? = some identity) :
    node.name? = some identity.name := by
  rw [identity?] at h
  split at h
  · next name hname =>
    split at h
    · cases h
    · cases h
      exact hname
  · cases h

namespace Workspace
variable {workspace : Workspace} {mode : Mode} {kinds : List String}

/-- The restrictions of a model's properties are those of their expansions. -/
theorem properties_restrict {properties : List (Property NodeId)} {expanded : List (Property Expansion)}
    (h : List.Forall₂ (ExpandsProperty workspace.graph mode
      (fun part result => result.restricts = workspace.graph.reachesRestriction part)) properties expanded) :
    Expansion.propertiesRestrict expanded =
      (properties.any (fun property => property.visibility.isSome) ||
        (properties.map Property.type).any workspace.graph.reachesRestriction) := by
  induction h with
  | nil => rfl
  | @cons property result properties results hfirst hrest ih =>
    rcases hfirst with ⟨_, _, hvisibility, htype⟩
    have hrestricts : result.type.restricts = workspace.graph.reachesRestriction property.type := by
      rcases htype with hrelated | ⟨_, hnever, hresult⟩
      · exact hrelated
      · rw [hresult, Graph.reachesRestriction_eq_false hnever rfl rfl]
        rfl
    rw [Expansion.propertiesRestrict, ih, hvisibility, hrestricts, List.any_cons, List.map_cons, List.any_cons]
    cases property.visibility.isSome <;> cases workspace.graph.reachesRestriction property.type <;> simp

/-- What an expansion holds is what can be reached. -/
theorem expand_restricts (hlinked : workspace.graph.IsLinked kinds) (hvalid : workspace.graph.validate = .ok ())
    {locked : Bool} {ancestry : List NodeId} {id : NodeId} {expansion : Expansion}
    (h : (workspace.expand mode locked ancestry id).outcome = .ok expansion) :
    expansion.restricts = workspace.graph.reachesRestriction id := by
  refine expand_induct
    (motive := fun _ id expansion => expansion.restricts = workspace.graph.reachesRestriction id) ?_ ?_ h
  · intro id node entry _ _
    rfl
  · intro locked id node expansion hnode _ hyields
    cases hyields with
    | primitive value => exact (Graph.reachesRestriction_eq_false hnode rfl rfl).symm
    | enumeration content => exact (Graph.reachesRestriction_enumeration hnode).symm
    | member owner name content index _ _ => exact (Graph.reachesRestriction_eq_false hnode rfl rfl).symm
    | mapped content text _ => exact (Graph.reachesRestriction_scalar hnode).symm
    | terminal content type _ _ _ => exact (Graph.reachesRestriction_scalar hnode).symm
    | unresolved content _ _ _ => exact (Graph.reachesRestriction_scalar hnode).symm
    | derived content base expanded _ hbase hexpanded =>
      rcases (hlinked.fits id _ hnode).supported base (Scalar.base_of_deferredTo? hbase) with ⟨extended, hextended⟩
      rw [Graph.reachesRestriction_scalar hnode, Expansion.restricts, hexpanded.2,
        Graph.reachesRestriction_scalar hextended]
    | indexed content kind element expanded hkind helement hexpanded =>
      rcases hlinked.eq_ofElement hvalid hnode hkind with ⟨other, rfl⟩
      cases helement
      rw [Expansion.restricts, hexpanded.2, Graph.reachesRestriction_eq hnode]
      simp [Node.isRestricted, Model.isRestricted, Node.successors, Model.mentioned, Model.ofElement]
    | model content base properties hkind hbase hproperties =>
      have hindexer := hlinked.indexer_eq_none hnode hkind
      have hrestrict := properties_restrict (hproperties.imp (fun property expanded hpair =>
        ⟨hpair.1, hpair.2.1, hpair.2.2.1, hpair.2.2.2.imp_left And.right⟩))
      rw [Graph.reachesRestriction_eq hnode]
      simp only [Node.isRestricted, Model.isRestricted, Node.successors, Model.mentioned, hindexer,
        Option.toList_none, List.append_nil, List.any_append]
      cases hbase' : content.base with
      | none =>
        rw [hbase'] at hbase
        cases hbase
        rw [Expansion.restricts, hrestrict]
        rfl
      | some part =>
        rw [hbase'] at hbase
        cases hbase with
        | some hexpanded =>
          rw [Expansion.restricts, hrestrict, hexpanded.2]
          simp only [Option.toList_some, List.any_cons, List.any_nil, Bool.or_false]
          cases workspace.graph.reachesRestriction part <;> simp
    | tuple parts elements helements =>
      rw [Graph.reachesRestriction_eq hnode, Expansion.restricts, Expansion.listRestricts_eq]
      rw [any_eq_of_forall₂ (helements.imp (fun _ _ hpair => hpair.2))]
      rfl
    | union content variants hvariants =>
      rw [Graph.reachesRestriction_eq hnode, Expansion.restricts, Expansion.listRestricts_eq]
      rw [any_eq_of_forall₂ (hvariants.imp (fun _ _ hpair => hpair.2))]
      rfl

theorem registered?_some {node : Node} {entry : Entry} (h : workspace.registered? node = some entry) :
    entry ∈ workspace.registry ∧ node.identity? = some entry.identity := by
  rcases Option.bind_eq_some_iff.1 h with ⟨identity, hidentity, hfind⟩
  rcases Registry.find?_some hfind with ⟨hmem, heq⟩
  exact ⟨hmem, heq ▸ hidentity⟩

/-- A node that is referred to by an entry reaches a restriction exactly when the entry's own does. -/
theorem IsSound.reachesRestriction_entry (hsound : workspace.IsSound kinds) {id : NodeId} {node : Node}
    {entry : Entry} (hnode : workspace.graph.node? id = some node)
    (hentry : workspace.registered? node = some entry) :
    workspace.graph.reachesRestriction id = workspace.graph.reachesRestriction entry.node := by
  rcases registered?_some hentry with ⟨hmem, hidentity⟩
  rcases hsound.lists.sound entry hmem with ⟨hdeclared, other, hother, hidentity', _⟩
  by_cases hid : id ∈ workspace.graph.declarations
  · rw [hsound.linked.eq_of_identity hid hdeclared hnode hother hidentity hidentity']
  · have hkind : other.kind = node.kind := by
      rw [← Node.kind_of_identity? hidentity, ← Node.kind_of_identity? hidentity']
    rcases (hsound.linked.fits id node hnode).builtin hid (by simp [hidentity]) with hscalar | hindexed
    · rcases Node.exists_scalar_of_kind hscalar with ⟨content, rfl⟩
      rcases Node.exists_scalar_of_kind (hkind.trans hscalar) with ⟨content', rfl⟩
      rw [Graph.reachesRestriction_scalar hnode, Graph.reachesRestriction_scalar hother]
    · -- No declaration has the name of an indexed model.
      cases node with
      | model content =>
        rcases Node.exists_model_of_kind (hkind.trans rfl) with ⟨content', rfl⟩
        have hname : content.decl.name = content'.decl.name := by
          have hfirst := Node.name_of_identity? hidentity
          have hsecond := Node.name_of_identity? hidentity'
          exact hfirst.trans hsecond.symm
        have hnone := hsound.linked.indexed?_of_declared hsound.valid hdeclared hother
        rw [Model.indexed?, ← hname] at hnone
        rw [Node.isIndexed, Model.indexed?, hnone] at hindexed
        cases hindexed
      | _ => cases hindexed

/-- What a sound workspace is referred to by: registered entries, each with the lifecycle of its own node. -/
def Refers (workspace : Workspace) (reference : Entry × Bool) : Prop :=
  reference.1 ∈ workspace.registry ∧ reference.2 = workspace.graph.reachesRestriction reference.1.node

theorem forall_flatMap_of_forall₂ {α β γ : Type} {values : List α} {results : List β} {parts : β → List γ}
    {property : γ → Prop}
    (h : List.Forall₂ (fun _ result => ∀ part ∈ parts result, property part) values results) :
    ∀ part ∈ results.flatMap parts, property part := by
  induction h with
  | nil => simp
  | cons hfirst hrest ih =>
    intro part hpart
    rw [List.flatMap_cons, List.mem_append] at hpart
    rcases hpart with hpart | hpart
    · exact hfirst part hpart
    · exact ih part hpart

theorem expand_refers (hsound : workspace.IsSound kinds) {locked : Bool} {ancestry : List NodeId} {id : NodeId}
    {expansion : Expansion} (h : (workspace.expand mode locked ancestry id).outcome = .ok expansion) :
    ∀ reference ∈ expansion.references, workspace.Refers reference := by
  refine expand_induct
    (motive := fun _ _ expansion => ∀ reference ∈ expansion.references, workspace.Refers reference) ?_ ?_ h
  · intro id node entry hnode hentry reference hreference
    cases List.mem_singleton.1 hreference
    exact ⟨(registered?_some hentry).1, hsound.reachesRestriction_entry hnode hentry⟩
  · intro locked id node expansion hnode _ hyields
    cases hyields with
    | primitive | enumeration | mapped | terminal | unresolved => simp [Expansion.references]
    | member owner name content index howner _ =>
      cases hentry : workspace.registered? (.enumeration content) with
      | none => simp [Expansion.references]
      | some entry =>
        intro reference hreference
        cases List.mem_singleton.1 hreference
        refine ⟨(registered?_some hentry).1, ?_⟩
        rw [← hsound.reachesRestriction_entry howner hentry, Graph.reachesRestriction_enumeration howner]
    | derived content base expanded _ _ hexpanded => exact hexpanded.2
    | indexed content kind element expanded _ _ hexpanded => exact hexpanded.2
    | model content base properties _ hbase hproperties =>
      have hparts : ∀ reference ∈ Expansion.propertyReferences properties, workspace.Refers reference := by
        rw [Expansion.propertyReferences_eq]
        refine forall_flatMap_of_forall₂ (hproperties.imp ?_)
        rintro property expanded ⟨_, _, _, hrelated | ⟨_, _, hnever⟩⟩
        · exact hrelated.2
        · rw [hnever]
          simp [Expansion.references]
      generalize content.base = found at hbase
      cases hbase with
      | none => exact hparts
      | some hexpanded =>
        intro reference hreference
        rw [Expansion.references, List.mem_append] at hreference
        rcases hreference with hreference | hreference
        · exact hexpanded.2 reference hreference
        · exact hparts reference hreference
    | tuple parts elements helements =>
      rw [Expansion.references, Expansion.listReferences_eq]
      exact forall_flatMap_of_forall₂ (helements.imp (fun _ _ hpair => hpair.2))
    | union content variants hvariants =>
      rw [Expansion.references, Expansion.listReferences_eq]
      exact forall_flatMap_of_forall₂ (hvariants.imp (fun _ _ hpair => hpair.2))

theorem Refers.not_generic (hsound : workspace.IsSound kinds) {reference : Entry × Bool}
    (h : workspace.Refers reference) (hkind : reference.1.identity.kind = .enumeration) :
    reference.2 = false := by
  rcases hsound.lists.sound _ h.1 with ⟨_, node, hnode, hidentity, _⟩
  rw [Node.kind_of_identity? hidentity] at hkind
  cases node with
  | enumeration content => rw [h.2, Graph.reachesRestriction_enumeration hnode]
  | _ => cases hkind

end Workspace
end SchemaGuards

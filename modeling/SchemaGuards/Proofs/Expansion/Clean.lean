import SchemaGuards.Proofs.Expansion.Failures
import SchemaGuards.Proofs.Expansion.Modes
import SchemaGuards.Proofs.Expansion.Restrictions
import SchemaGuards.Proofs.Linking.Numerals

/-!
# What expansions hold bare

Texts and names of properties and members are quoted where code needs it. Three things are written bare: the names of
declarations, numbers, and the texts of mapped scalars. A clean expansion has names that are known to be good, only
decimal numbers, and no mapped scalars.
-/
namespace SchemaGuards

def Identity.IsNamed (isName : String → Prop) (identity : Identity) : Prop :=
  isName identity.name ∧ ∀ segment ∈ identity.scope, isName segment

inductive IsMemberLiteral : String → Prop
  | quoted (value : String) : IsMemberLiteral (Text.quote value)
  | number (text : String) (h : Decimal.isFiniteLiteral text.toList = true) : IsMemberLiteral text
  | counted (number : Decimal.Binary64) : IsMemberLiteral number.text

theorem Member.initializer?_isLiteral {member : Member} (hnumeric : member.IsNumeric) {nominal : Bool} {text : String}
    (h : member.initializer? nominal = some text) : IsMemberLiteral text := by
  rw [initializer?] at h
  split at h
  · cases h
    exact .quoted _
  · next hvalue =>
    split at h
    · cases h
      exact .quoted _
    · cases h
      exact .number text (hnumeric text hvalue)
  · split at h
    · cases h
      exact .quoted _
    · cases h

theorem Enumeration.literal_isLiteral {content : Enumeration} (hnumeric : ∀ member ∈ content.members, member.IsNumeric)
    (nominal : Bool) (index : Nat) : IsMemberLiteral (content.literal nominal index) := by
  rw [literal]
  split
  · next text htext =>
    rcases Option.bind_eq_some_iff.1 htext with ⟨member, hmember, htext⟩
    exact Member.initializer?_isLiteral (hnumeric member (List.mem_of_getElem? hmember)) htext
  · exact .counted _

namespace Expansion

mutual
/-- Every reference has good names, every number is a decimal literal, and no scalar has a text of its own. -/
def IsClean (isName : String → Prop) : Expansion → Prop
  | .reference entry _ => entry.identity.IsNamed isName
  | .primitive value => value.IsNumeric
  | .enumeration members => ∀ member ∈ members, member.IsNumeric
  | .member owner _ literal => (∀ entry ∈ owner, entry.identity.IsNamed isName) ∧ IsMemberLiteral literal
  | .mapped _ => False
  | .terminal _ => True
  | .unresolved => True
  | .derived base => IsClean isName base
  | .indexed _ element => IsClean isName element
  | .model (some base) properties => IsClean isName base ∧ PropertiesClean isName properties
  | .model none properties => PropertiesClean isName properties
  | .tuple elements => AreClean isName elements
  | .union variants => AreClean isName variants
termination_by structural expansion => expansion

def PropertiesClean (isName : String → Prop) : List (Property Expansion) → Prop
  | [] => True
  | ⟨_, type, _, _, _⟩ :: rest => IsClean isName type ∧ PropertiesClean isName rest

def AreClean (isName : String → Prop) : List Expansion → Prop
  | [] => True
  | expansion :: rest => IsClean isName expansion ∧ AreClean isName rest
end

variable {isName : String → Prop}

theorem propertiesClean_iff (properties : List (Property Expansion)) :
    PropertiesClean isName properties ↔ ∀ property ∈ properties, property.type.IsClean isName := by
  induction properties with
  | nil => simp [PropertiesClean]
  | cons property rest ih => rw [PropertiesClean, List.forall_mem_cons, ih]

theorem areClean_iff (expansions : List Expansion) :
    AreClean isName expansions ↔ ∀ expansion ∈ expansions, expansion.IsClean isName := by
  induction expansions with
  | nil => simp [AreClean]
  | cons expansion rest ih => rw [AreClean, List.forall_mem_cons, ih]

end Expansion

/-- Good names for all declarations and for the namespaces they are in. -/
def Graph.DeclaresOnly (graph : Graph) (isName : String → Prop) : Prop :=
  ∀ id ∈ graph.declarations, ∀ node, graph.node? id = some node →
    (∀ name, node.name? = some name → isName name) ∧ ∀ segment ∈ node.scope, isName segment

namespace Workspace
variable {workspace : Workspace} {isName : String → Prop} {mode : Mode}

structure IsClean (workspace : Workspace) (isName : String → Prop) : Prop where
  unmapped : workspace.IsUnmapped
  made : workspace.graph.IsMade
  named : ∀ entry ∈ workspace.registry, entry.identity.IsNamed isName

theorem IsClean.registered? (h : workspace.IsClean isName) {node : Node} {entry : Entry}
    (hentry : workspace.registered? node = some entry) : entry.identity.IsNamed isName := by
  rcases Option.bind_eq_some_iff.1 hentry with ⟨identity, _, hfound⟩
  exact h.named entry (List.mem_of_find?_eq_some hfound)

/-- An expansion of a clean workspace is clean, by induction on its steps. -/
theorem IsClean.expand (h : workspace.IsClean isName) {locked : Bool} {ancestry : List NodeId} {id : NodeId}
    {expansion : Expansion} (hexpansion : (workspace.expand mode locked ancestry id).outcome = .ok expansion) :
    expansion.IsClean isName := by
  refine expand_induct (motive := fun _ _ expansion => expansion.IsClean isName) ?_ ?_ hexpansion
  · exact fun id node entry _ hentry => h.registered? hentry
  · intro locked id node expansion hnode _ hyields
    have hmade := h.made id node hnode
    cases hyields with
    | primitive | enumeration => exact hmade
    | member owner name content index howner _ =>
      refine ⟨fun entry hentry => h.registered? hentry, ?_⟩
      exact Enumeration.literal_isLiteral (h.made owner _ howner) _ index
    | mapped content text htext => cases (h.unmapped mode content).symm.trans htext
    | terminal | unresolved => trivial
    | derived content base expanded _ _ hexpanded => exact hexpanded.2
    | indexed content kind element expanded _ _ hexpanded => exact hexpanded.2
    | model content base properties _ hbase hproperties =>
      have hparts : Expansion.PropertiesClean isName properties := by
        refine (Expansion.propertiesClean_iff properties).2 (fun expanded hmem => ?_)
        obtain ⟨_, _, _, _, _, hrelated | ⟨_, _, hnever⟩⟩ := (mem_of_forall₂ hproperties).2 expanded hmem
        · exact hrelated.2
        · rw [hnever]
          trivial
      generalize content.base = found at hbase
      cases hbase with
      | none => exact hparts
      | some hexpanded => exact ⟨hexpanded.2, hparts⟩
    | tuple parts elements helements =>
      refine (Expansion.areClean_iff elements).2 (fun element hmem => ?_)
      obtain ⟨_, _, helement⟩ := (mem_of_forall₂ helements).2 element hmem
      exact helement.2
    | union content variants hvariants =>
      refine (Expansion.areClean_iff variants).2 (fun variant hmem => ?_)
      obtain ⟨_, _, hvariant⟩ := (mem_of_forall₂ hvariants).2 variant hmem
      exact hvariant.2

/-- The workspace of a document that declares good names only, as long as no scalar is mapped. -/
theorem isClean_of_text {text : String} {graph : Graph} {registry : Registry} {config : Config}
    (hgraph : Graph.ofText text = .ok graph) (hregistry : Registry.ofGraph graph = .ok registry)
    (hnames : graph.DeclaresOnly isName) (htypes : config.typeMappings = []) (hguards : config.guardMappings = []) :
    IsClean ⟨graph, registry, config⟩ isName := by
  rcases Graph.ofText_isLinked hgraph with ⟨kinds, hlinked, _⟩
  refine ⟨isUnmapped_of_config htypes hguards, Graph.ofText_isMade hgraph, fun entry hentry => ?_⟩
  rcases (hlinked.lists hregistry).sound entry hentry with ⟨hdeclared, node, hnode, hidentity, _⟩
  rcases hnames entry.node hdeclared node hnode with ⟨hname, hscope⟩
  refine ⟨hname _ (Node.name_of_identity? hidentity), ?_⟩
  rw [(Node.scope_of_identity? hidentity).1]
  exact hscope

end Workspace
end SchemaGuards

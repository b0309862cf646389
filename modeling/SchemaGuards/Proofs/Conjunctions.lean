import SchemaGuards.Proofs.Brackets.Conjuncts
import SchemaGuards.Proofs.Brackets.Resolutions
import SchemaGuards.Proofs.Order.Alike

/-!
# Guards of models are conjunctions

The guard of a model with two or more clauses is the conjunction of them: no clause is split by a disjunction, at any
place where guards are written. The clauses are the guard of the base and, for every property, what is made of the
guard of its type; only that of an optional property gets parentheses.
-/
namespace SchemaGuards
open Text

namespace Guard
open Layout

theorem layouts_eq_map (guards : List Guard) : layouts guards = guards.map layout := by
  induction guards with
  | nil => rfl
  | cons guard rest ih => rw [layouts, List.map_cons, ih]

theorem length_layouts (guards : List Guard) : (layouts guards).length = guards.length := by
  rw [layouts_eq_map, List.length_map]

theorem layout_clause_congr {owner other : Accessor} (howner : owner.text = other.text) {content given : Guard}
    (hcontent : content.layout = given.layout) (name : String) (optional : Bool) (visibility : Option LifecycleSet)
    (presence : Presence) :
    (clause owner name optional visibility presence content).layout =
      (clause other name optional visibility presence given).layout := by
  have hproperty : (Accessor.property owner name).text = (Accessor.property other name).text := by
    rw [Accessor.text, howner, Accessor.text]
  unfold clause
  cases visibility <;> cases presence <;> simp only [layout, howner, hcontent, hproperty]

mutual
theorem layout_congr (target : Option Scope) {value other : Accessor} (h : value.text = other.text)
    (expansion : Expansion) :
    (ofExpansion target value expansion).layout = (ofExpansion target other expansion).layout := by
  cases expansion with
  | reference entry generic =>
    rw [ofExpansion, ofExpansion, ofReference, ofReference]
    split
    · rfl
    · rw [layout, layout, h]
  | primitive literal =>
    cases literal with
    | intrinsic intrinsic => cases intrinsic <;> simp [ofExpansion, ofPrimitive, layout, h]
    | _ => simp [ofExpansion, ofPrimitive, layout, h]
  | enumeration | member | unresolved => rfl
  | mapped text => rw [ofExpansion, ofExpansion, h]
  | terminal type => rw [ofExpansion, ofExpansion, layout, layout, typeTest, typeTest, h]
  | derived base => exact layout_congr target h base
  | indexed kind element =>
    have hlead : everyLead value kind = everyLead other kind := by
      unfold everyLead
      rw [h]
    rw [ofExpansion, ofExpansion, layout, layout, hlead]
  | model base properties =>
    cases base with
    | none =>
      rw [ofExpansion, ofExpansion, layout, layout, clauses_congr target h properties]
    | some base =>
      have hbase : (Accessor.untyped value).text = (Accessor.untyped other).text := by simp only [Accessor.text, h]
      rw [ofExpansion, ofExpansion, layout, layout, layouts, layouts, layout_congr target h base,
        clauses_congr target hbase properties]
  | tuple elements =>
    have hpositions := positions_congr target h 0 elements
    have hlength := congrArg List.length hpositions
    rw [length_layouts, length_layouts] at hlength
    rw [ofExpansion, ofExpansion, layout, layout, hpositions, hlength, h]
  | union variants =>
    have hvariants := variants_congr target h variants
    have hlength := congrArg List.length hvariants
    rw [length_layouts, length_layouts] at hlength
    have hempty : (variantsOf target value variants).isEmpty = (variantsOf target other variants).isEmpty := by
      rw [Bool.eq_iff_iff, List.isEmpty_iff_length_eq_zero, List.isEmpty_iff_length_eq_zero, hlength]
    rw [ofExpansion, ofExpansion, layout, layout, hvariants, hempty]
termination_by structural expansion

theorem clauses_congr (target : Option Scope) {owner other : Accessor} (h : owner.text = other.text)
    (properties : List (Property Expansion)) :
    layouts (clausesOf target owner properties) = layouts (clausesOf target other properties) := by
  cases properties with
  | nil => rfl
  | cons property rest =>
    rcases property with ⟨name, type, optional, visibility, doc⟩
    have hproperty : (Accessor.property owner name).text = (Accessor.property other name).text := by
      rw [Accessor.text, h, Accessor.text]
    rw [clausesOf, clausesOf, layouts, layouts, clauses_congr target h rest,
      layout_clause_congr h (layout_congr target hproperty type)]

theorem positions_congr (target : Option Scope) {value other : Accessor} (h : value.text = other.text) (index : Nat)
    (elements : List Expansion) :
    layouts (positionsOf target value index elements) = layouts (positionsOf target other index elements) := by
  cases elements with
  | nil => rfl
  | cons element rest =>
    have hposition : (Accessor.position value index).text = (Accessor.position other index).text := by
      simp only [Accessor.text, h]
    rw [positionsOf, positionsOf, layouts, layouts, layout_congr target hposition element,
      positions_congr target h (index + 1) rest]

theorem variants_congr (target : Option Scope) {value other : Accessor} (h : value.text = other.text)
    (variants : List Expansion) :
    layouts (variantsOf target value variants) = layouts (variantsOf target other variants) := by
  cases variants with
  | nil => rfl
  | cons variant rest =>
    rw [variantsOf, variantsOf, layouts, layouts, layout_congr target h variant, variants_congr target h rest]
end

theorem flat_clause (owner : Accessor) (name : String) (optional : Bool) (visibility : Option LifecycleSet)
    (presence : Presence) (content : Guard) :
    flat (clause owner name optional visibility presence content).layout =
      flat (clause (.named owner.text) name optional visibility presence (.custom (flat content.layout))).layout := by
  unfold clause
  cases visibility <;> cases presence <;> simp only [layout, flat_wrapped, flat_text, Accessor.text]

theorem clausesOf_eq_map (target : Option Scope) (owner : Accessor) (properties : List (Property Expansion)) :
    clausesOf target owner properties = properties.map (fun property =>
      clause owner property.name property.optional property.visibility (Presence.ofExpansion property.type)
        (ofExpansion target (.property owner property.name) property.type)) := by
  induction properties with
  | nil => rfl
  | cons property rest ih => rw [clausesOf, List.map_cons, ih]

def part (clause : String) : String := if hasTopLevelOr clause then "(" ++ clause ++ ")" else clause

theorem isPart_part {clause : String} (h : IsBalanced clause) {needed : Prop} (hneeded : HasOuterOr clause ↔ needed) :
    IsPart needed clause (part clause) := by
  have hor := hasTopLevelOr_iff h
  unfold part
  split
  · next hscan => exact .parenthesized (hneeded.1 (hor.1 hscan))
  · next hscan => exact .bare (fun hholds => hscan (hor.2 (hneeded.2 hholds)))

theorem isConjunct_part {clause : String} (h : IsBalanced clause) : IsConjunct (part clause) :=
  (isPart_part h Iff.rfl).isConjunct h

theorem flat_conjunction {clauses : List Layout} (h : 2 ≤ clauses.length) :
    flat (conjunction clauses) = String.intercalate " && " (clauses.map (fun clause => part (flat clause))) := by
  have hsign : " &&" ++ " " = " && " := by decide
  unfold conjunction
  split
  · simp at h
  · simp at h
  · rw [flat_join, hsign, List.map_map]
    congr 1
    refine List.map_congr_left (fun clause _ => ?_)
    simp only [Function.comp_apply, part]
    split
    · rw [flat_wrapped]
    · rfl

section Model
variable (target : Option Scope)

def basePart (value : Accessor) (base : Expansion) : String := part (flat (ofExpansion target value base).layout)

def propertyPart (owner : Accessor) (property : Property Expansion) : String :=
  part (flat (clause owner property.name property.optional property.visibility (Presence.ofExpansion property.type)
    (ofExpansion target (.property owner property.name) property.type)).layout)

/-- What the properties of a model belong to: with a base, to the value without its declared type. -/
def ownerOf (value : Accessor) (base : Option Expansion) : Accessor := if base.isSome then .untyped value else value

theorem map_part_clausesOf (owner : Accessor) (properties : List (Property Expansion)) :
    (layouts (clausesOf target owner properties)).map (fun clause => part (flat clause)) =
      properties.map (propertyPart target owner) := by
  rw [layouts_eq_map, clausesOf_eq_map, List.map_map, List.map_map]
  rfl

theorem flat_model (value : Accessor) (base : Option Expansion) (properties : List (Property Expansion))
    (h : 2 ≤ base.toList.length + properties.length) :
    flat (ofExpansion target value (.model base properties)).layout = String.intercalate " && "
      (base.toList.map (basePart target value) ++ properties.map (propertyPart target (ownerOf value base))) := by
  have hlength : ∀ owner, (layouts (clausesOf target owner properties)).length = properties.length := by
    intro owner
    rw [length_layouts, clausesOf_eq_map, List.length_map]
  cases base with
  | none =>
    rw [ofExpansion, layout, flat_conjunction (by simpa [hlength] using h), map_part_clausesOf]
    rfl
  | some base =>
    rw [ofExpansion, layout, layouts, flat_conjunction (by simpa [hlength, Nat.add_comm] using h), List.map_cons,
      map_part_clausesOf]
    rfl

variable {value : Accessor} (hvalue : IsConjunct value.text) (base : Option Expansion)
include hvalue

theorem isConjunct_ownerOf : IsConjunct (ownerOf value base).text := by
  unfold ownerOf
  split
  · exact Accessor.isConjunct_untyped hvalue.balanced
  · exact hvalue

theorem isConjunct_parts {properties : List (Property Expansion)}
    (h : (Expansion.model base properties).IsClean IsIdentifier) :
    ∀ written ∈ base.toList.map (basePart target value) ++ properties.map (propertyPart target (ownerOf value base)),
      IsConjunct written := by
  have hproperties : ∀ owner : Accessor, IsBalanced owner.text → Expansion.PropertiesClean IsIdentifier properties →
      ∀ written ∈ properties.map (propertyPart target owner), IsConjunct written := by
    intro owner howner hclean
    rw [← map_part_clausesOf, List.forall_mem_map]
    exact fun clause hclause =>
      isConjunct_part (isBalanced_clausesOf target owner howner properties hclean clause hclause)
  have howner := (isConjunct_ownerOf hvalue base).balanced
  cases base with
  | none => exact hproperties _ howner h
  | some base =>
    refine List.forall_mem_cons.2 ⟨?_, hproperties _ howner h.2⟩
    exact isConjunct_part (isBalanced_ofExpansion target value hvalue.balanced base h.1)

end Model
end Guard

/-- How the properties of a model are reached: those of a model with a base are not declared on the base's type. -/
def Model.ownerText (content : Model) (accessor : String) : String :=
  if content.base.isSome then "(" ++ accessor ++ " as any)" else accessor

namespace Workspace
variable {workspace : Workspace}

/-- The expansion of a node that is written in full has the form of the node, made from the expansions inside of it. -/
theorem expand_yields {mode : Mode} {locked : Bool} {ancestry : List NodeId} {id : NodeId} {node : Node}
    {expansion : Expansion} (hid : workspace.IsExpanded locked id node)
    (h : (workspace.expand mode locked ancestry id).outcome = .ok expansion) :
    Yields workspace mode (fun inner result => (workspace.expand mode true (id :: ancestry) inner).outcome = .ok result)
      node expansion :=
  expandNode_ok (expandNode_of_expand hid h)

theorem resolve_of_expand {mode : Mode} {id : NodeId} (context : Context) {expansion : Expansion}
    (h : (workspace.expand mode context.locked context.ancestry id).outcome = .ok expansion) :
    (workspace.resolve mode id context).outcome = .ok (workspace.write mode id context expansion) := by
  rw [resolve, Traced.bind_ok h]
  rfl

/-- Whether the type of a property says by itself whether the property may be absent. -/
def presence (workspace : Workspace) (id : NodeId) : Guard.Presence :=
  match workspace.graph.node? id with
  | some (.primitive (.intrinsic .never)) => .forbidden
  | some (.primitive (.intrinsic .unknown)) | some (.primitive (.intrinsic .void)) => .free
  | _ => .tested

theorem presence_ofExpansion {locked : Bool} {ancestry : List NodeId} {id : NodeId} {expansion : Expansion}
    (h : (workspace.expand .guard locked ancestry id).outcome = .ok expansion) :
    Guard.Presence.ofExpansion expansion = workspace.presence id := by
  refine expand_induct (motive := fun _ id expansion =>
    Guard.Presence.ofExpansion expansion = workspace.presence id) ?_ ?_ h
  · intro id node entry hnode hentry
    rw [presence, hnode]
    cases node with
    | primitive value => cases hentry
    | _ => rfl
  · intro locked id node expansion hnode _ hyields
    rw [presence, hnode]
    cases hyields with
    | primitive value =>
      cases value with
      | intrinsic intrinsic => cases intrinsic <;> rfl
      | _ => rfl
    | _ => rfl

/-- The places where guards are written: a node on its own, and below it the nodes that it is written with, each in
its context. -/
inductive Places (workspace : Workspace) : NodeId → Context → Prop
  | ofScope (id : NodeId) (scope : Scope) : Places workspace id (.ofScope scope)
  | detached (id : NodeId) : Places workspace id .detached
  | derived {id base : NodeId} {context : Context} {content : Scalar} (h : Places workspace id context)
    (hnode : workspace.graph.node? id = some (.scalar content)) (hbase : content.deferredTo? = some base) :
    Places workspace base (context.enterFlat id)
  | variant {id variant : NodeId} {context : Context} {content : Union} (h : Places workspace id context)
    (hnode : workspace.graph.node? id = some (.union content)) (hvariant : variant ∈ content.variants) :
    Places workspace variant (context.enterFlat id)
  | position {id element index : NodeId} {context : Context} {elements : List NodeId} (h : Places workspace id context)
    (hnode : workspace.graph.node? id = some (.tuple elements)) (helement : elements[index]? = some element) :
    Places workspace element ((context.enter id).withAccessor (context.accessor ++ "[" ++ toString index ++ "]"))
  | element {id element : NodeId} {context : Context} {content : Model} {kind : Indexed}
    (h : Places workspace id context) (hnode : workspace.graph.node? id = some (.model content))
    (hkind : content.indexed? = some kind) (helement : content.indexer = some element) :
    Places workspace element ((context.enter id).withAccessor (Accessor.element kind).text)
  | base {id base : NodeId} {context : Context} {content : Model} (h : Places workspace id context)
    (hnode : workspace.graph.node? id = some (.model content)) (hkind : content.indexed? = none)
    (hbase : content.base = some base) : Places workspace base (context.enter id)
  | property {id : NodeId} {context : Context} {content : Model} {property : Property NodeId}
    (h : Places workspace id context) (hnode : workspace.graph.node? id = some (.model content))
    (hkind : content.indexed? = none) (hproperty : property ∈ content.properties) :
    Places workspace property.type
      ((context.enter id).withAccessor (indexAccess (content.ownerText context.accessor) property.name))

theorem isConjunct_ownerText (content : Model) {accessor : String} (h : IsConjunct accessor) :
    IsConjunct (content.ownerText accessor) := by
  unfold Model.ownerText
  split
  · have hnamed : IsBalanced (Accessor.named accessor).text := h.balanced
    exact Accessor.isConjunct_untyped hnamed
  · exact h

/-- The value at every place where guards are written is reached by a text that needs no parentheses. -/
theorem Places.isConjunct {id : NodeId} {context : Context} (h : workspace.Places id context) :
    IsConjunct context.accessor := by
  induction h with
  | ofScope | detached =>
    have hbar : '|' ∉ "t".toList := by decide
    exact isConjunct_of_not_mem (by decide : IsBalanced "t") hbar
  | derived _ _ _ ih | variant _ _ _ ih | base _ _ _ _ ih => exact ih
  | @position _ _ index _ _ _ _ _ ih => exact ih.index (isBalanced_nat index)
  | @element _ _ _ _ kind =>
    have hbar : '|' ∉ (Accessor.element kind).text.toList := by cases kind <;> decide
    exact isConjunct_of_not_mem (Accessor.isBalanced_element kind) hbar
  | @property _ _ content property _ _ _ _ ih =>
    exact (isConjunct_ownerText content ih).index (isBalanced_quote property.name)

/-- The part of a base in a conjunction: the guard of the base over the same value. -/
def IsBasePart (workspace : Workspace) (inner : Context) (base : NodeId) (part : String) : Prop :=
  ∃ resolution, (workspace.resolve .guard base inner).outcome = .ok resolution ∧
    IsPart (HasOuterOr (Layout.flat resolution.text)) (Layout.flat resolution.text) part

/-- The clause of a property, made of the guard of its type over the value of the property. A property that has to be
absent has no such guard. -/
def IsPropertyClause (workspace : Workspace) (owner : String) (inner : Context) (property : Property NodeId)
    (clause : String) : Prop :=
  ∃ guard,
    (workspace.presence property.type ≠ .forbidden → ∃ resolution,
      (workspace.resolve .guard property.type (inner.withAccessor (indexAccess owner property.name))).outcome =
        .ok resolution ∧ guard = Layout.flat resolution.text) ∧
    clause = Layout.flat (Guard.clause (.named owner) property.name property.optional property.visibility
      (workspace.presence property.type) (.custom guard)).layout

/-- The part of a property in a conjunction: its clause, in parentheses when the property is optional and neither
restricted nor of a type that says itself whether the property may be absent. -/
def IsPropertyPart (workspace : Workspace) (owner : String) (inner : Context) (property : Property NodeId)
    (part : String) : Prop :=
  ∃ clause, workspace.IsPropertyClause owner inner property clause ∧
    IsPart (property.optional = true ∧ property.visibility = none ∧ workspace.presence property.type = .tested)
      clause part

theorem not_hasOuterOr_free {target : Option Scope} {value : Accessor} (hvalue : IsConjunct value.text)
    {expansion : Expansion} (h : Guard.Presence.ofExpansion expansion = .free) :
    ¬ HasOuterOr (Layout.flat (Guard.ofExpansion target value expansion).layout) := by
  unfold Guard.Presence.ofExpansion at h
  split at h
  · cases h
  · exact not_hasBars_of_not_mem (by decide : '|' ∉ "true".toList)
  · have hconjunct : IsConjunct (value.text ++ " === undefined") := hvalue.append (by decide) (by decide)
    rw [Guard.ofExpansion, Guard.ofPrimitive, Guard.layout, Layout.flat_text]
    exact hconjunct.outer
  · cases h

section Clean
variable (hclean : workspace.IsClean IsIdentifier) {id : NodeId} {context : Context}
include hclean

theorem IsClean.base_part (hvalue : IsBalanced (Accessor.named context.accessor).text) {base : NodeId}
    {expansion : Expansion}
    (h : (workspace.expand .guard true (id :: context.ancestry) base).outcome = .ok expansion) :
    workspace.IsBasePart (context.enter id) base
      (Guard.basePart context.target (.named context.accessor) expansion) := by
  have hguard := Guard.isBalanced_ofExpansion context.target _ hvalue expansion (hclean.expand h)
  exact ⟨_, resolve_of_expand (context.enter id) h, Guard.isPart_part hguard Iff.rfl⟩

theorem IsClean.property_part (owner : Accessor) (howner : IsConjunct owner.text) {property : Property NodeId}
    {expanded : Property Expansion}
    (h : ExpandsProperty workspace.graph .guard
      (fun inner result => (workspace.expand .guard true (id :: context.ancestry) inner).outcome = .ok result)
      property expanded) :
    workspace.IsPropertyPart owner.text (context.enter id) property
      (Guard.propertyPart context.target owner expanded) := by
  rcases property with ⟨_, node, _, _, _⟩
  rcases expanded with ⟨name, type, optional, visibility, _⟩
  rcases h with ⟨rfl, rfl, rfl, htype⟩
  have hvalue := Accessor.isConjunct_property howner name
  have hknown : Guard.Presence.ofExpansion type = workspace.presence node ∧ type.IsClean IsIdentifier := by
    rcases htype with hexpanded | ⟨_, hnever, rfl⟩
    · exact ⟨presence_ofExpansion hexpanded, hclean.expand hexpanded⟩
    · exact ⟨by rw [presence, hnever]; rfl, trivial⟩
  rcases hknown with ⟨hpresence, htypeClean⟩
  have hguard := Guard.isBalanced_ofExpansion context.target (.property owner name) hvalue.balanced type htypeClean
  refine ⟨_, ⟨Layout.flat (Guard.ofExpansion context.target (.property owner name) type).layout, ?_, ?_⟩,
    Guard.isPart_part (Guard.isBalanced_clause howner.balanced name optional visibility _ hguard) ?_⟩
  · intro hpresent
    rcases htype with hexpanded | ⟨_, hnever, _⟩
    · refine ⟨_, resolve_of_expand ((context.enter id).withAccessor (indexAccess owner.text name)) hexpanded, ?_⟩
      have htext : (Accessor.property owner name).text = (Accessor.named (indexAccess owner.text name)).text := rfl
      exact congrArg Layout.flat (Guard.layout_congr context.target htext type)
    · exact absurd (by rw [presence, hnever]) hpresent
  · rw [Guard.flat_clause, hpresence]
  · rw [← hpresence]
    exact Guard.hasOuterOr_clause_iff howner name optional visibility _ hguard (not_hasOuterOr_free hvalue)

/-- The parts that the guard of a model is joined from. -/
theorem IsClean.conjunction {content : Model} (hplace : workspace.Places id context)
    (hid : workspace.IsExpanded context.locked id (.model content)) (hkind : content.indexed? = none)
    (htwo : 2 ≤ content.base.toList.length + content.properties.length) {resolution : Resolution}
    (h : (workspace.resolve .guard id context).outcome = .ok resolution) :
    ∃ bases parts, List.Forall₂ (workspace.IsBasePart (context.enter id)) content.base.toList bases ∧
      List.Forall₂ (workspace.IsPropertyPart (content.ownerText context.accessor) (context.enter id))
        content.properties parts ∧
      Layout.flat resolution.text = String.intercalate " && " (bases ++ parts) ∧
      ∀ part ∈ bases ++ parts, IsConjunct part := by
  have hvalue : IsConjunct (Accessor.named context.accessor).text := hplace.isConjunct
  obtain ⟨expansion, hexpansion, rfl⟩ := resolve_ok h
  have hyields := expand_yields hid hexpansion
  cases hyields with
  | indexed _ kind _ _ hindexed => cases hkind.symm.trans hindexed
  | model _ base properties _ hbase hproperties =>
    have hbases := forall₂_toList hbase
    have howner : (Guard.ownerOf (.named context.accessor) base).text = content.ownerText context.accessor := by
      rw [Model.ownerText, isSome_eq_of_rel hbase, Guard.ownerOf]
      split <;> rfl
    rw [hbases.length_eq, hproperties.length_eq] at htwo
    refine ⟨_, _, ?_, ?_, Guard.flat_model context.target (.named context.accessor) base properties htwo,
      Guard.isConjunct_parts context.target hvalue base (hclean.expand hexpansion)⟩
    · rw [List.forall₂_map_right_iff]
      exact hbases.imp (fun _ _ => hclean.base_part hvalue.balanced)
    · rw [List.forall₂_map_right_iff, ← howner]
      exact hproperties.imp (fun _ _ => hclean.property_part _ (Guard.isConjunct_ownerOf hvalue base))

end Clean
end Workspace

/-- Over identifiers and without mapped scalars, wherever the guard of a model with two or more clauses is written, it
is the conjunction of these clauses in their order, that of the base first. Every part and the whole are free of
disjunctions outside of brackets and literals. The part of a property is its clause, in parentheses exactly when the
property is optional, unrestricted and not of a type that says itself whether the property may be absent. -/
theorem resolve_conjunction {text : String} {graph : Graph} {registry : Registry}
    (hgraph : Graph.ofText text = .ok graph) (hregistry : Registry.ofGraph graph = .ok registry) (hnames : graph.DeclaresOnly IsIdentifier) {config : Config}
    (htypes : config.typeMappings = []) (hguards : config.guardMappings = []) {id : NodeId} {context : Context}
    (hplace : Workspace.Places ⟨graph, registry, config⟩ id context) {content : Model}
    (hid : Workspace.IsExpanded ⟨graph, registry, config⟩ context.locked id (.model content))
    (hkind : content.indexed? = none) (htwo : 2 ≤ content.base.toList.length + content.properties.length)
    {resolution : Resolution}
    (h : (Workspace.resolve ⟨graph, registry, config⟩ .guard id context).outcome = .ok resolution) :
    let workspace : Workspace := ⟨graph, registry, config⟩
    ∃ bases parts, List.Forall₂ (workspace.IsBasePart (context.enter id)) content.base.toList bases ∧
      List.Forall₂ (workspace.IsPropertyPart (content.ownerText context.accessor) (context.enter id))
        content.properties parts ∧
      Layout.flat resolution.text = String.intercalate " && " (bases ++ parts) ∧
      (∀ part ∈ bases ++ parts, IsConjunct part) ∧ IsConjunct (Layout.flat resolution.text) := by
  have hclean : Workspace.IsClean ⟨graph, registry, config⟩ IsIdentifier :=
    Workspace.isClean_of_text hgraph hregistry hnames htypes hguards
  obtain ⟨bases, parts, hbases, hparts, htext, hall⟩ := hclean.conjunction hplace hid hkind htwo h
  exact ⟨bases, parts, hbases, hparts, htext, hall, htext ▸ isConjunct_intercalate hall⟩

/-- The double bar in the name of a property splits nothing; the one of its clause is in parentheses. -/
theorem resolve_conjunction_barredText :
    let workspace : Workspace := ⟨Sample.barredGraph, Sample.barredRegistry, {}⟩
    ∃ resolution parts, (workspace.resolve .guard 0 (.ofScope ["A"])).outcome = .ok resolution ∧
      Layout.flat resolution.text = "(t['a\\']||'] === undefined || (typeof t['a\\']||'] === 'string')) && " ++
        "t['b'] !== undefined && (typeof t['b'] === 'string')" ∧
      List.Forall₂ (workspace.IsPropertyPart "t" ((Context.ofScope ["A"]).enter 0))
        [{ name := "a']||", type := 1, optional := true }, { name := "b", type := 1 }] parts ∧
      Layout.flat resolution.text = String.intercalate " && " parts ∧ ¬ HasOuterOr (Layout.flat resolution.text) := by
  intro workspace
  have hany : (workspace.resolve .guard 0 (.ofScope ["A"])).outcome.toOption.any (fun resolution =>
      Layout.flat resolution.text = "(t['a\\']||'] === undefined || (typeof t['a\\']||'] === 'string')) && " ++
        "t['b'] !== undefined && (typeof t['b'] === 'string')") = true := by decide +kernel
  obtain ⟨resolution, hresolution, htext⟩ := exists_ok_of_any hany
  obtain ⟨bases, parts, hbases, hparts, hjoined, -, hconjunct⟩ := resolve_conjunction Sample.ofText_barredText
    Sample.ofGraph_barredGraph Sample.declaresOnly_barredGraph rfl rfl (.ofScope 0 ["A"]) ⟨rfl, by decide⟩ rfl
    (by decide) hresolution
  cases hbases
  exact ⟨resolution, parts, hresolution, htext, hparts, hjoined, hconjunct.outer⟩

end SchemaGuards

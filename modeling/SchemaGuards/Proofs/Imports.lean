import SchemaGuards.Proofs.Enforcement
import SchemaGuards.Proofs.Expansion.Finite
import SchemaGuards.Proofs.Grouping
import SchemaGuards.Proofs.Order.Alike
import SchemaGuards.Proofs.Written.Uses

/-!
# Import lists are exact

Which registered declarations are met on the way through a node is a matter of the graph, the registry and
the mappings of scalars alone: a reference ends the way, a member leads to its owner, everything else is
followed part by part. A resolution imports the namespaces of what is met, each once and in that order,
apart from the one that it is written for.
-/
namespace SchemaGuards

/-- The entry that a reference leads to, if the mode writes it: a guard never refers to an enumeration. -/
def Mode.referred (mode : Mode) (entry : Entry) : List Entry :=
  if mode = .guard ∧ entry.identity.kind = .enumeration then [] else [entry]

/-- The owner that a member leads to: only a type names it. -/
def Mode.owners (mode : Mode) (owner : Option Entry) : List Entry :=
  match mode with
  | .type => owner.toList
  | .guard => []

/-- The namespaces of entries that the code of a file has to import. -/
def foreignScopes (target : Option Scope) (entries : List Entry) : List Scope :=
  (entries.map fun entry => entry.identity.scope).filter (fun scope => target ≠ some scope)

theorem foreignScopes_append (target : Option Scope) (first second : List Entry) :
    foreignScopes target (first ++ second) = foreignScopes target first ++ foreignScopes target second := by
  rw [foreignScopes, List.map_append, List.filter_append]
  rfl

theorem foreignScopes_singleton (target : Option Scope) (entry : Entry) :
    foreignScopes target [entry] = (Reference.ofEntry target entry).imported.toList := by
  by_cases hown : target = some entry.identity.scope <;> simp [foreignScopes, Reference.ofEntry, hown]

namespace Expansion

mutual
/-- The entries that the written form of an expansion refers to, in their order. -/
def met (mode : Mode) : Expansion → List Entry
  | .reference entry _ => mode.referred entry
  | .member owner _ _ => mode.owners owner
  | .derived base => met mode base
  | .indexed _ element => met mode element
  | .model (some base) properties => met mode base ++ propertyMet mode properties
  | .model none properties => propertyMet mode properties
  | .tuple elements => listMet mode elements
  | .union variants => listMet mode variants
  | _ => []
termination_by structural expansion => expansion

def propertyMet (mode : Mode) : List (Property Expansion) → List Entry
  | [] => []
  | ⟨_, type, _, _, _⟩ :: rest => met mode type ++ propertyMet mode rest

def listMet (mode : Mode) : List Expansion → List Entry
  | [] => []
  | expansion :: rest => met mode expansion ++ listMet mode rest
end

theorem propertyMet_eq (mode : Mode) (properties : List (Property Expansion)) :
    propertyMet mode properties = (properties.map fun property => property.type.met mode).flatten := by
  induction properties with
  | nil => rfl
  | cons property rest ih => rw [propertyMet, ih, List.map_cons, List.flatten_cons]

theorem listMet_eq (mode : Mode) (expansions : List Expansion) :
    listMet mode expansions = (expansions.map (met mode)).flatten := by
  induction expansions with
  | nil => rfl
  | cons expansion rest ih => rw [listMet, ih, List.map_cons, List.flatten_cons]

end Expansion

namespace TypeExpr

theorem importedScopes_filter (style : TypeStyle) (inModel : Bool) (restrictions : VisibilityMap)
    (shape : TypeExpr) : (filter style inModel restrictions shape).importedScopes = shape.importedScopes := by
  rw [filter]
  split <;> rfl

mutual
/-- A type imports the namespaces of what its expansion meets. -/
theorem importedScopes_ofExpansion (style : TypeStyle) (inModel : Bool) (expansion : Expansion) :
    (ofExpansion style inModel expansion).importedScopes = foreignScopes style.target (expansion.met .type) := by
  cases expansion with
  | reference entry generic => exact (foreignScopes_singleton style.target entry).symm
  | primitive | enumeration | mapped | terminal | unresolved => rfl
  | member owner name literal =>
    cases owner with
    | none => rfl
    | some owner => exact (foreignScopes_singleton style.target owner).symm
  | derived base => exact importedScopes_ofExpansion style false base
  | indexed kind element =>
    rw [ofExpansion, importedScopes_filter]
    exact importedScopes_ofExpansion style true element
  | model base properties =>
    cases base with
    | none =>
      rw [ofExpansion, importedScopes_filter]
      exact fieldScopes_fieldsOf style properties
    | some base =>
      rw [ofExpansion, importedScopes_filter, importedScopes, Expansion.met, foreignScopes_append,
        importedScopes_ofExpansion style true base, fieldScopes_fieldsOf style properties]
  | tuple elements => exact listScopes_listOf style elements
  | union variants => exact listScopes_listOf style variants
termination_by structural expansion

theorem fieldScopes_fieldsOf (style : TypeStyle) (properties : List (Property Expansion)) :
    fieldScopes (fieldsOf style properties) =
      foreignScopes style.target (Expansion.propertyMet .type properties) := by
  cases properties with
  | nil => rfl
  | cons property rest =>
    rcases property with ⟨name, type, optional, visibility, doc⟩
    rw [fieldsOf, fieldScopes, Expansion.propertyMet, foreignScopes_append,
      importedScopes_ofExpansion style true type, fieldScopes_fieldsOf style rest]

theorem listScopes_listOf (style : TypeStyle) (expansions : List Expansion) :
    listScopes (listOf style expansions) = foreignScopes style.target (Expansion.listMet .type expansions) := by
  cases expansions with
  | nil => rfl
  | cons expansion rest =>
    rw [listOf, listScopes, Expansion.listMet, foreignScopes_append,
      importedScopes_ofExpansion style false expansion, listScopes_listOf style rest]
end

end TypeExpr

namespace Guard

/-- A property that has to be absent is not followed, and its type imports nothing. -/
theorem importedScopes_clause (target : Option Scope) (owner : Accessor) (name : String) (optional : Bool)
    (visibility : Option LifecycleSet) (type : Expansion) (content : Guard)
    (h : content.importedScopes = foreignScopes target (type.met .guard)) :
    (clause owner name optional visibility (Presence.ofExpansion type) content).importedScopes =
      foreignScopes target (type.met .guard) := by
  have hpresent : ∀ presence, Presence.ofExpansion type = presence →
      (clause owner name optional none presence content).importedScopes =
        foreignScopes target (type.met .guard) := by
    intro presence hpresence
    cases presence with
    | forbidden =>
      rw [Presence.ofExpansion.eq_def] at hpresence
      split at hpresence
      · rfl
      all_goals cases hpresence
    | free => exact h
    | tested => exact h
  cases visibility with
  | none => exact hpresent _ rfl
  | some states => exact hpresent _ rfl

mutual
/-- A guard imports the namespaces of what its expansion meets. -/
theorem importedScopes_ofExpansion (target : Option Scope) (value : Accessor) (expansion : Expansion) :
    (ofExpansion target value expansion).importedScopes = foreignScopes target (expansion.met .guard) := by
  cases expansion with
  | reference entry generic =>
    rw [ofExpansion, ofReference, Expansion.met, Mode.referred]
    by_cases hkind : entry.identity.kind = .enumeration
    · rw [if_pos hkind, if_pos ⟨rfl, hkind⟩]
      rfl
    · rw [if_neg hkind, if_neg (fun h => hkind h.2), foreignScopes_singleton]
      rfl
  | primitive literal =>
    cases literal with
    | intrinsic intrinsic => cases intrinsic <;> rfl
    | _ => rfl
  | enumeration | member | mapped | terminal | unresolved => rfl
  | derived base => exact importedScopes_ofExpansion target value base
  | indexed kind element => exact importedScopes_ofExpansion target (Accessor.element kind) element
  | model base properties =>
    cases base with
    | none => exact listScopes_clausesOf target value properties
    | some base =>
      rw [ofExpansion, importedScopes, listScopes, Expansion.met, foreignScopes_append,
        importedScopes_ofExpansion target value base, listScopes_clausesOf target (.untyped value) properties]
  | tuple elements => exact listScopes_positionsOf target value 0 elements
  | union variants => exact listScopes_variantsOf target value variants
termination_by structural expansion

theorem listScopes_clausesOf (target : Option Scope) (owner : Accessor) (properties : List (Property Expansion)) :
    listScopes (clausesOf target owner properties) =
      foreignScopes target (Expansion.propertyMet .guard properties) := by
  cases properties with
  | nil => rfl
  | cons property rest =>
    rcases property with ⟨name, type, optional, visibility, doc⟩
    rw [clausesOf, listScopes, Expansion.propertyMet, foreignScopes_append, listScopes_clausesOf target owner rest,
      importedScopes_clause target owner name optional visibility type _
        (importedScopes_ofExpansion target (.property owner name) type)]

theorem listScopes_positionsOf (target : Option Scope) (value : Accessor) (index : Nat) (elements : List Expansion) :
    listScopes (positionsOf target value index elements) =
      foreignScopes target (Expansion.listMet .guard elements) := by
  cases elements with
  | nil => rfl
  | cons element rest =>
    rw [positionsOf, listScopes, Expansion.listMet, foreignScopes_append,
      importedScopes_ofExpansion target (.position value index) element,
      listScopes_positionsOf target value (index + 1) rest]

theorem listScopes_variantsOf (target : Option Scope) (value : Accessor) (variants : List Expansion) :
    listScopes (variantsOf target value variants) =
      foreignScopes target (Expansion.listMet .guard variants) := by
  cases variants with
  | nil => rfl
  | cons variant rest =>
    rw [variantsOf, listScopes, Expansion.listMet, foreignScopes_append,
      importedScopes_ofExpansion target value variant, listScopes_variantsOf target value rest]
end

end Guard

namespace Workspace
variable {workspace : Workspace} {mode : Mode} {locked : Bool} {id : NodeId} {context : Context}
  {resolution : Resolution}

/-- Imports are the foreign namespaces of what is met, each once. -/
theorem write_imports (expansion : Expansion) :
    (workspace.write mode id context expansion).imports =
      distinct (foreignScopes context.target (expansion.met mode)) := by
  cases mode with
  | type => exact congrArg distinct (TypeExpr.importedScopes_ofExpansion (workspace.typeStyle context) _ expansion)
  | guard => exact congrArg distinct (Guard.importedScopes_ofExpansion context.target _ expansion)

/-- The places that are followed from a node, in their order; a mapped scalar is not followed. -/
def followed (workspace : Workspace) (mode : Mode) : Node → List NodeId
  | .scalar content =>
    match workspace.mapping? mode content with
    | some _ => []
    | none => (Node.scalar content).continuation
  | node => node.continuation

def ownEntries (workspace : Workspace) (mode : Mode) : Node → List Entry
  | .member owner _ => mode.owners ((workspace.graph.node? owner).bind workspace.registered?)
  | _ => []

/-- The registered declarations that are met on the way through a place, in their order. -/
inductive Meets (workspace : Workspace) (mode : Mode) : Bool → NodeId → List Entry → Prop
  | referred (id : NodeId) (node : Node) (entry : Entry) (hnode : workspace.graph.node? id = some node)
    (hentry : workspace.registered? node = some entry) : Meets workspace mode true id (mode.referred entry)
  | expanded (locked : Bool) (id : NodeId) (node : Node) (parts : List (NodeId × List Entry))
    (hid : workspace.IsExpanded locked id node) (hparts : parts.map Prod.fst = workspace.followed mode node)
    (h : ∀ pair ∈ parts, Meets workspace mode true pair.1 pair.2) :
    Meets workspace mode locked id (workspace.ownEntries mode node ++ (parts.map Prod.snd).flatten)

/-- The graph, the registry and the mappings decide what is met. -/
theorem Meets.unique {met : List Entry} (h : workspace.Meets mode locked id met) :
    ∀ found, workspace.Meets mode locked id found → met = found := by
  induction h with
  | referred id node entry hnode hentry =>
    intro found hfound
    cases hfound with
    | referred _ other _ hother hregistered =>
      cases hnode.symm.trans hother
      cases hentry.symm.trans hregistered
      rfl
    | expanded _ _ other parts hid => exact (hid.not_referred hnode hentry).elim
  | expanded locked id node parts hid hparts _ ih =>
    intro found hfound
    cases hfound with
    | referred _ other entry hother hentry => exact (hid.not_referred hother hentry).elim
    | expanded _ _ other others hother hothers hmeets =>
      cases hid.node_eq hother
      rw [pairs_unique (workspace.Meets mode true) (hparts.trans hothers.symm) ih hmeets]

theorem Meets.of_forall₂ {node : Node} (hid : workspace.IsExpanded locked id node) {lists : List (List Entry)}
    (h : List.Forall₂ (workspace.Meets mode true) (workspace.followed mode node) lists) :
    workspace.Meets mode locked id (workspace.ownEntries mode node ++ lists.flatten) := by
  obtain ⟨hlength, hpairs⟩ := List.forall₂_iff_zip.1 h
  have hparts : ((workspace.followed mode node).zip lists).map Prod.fst = workspace.followed mode node :=
    List.map_fst_zip (Nat.le_of_eq hlength)
  have hlists : ((workspace.followed mode node).zip lists).map Prod.snd = lists :=
    List.map_snd_zip (Nat.le_of_eq hlength.symm)
  rw [← hlists]
  exact .expanded locked id node _ hid hparts (fun pair hpair => hpairs hpair)

theorem Meets.of_leaf {node : Node} (hid : workspace.IsExpanded locked id node)
    (h : workspace.followed mode node = []) : workspace.Meets mode locked id (workspace.ownEntries mode node) := by
  have hnone : List.Forall₂ (workspace.Meets mode true) (workspace.followed mode node) [] := h ▸ .nil
  simpa using Meets.of_forall₂ hid hnone

theorem Meets.of_part {node : Node} (hid : workspace.IsExpanded locked id node) {part : NodeId}
    (hfollowed : workspace.followed mode node = [part]) {inner : List Entry}
    (h : workspace.Meets mode true part inner) :
    workspace.Meets mode locked id (workspace.ownEntries mode node ++ inner) := by
  have hsingle : List.Forall₂ (workspace.Meets mode true) (workspace.followed mode node) [inner] :=
    hfollowed ▸ .cons h .nil
  simpa using Meets.of_forall₂ hid hsingle

theorem followed_mapped {content : Scalar} {text : String} (h : workspace.mapping? mode content = some text) :
    workspace.followed mode (.scalar content) = [] := by
  simp [followed, h]

theorem followed_scalar {content : Scalar} (h : workspace.mapping? mode content = none) :
    workspace.followed mode (.scalar content) = content.deferredTo?.toList := by
  simp only [followed, h, Scalar.toList_deferredTo?]

theorem followed_indexed {content : Model} {kind : Indexed} (h : content.indexed? = some kind) :
    workspace.followed mode (.model content) = content.indexer.toList := by
  simp [followed, Node.continuation, h]

theorem followed_model {content : Model} (h : content.indexed? = none) :
    workspace.followed mode (.model content) = content.base.toList ++ content.properties.map Property.type := by
  simp [followed, Node.continuation, h]

theorem ExpandsProperty.meets {property : Property NodeId} {expanded : Property Expansion}
    (h : ExpandsProperty workspace.graph mode (fun part result => workspace.Meets mode true part (result.met mode))
      property expanded) : workspace.Meets mode true property.type (expanded.type.met mode) := by
  obtain ⟨_, _, _, htype | ⟨_, hnode, htype⟩⟩ := h
  · exact htype
  · have hid : workspace.IsExpanded true property.type (.primitive (.intrinsic .never)) := ⟨hnode, fun _ => rfl⟩
    rw [htype]
    exact .of_leaf hid rfl

/-- An expansion refers to what is met on the way through its node. -/
theorem expand_meets {ancestry : List NodeId} {expansion : Expansion}
    (h : (workspace.expand mode locked ancestry id).outcome = .ok expansion) :
    workspace.Meets mode locked id (expansion.met mode) := by
  refine expand_induct (motive := fun locked id expansion => workspace.Meets mode locked id (expansion.met mode))
    ?_ ?_ h
  · exact fun id node entry hnode hentry => .referred id node entry hnode hentry
  · intro locked id node expansion hnode hregistered hyields
    have hid : workspace.IsExpanded locked id node := ⟨hnode, hregistered⟩
    replace hyields := hyields.imp (fun _ _ _ hresult => hresult.2)
    cases hyields with
    | primitive | enumeration => exact .of_leaf hid rfl
    | member owner name content index howner hindex =>
      have hmeets : workspace.Meets mode locked id (workspace.ownEntries mode (.member owner name)) :=
        .of_leaf hid rfl
      rwa [ownEntries, howner] at hmeets
    | mapped content text htext => exact .of_leaf hid (followed_mapped htext)
    | derived content base expanded htext hbase hexpanded =>
      refine Meets.of_part hid ?_ hexpanded
      rw [followed_scalar htext, hbase]
      rfl
    | terminal content type htext hbase | unresolved content htext hbase =>
      refine .of_leaf hid ?_
      rw [followed_scalar htext, hbase]
      rfl
    | indexed content kind element expanded hkind helement hexpanded =>
      refine Meets.of_part hid ?_ hexpanded
      rw [followed_indexed hkind, helement]
      rfl
    | model content base properties hkind hbase hproperties =>
      have hlists : List.Forall₂ (workspace.Meets mode true) (workspace.followed mode (.model content))
          (base.toList.map (Expansion.met mode) ++ properties.map fun property => property.type.met mode) := by
        rw [followed_model hkind]
        refine List.rel_append ?_ ?_
        · exact List.forall₂_map_right_iff.2 (forall₂_toList hbase)
        · exact List.forall₂_map_left_iff.2 (List.forall₂_map_right_iff.2
            (hproperties.imp (fun _ _ hproperty => ExpandsProperty.meets hproperty)))
      have hmeets := Meets.of_forall₂ hid hlists
      rw [List.flatten_append, ← Expansion.propertyMet_eq] at hmeets
      cases base with
      | none => exact hmeets
      | some base => rwa [Option.toList_some, List.map_singleton, List.flatten_singleton] at hmeets
    | tuple parts elements helements =>
      rw [Expansion.met, Expansion.listMet_eq]
      exact Meets.of_forall₂ hid (List.forall₂_map_right_iff.2 helements)
    | union content variants hvariants =>
      rw [Expansion.met, Expansion.listMet_eq]
      exact Meets.of_forall₂ hid (List.forall₂_map_right_iff.2 hvariants)

/-- A place that is written inside another one, at any depth. -/
inductive Inside (workspace : Workspace) (mode : Mode) (locked : Bool) (id : NodeId) : NodeId → Prop
  | part (node : Node) (part : NodeId) (hid : workspace.IsExpanded locked id node)
    (hpart : part ∈ workspace.followed mode node) : Inside workspace mode locked id part
  | deeper (outer : NodeId) (node : Node) (part : NodeId) (houter : Inside workspace mode locked id outer)
    (hid : workspace.IsExpanded true outer node) (hpart : part ∈ workspace.followed mode node) :
    Inside workspace mode locked id part

theorem Meets.part {met : List Entry} (h : workspace.Meets mode locked id met) {node : Node}
    (hid : workspace.IsExpanded locked id node) {part : NodeId} (hpart : part ∈ workspace.followed mode node) :
    ∃ inner, workspace.Meets mode true part inner ∧ inner <:+: met := by
  cases h with
  | referred _ other entry hother hentry => exact (hid.not_referred hother hentry).elim
  | expanded _ _ other parts hother hparts hmeets =>
    cases hid.node_eq hother
    rw [← hparts] at hpart
    obtain ⟨pair, hpair, rfl⟩ := List.mem_map.1 hpart
    refine ⟨pair.2, hmeets pair hpair, ?_⟩
    have hinner : pair.2 <:+: (parts.map Prod.snd).flatten :=
      List.infix_of_mem_flatten (List.mem_map_of_mem hpair)
    exact hinner.trans (List.suffix_append _ _).isInfix

/-- What is met inside a place is met there without a gap, at any depth. -/
theorem Meets.inside {met : List Entry} (h : workspace.Meets mode locked id met) {part : NodeId}
    (hpart : workspace.Inside mode locked id part) :
    ∃ inner, workspace.Meets mode true part inner ∧ inner <:+: met := by
  induction hpart with
  | part node part hid hpart => exact h.part hid hpart
  | deeper outer node part _ hid hpart ih =>
    obtain ⟨around, haround, hinfix⟩ := ih
    obtain ⟨inner, hinner, hinside⟩ := haround.part hid hpart
    exact ⟨inner, hinner, hinside.trans hinfix⟩

theorem resolve_meets (h : (workspace.resolve mode id context).outcome = .ok resolution) :
    ∃ met, workspace.Meets mode context.locked id met ∧
      resolution.imports = distinct (foreignScopes context.target met) := by
  obtain ⟨expansion, hexpansion, rfl⟩ := resolve_ok h
  exact ⟨_, expand_meets hexpansion, write_imports expansion⟩

/-- What the parts of a place meet is what their resolutions import. -/
theorem parts_meet {target : Option Scope} {parts : List NodeId} {children : List Resolution}
    (h : List.Forall₂ (fun part child => ∃ around : Context, around.locked = true ∧ around.target = target ∧
      (workspace.resolve mode part around).outcome = .ok child) parts children) :
    ∃ lists, List.Forall₂ (workspace.Meets mode true) parts lists ∧
      List.Forall₂ (fun met child => child.imports = distinct (foreignScopes target met)) lists children := by
  induction h with
  | nil => exact ⟨[], .nil, .nil⟩
  | cons hchild _ ih =>
    obtain ⟨around, hlocked, htarget, hresolve⟩ := hchild
    obtain ⟨met, hmet, himports⟩ := resolve_meets hresolve
    obtain ⟨lists, hlists, hchildren⟩ := ih
    rw [hlocked] at hmet
    rw [htarget] at himports
    exact ⟨met :: lists, .cons hmet hlists, .cons himports hchildren⟩

/-- Merging the imports of parts one after another leaves out what has been there on any level. -/
theorem foldl_mergeImports {target : Option Scope} {lists : List (List Entry)} {children : List Resolution}
    (h : List.Forall₂ (fun met child => child.imports = distinct (foreignScopes target met)) lists children)
    {start : Resolution} {seen : List Entry} (hstart : start.imports = distinct (foreignScopes target seen)) :
    (children.foldl Resolution.mergeImports start).imports =
      distinct (foreignScopes target (seen ++ lists.flatten)) := by
  induction h generalizing start seen with
  | nil => simpa using hstart
  | cons hchild _ ih =>
    rw [List.foldl_cons, List.flatten_cons, ← List.append_assoc]
    apply ih
    rw [Resolution.mergeImports, hstart, hchild, foreignScopes_append, distinct_append]

/-- A place that is written in full imports what it meets itself and then merges in the imports of its parts. -/
theorem imports_eq_merged (h : (workspace.resolve mode id context).outcome = .ok resolution) {node : Node}
    (hid : workspace.IsExpanded context.locked id node) {children : List Resolution}
    (hchildren : List.Forall₂ (fun part child => ∃ around : Context, around.locked = true ∧
      around.target = context.target ∧ (workspace.resolve mode part around).outcome = .ok child)
      (workspace.followed mode node) children) :
    resolution.imports = (children.foldl Resolution.mergeImports
      { imports := distinct (foreignScopes context.target (workspace.ownEntries mode node)) }).imports := by
  obtain ⟨met, hmet, himports⟩ := resolve_meets h
  obtain ⟨lists, hlists, hmerged⟩ := parts_meet hchildren
  have hown : met = workspace.ownEntries mode node ++ lists.flatten := hmet.unique _ (.of_forall₂ hid hlists)
  rw [himports, hown, foldl_mergeImports hmerged rfl]

end Workspace

theorem mem_foreignScopes {target : Option Scope} {entries : List Entry} {scope : Scope} :
    scope ∈ foreignScopes target entries ↔ (∃ entry ∈ entries, entry.identity.scope = scope) ∧ target ≠ some scope := by
  simp [foreignScopes]

/-- A resolution imports the namespaces of the registered declarations that are met on the way through its
node, each once and in that order, without the one that it is written for. What a resolution inside of it
imports, it imports too, and a place that is written in full imports what it meets itself and then, merged one after
another, what its parts import. -/
theorem resolve_imports {workspace : Workspace} {mode : Mode} {id : NodeId} {context : Context}
    {resolution : Resolution} (h : (workspace.resolve mode id context).outcome = .ok resolution) :
    ∃ met, workspace.Meets mode context.locked id met ∧
      (∀ found, workspace.Meets mode context.locked id found → met = found) ∧
      ListsFirst resolution.imports ((met.map fun entry => entry.identity.scope).filter
        (fun scope => context.target ≠ some scope)) ∧
      (∀ scope ∈ resolution.imports, context.target ≠ some scope) ∧
      (∀ part, workspace.Inside mode context.locked id part →
        (∃ inner, workspace.Meets mode true part inner ∧ inner <:+: met) ∧
        ∀ around child, around.locked = true → around.target = context.target →
          (workspace.resolve mode part around).outcome = .ok child → child.imports ⊆ resolution.imports) ∧
      ∀ node children, workspace.IsExpanded context.locked id node →
        List.Forall₂ (fun part child => ∃ around : Context, around.locked = true ∧
          around.target = context.target ∧ (workspace.resolve mode part around).outcome = .ok child)
          (workspace.followed mode node) children →
        resolution.imports = (children.foldl Resolution.mergeImports
          { imports := distinct (foreignScopes context.target (workspace.ownEntries mode node)) }).imports := by
  obtain ⟨met, hmet, himports⟩ := Workspace.resolve_meets h
  refine ⟨met, hmet, hmet.unique, ?_, ?_, ?_, fun _ _ hid => Workspace.imports_eq_merged h hid⟩
  · rw [himports]
    exact listsFirst_distinct _
  · intro scope hscope
    rw [himports, mem_distinct] at hscope
    exact (mem_foreignScopes.1 hscope).2
  · intro part hpart
    obtain ⟨inner, hinner, hinfix⟩ := hmet.inside hpart
    refine ⟨⟨inner, hinner, hinfix⟩, ?_⟩
    intro around child hlocked htarget hchild scope hscope
    obtain ⟨found, hfound, hscopes⟩ := Workspace.resolve_meets hchild
    rw [hlocked] at hfound
    cases hinner.unique found hfound
    rw [hscopes, htarget, mem_distinct, mem_foreignScopes] at hscope
    obtain ⟨⟨entry, hentry, hscope⟩, hforeign⟩ := hscope
    rw [himports, mem_distinct, mem_foreignScopes]
    exact ⟨⟨entry, hinfix.subset hentry, hscope⟩, hforeign⟩

namespace Sample

/-- A model of one namespace that meets declarations of three others: two of them in a list of variants, one
again through a member, and one in a property. -/
def importingWorkspace : Workspace where
  graph :=
    { nodes := #[.model { decl := { name := some "M", scope := ["A"] },
                          properties := [{ name := "items", type := 6 }, { name := "state", type := 4 },
                                         { name := "kind", type := 3 }, { name := "next", type := 0 }] },
                 .enumeration ⟨{ name := some "E", scope := ["B"] }, [{ name := "on" }]⟩,
                 .model { decl := { name := some "N", scope := ["C"] } },
                 .enumeration ⟨{ name := some "K", scope := ["D"] }, [{ name := "off" }]⟩,
                 .member 1 "on",
                 .union ⟨{}, [2, 1]⟩,
                 .model (Model.ofElement .array 5)] }
  registry := [⟨⟨.model, "M", ["A"]⟩, 0⟩, ⟨⟨.enumeration, "E", ["B"]⟩, 1⟩, ⟨⟨.model, "N", ["C"]⟩, 2⟩,
    ⟨⟨.enumeration, "K", ["D"]⟩, 3⟩]
  config := {}

end Sample

theorem resolve_imports_importingWorkspace : ∃ type guard,
    (Sample.importingWorkspace.resolve .type 0 (.ofScope ["A"])).outcome = .ok type ∧
      (Sample.importingWorkspace.resolve .guard 0 (.ofScope ["A"])).outcome = .ok guard ∧
      type.imports = [["C"], ["B"], ["D"]] ∧ guard.imports = [["C"]] ∧
      (∀ scope ∈ type.imports, some ["A"] ≠ some scope) ∧ ∀ scope ∈ guard.imports, some ["A"] ≠ some scope := by
  have hany : (Sample.importingWorkspace.resolve .type 0 (.ofScope ["A"])).outcome.toOption.any
      (fun type => type.imports = [["C"], ["B"], ["D"]]) = true := by decide +kernel
  have hanyGuard : (Sample.importingWorkspace.resolve .guard 0 (.ofScope ["A"])).outcome.toOption.any
      (fun guard => guard.imports = [["C"]]) = true := by decide +kernel
  obtain ⟨type, htype, htypes⟩ := exists_ok_of_any hany
  obtain ⟨guard, hguard, hguards⟩ := exists_ok_of_any hanyGuard
  obtain ⟨_, _, _, _, hown, -⟩ := resolve_imports htype
  obtain ⟨_, _, _, _, hguardOwn, -⟩ := resolve_imports hguard
  exact ⟨type, guard, htype, hguard, htypes, hguards, hown, hguardOwn⟩

end SchemaGuards

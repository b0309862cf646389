import SchemaGuards.Proofs.Generation
import SchemaGuards.Proofs.Traced

/-!
# The restrictions written in place

The visibility map of a type says which restricted properties are written in place, and where. A walk
from a model goes down its properties, its base and the elements of indexed models, as long as these
are models that are written in full. The paths of the map are the walks that end at a restriction.
-/
namespace SchemaGuards

namespace VisibilityMap

mutual
def entryPaths : VisibilityEntry → List (List String × LifecycleSet)
  | ⟨key, states, nested⟩ =>
    states.toList.map (fun states => ([key], states)) ++
      (paths nested).map (fun path => (key :: path.1, path.2))
termination_by structural entry => entry

/-- The restrictions of a map, each behind the keys that lead to it. -/
def paths : List VisibilityEntry → List (List String × LifecycleSet)
  | [] => []
  | entry :: rest => entryPaths entry ++ paths rest
end

@[simp] theorem paths_nil : paths [] = [] := rfl

theorem paths_append (map other : VisibilityMap) : paths (map ++ other) = paths map ++ paths other := by
  induction map with
  | nil => rfl
  | cons entry rest ih => rw [List.cons_append, paths, paths, ih, List.append_assoc]

theorem paths_flatMap {α : Type} (values : List α) (maps : α → VisibilityMap) :
    paths (values.flatMap maps) = values.flatMap (fun value => paths (maps value)) := by
  induction values with
  | nil => rfl
  | cons value rest ih => rw [List.flatMap_cons, List.flatMap_cons, paths_append, ih]

theorem paths_push (map : VisibilityMap) (entry : VisibilityEntry) :
    paths (push map entry) = paths map ++ entryPaths entry := by
  rw [push]
  split
  · rw [paths_append, paths, paths_nil, List.append_nil]
  · next hmeaningless =>
    rcases entry with ⟨key, states, nested⟩
    have hnone : states = none ∧ nested = [] := by
      simpa [VisibilityEntry.isMeaningful] using hmeaningless
    simp [entryPaths, hnone.1, hnone.2]

theorem paths_ofProperty (key : String) (states : Option LifecycleSet) (nested : VisibilityMap) :
    paths (ofProperty key states nested) =
      states.toList.map (fun states => ([key], states)) ++
        (paths nested).map (fun path => (key :: path.1, path.2)) := by
  rw [ofProperty, paths_push, paths_nil, List.nil_append, entryPaths]

theorem paths_wildcard (element : VisibilityMap) :
    paths (wildcard element) = (paths element).map (fun path => (wildcardKey :: path.1, path.2)) := by
  rw [wildcard, paths_push, paths_nil, List.nil_append, entryPaths]
  rfl

end VisibilityMap

namespace Workspace
open VisibilityMap

/-- What the graph says of the map of a place: which entries it has, and in which order. -/
inductive Inlines (workspace : Workspace) : Bool → NodeId → VisibilityMap → Prop
  /-- A reference writes nothing in place. -/
  | referred (id : NodeId) (node : Node) (entry : Entry) (hnode : workspace.graph.node? id = some node)
    (hentry : workspace.registered? node = some entry) : Inlines workspace true id []
  /-- Only models pass restrictions on. -/
  | other (locked : Bool) (id : NodeId) (node : Node) (hnode : workspace.graph.node? id = some node)
    (hkind : node.kind ≠ .model) : Inlines workspace locked id []
  | array (locked : Bool) (id element : NodeId) (content : Model) (map : VisibilityMap)
    (hid : workspace.IsExpanded locked id (.model content)) (hkind : content.indexed? = some .array)
    (helement : content.indexer = some element) (h : Inlines workspace true element map) :
    Inlines workspace locked id map
  | record (locked : Bool) (id element : NodeId) (content : Model) (map : VisibilityMap)
    (hid : workspace.IsExpanded locked id (.model content)) (hkind : content.indexed? = some .record)
    (helement : content.indexer = some element) (h : Inlines workspace true element map) :
    Inlines workspace locked id (VisibilityMap.wildcard map)
  /-- The entries of the base come first, then those of the properties in their order. -/
  | shaped (locked : Bool) (id : NodeId) (content : Model) (base : VisibilityMap)
    (properties : List (Property NodeId × VisibilityMap))
    (hid : workspace.IsExpanded locked id (.model content)) (hkind : content.indexed? = none)
    (hroot : content.base = none → base = [])
    (hbase : ∀ extended, content.base = some extended → Inlines workspace true extended base)
    (hproperties : properties.map Prod.fst = content.properties)
    (h : ∀ pair ∈ properties, Inlines workspace true pair.1.type pair.2) :
    Inlines workspace locked id
      (base ++ properties.flatMap (fun pair => ofProperty pair.1.name pair.1.visibility pair.2))

/-- A walk along keys from a place to a property that is restricted to some phases. -/
inductive Restricts (workspace : Workspace) : Bool → NodeId → List String → LifecycleSet → Prop
  | here (locked : Bool) (id : NodeId) (content : Model) (property : Property NodeId) (states : LifecycleSet)
    (hid : workspace.IsExpanded locked id (.model content)) (hkind : content.indexed? = none)
    (hproperty : property ∈ content.properties) (hstates : property.visibility = some states) :
    Restricts workspace locked id [property.name] states
  | property (locked : Bool) (id : NodeId) (content : Model) (property : Property NodeId) (keys : List String)
    (states : LifecycleSet) (hid : workspace.IsExpanded locked id (.model content))
    (hkind : content.indexed? = none) (hproperty : property ∈ content.properties)
    (h : Restricts workspace true property.type keys states) :
    Restricts workspace locked id (property.name :: keys) states
  /-- A base brings its properties without a key of its own. -/
  | base (locked : Bool) (id extended : NodeId) (content : Model) (keys : List String) (states : LifecycleSet)
    (hid : workspace.IsExpanded locked id (.model content)) (hkind : content.indexed? = none)
    (hbase : content.base = some extended) (h : Restricts workspace true extended keys states) :
    Restricts workspace locked id keys states
  | array (locked : Bool) (id element : NodeId) (content : Model) (keys : List String) (states : LifecycleSet)
    (hid : workspace.IsExpanded locked id (.model content)) (hkind : content.indexed? = some .array)
    (helement : content.indexer = some element) (h : Restricts workspace true element keys states) :
    Restricts workspace locked id keys states
  | record (locked : Bool) (id element : NodeId) (content : Model) (keys : List String) (states : LifecycleSet)
    (hid : workspace.IsExpanded locked id (.model content)) (hkind : content.indexed? = some .record)
    (helement : content.indexer = some element) (h : Restricts workspace true element keys states) :
    Restricts workspace locked id (wildcardKey :: keys) states

variable {workspace : Workspace} {locked : Bool} {id : NodeId} {map : VisibilityMap} {keys : List String}
  {states : LifecycleSet}

theorem Restricts.isExpanded (h : workspace.Restricts locked id keys states) :
    ∃ content, workspace.IsExpanded locked id (.model content) := by
  cases h with
  | here _ _ content _ _ hid => exact ⟨content, hid⟩
  | property _ _ content _ _ _ hid => exact ⟨content, hid⟩
  | base _ _ _ content _ _ hid => exact ⟨content, hid⟩
  | array _ _ _ content _ _ hid => exact ⟨content, hid⟩
  | record _ _ _ content _ _ hid => exact ⟨content, hid⟩

section Walks
variable {content : Model} (hid : workspace.IsExpanded locked id (.model content))
include hid

theorem restricts_array_iff {element : NodeId} (hkind : content.indexed? = some .array)
    (helement : content.indexer = some element) :
    workspace.Restricts locked id keys states ↔ workspace.Restricts true element keys states := by
  constructor
  · intro h
    cases h with
    | array _ _ found other _ _ hother _ hfound h =>
      cases hid.node_eq hother
      cases helement.symm.trans hfound
      exact h
    | here _ _ other _ _ hother hnot | property _ _ other _ _ _ hother hnot
    | base _ _ _ other _ _ hother hnot | record _ _ _ other _ _ hother hnot =>
      cases hid.node_eq hother
      cases hkind.symm.trans hnot
  · exact .array locked id element content keys states hid hkind helement

theorem restricts_record_iff {element : NodeId} (hkind : content.indexed? = some .record)
    (helement : content.indexer = some element) :
    workspace.Restricts locked id keys states ↔
      ∃ rest, keys = wildcardKey :: rest ∧ workspace.Restricts true element rest states := by
  constructor
  · intro h
    cases h with
    | record _ _ found other rest _ hother _ hfound h =>
      cases hid.node_eq hother
      cases helement.symm.trans hfound
      exact ⟨rest, rfl, h⟩
    | here _ _ other _ _ hother hnot | property _ _ other _ _ _ hother hnot
    | base _ _ _ other _ _ hother hnot | array _ _ _ other _ _ hother hnot =>
      cases hid.node_eq hother
      cases hkind.symm.trans hnot
  · rintro ⟨rest, rfl, h⟩
    exact .record locked id element content rest states hid hkind helement h

theorem restricts_shaped_iff (hkind : content.indexed? = none) :
    workspace.Restricts locked id keys states ↔
      (∃ extended, content.base = some extended ∧ workspace.Restricts true extended keys states) ∨
        ∃ property ∈ content.properties, (keys = [property.name] ∧ property.visibility = some states) ∨
          ∃ rest, keys = property.name :: rest ∧ workspace.Restricts true property.type rest states := by
  constructor
  · intro h
    cases h with
    | here _ _ other property _ hother _ hproperty hstates =>
      cases hid.node_eq hother
      exact .inr ⟨property, hproperty, .inl ⟨rfl, hstates⟩⟩
    | property _ _ other property rest _ hother _ hproperty h =>
      cases hid.node_eq hother
      exact .inr ⟨property, hproperty, .inr ⟨rest, rfl, h⟩⟩
    | base _ _ extended other _ _ hother _ hbase h =>
      cases hid.node_eq hother
      exact .inl ⟨extended, hbase, h⟩
    | array _ _ _ other _ _ hother hnot | record _ _ _ other _ _ hother hnot =>
      cases hid.node_eq hother
      cases hkind.symm.trans hnot
  · rintro (⟨extended, hbase, h⟩ | ⟨property, hproperty, ⟨rfl, hstates⟩ | ⟨rest, rfl, h⟩⟩)
    · exact .base locked id extended content keys states hid hkind hbase h
    · exact .here locked id content property states hid hkind hproperty hstates
    · exact .property locked id content property rest states hid hkind hproperty h

end Walks

theorem mem_map_cons {key : String} {list : List (List String × LifecycleSet)} :
    (keys, states) ∈ list.map (fun path => (key :: path.1, path.2)) ↔
      ∃ rest, keys = key :: rest ∧ (rest, states) ∈ list := by
  constructor
  · intro h
    rcases List.mem_map.1 h with ⟨⟨rest, _⟩, hmem, heq⟩
    cases heq
    exact ⟨rest, rfl, hmem⟩
  · rintro ⟨rest, rfl, hmem⟩
    exact List.mem_map.2 ⟨_, hmem, rfl⟩

theorem mem_paths_ofProperty {key : String} {visibility : Option LifecycleSet} {nested : VisibilityMap} :
    (keys, states) ∈ paths (ofProperty key visibility nested) ↔
      (keys = [key] ∧ visibility = some states) ∨ ∃ rest, keys = key :: rest ∧ (rest, states) ∈ paths nested := by
  rw [paths_ofProperty, List.mem_append, mem_map_cons]
  simp only [List.mem_map, Option.mem_toList, Prod.mk.injEq]
  grind

/-- The paths of a map are the walks from its place. -/
theorem Inlines.mem_paths_iff (h : workspace.Inlines locked id map) :
    ∀ keys states, (keys, states) ∈ paths map ↔ workspace.Restricts locked id keys states := by
  induction h with
  | referred id node entry hnode hentry =>
    intro keys states
    refine iff_of_false (by simp) (fun hwalk => ?_)
    rcases hwalk.isExpanded with ⟨content, hcontent, hregistered⟩
    cases hnode.symm.trans hcontent
    rw [hregistered rfl] at hentry
    cases hentry
  | other locked id node hnode hkind =>
    intro keys states
    refine iff_of_false (by simp) (fun hwalk => ?_)
    rcases hwalk.isExpanded with ⟨content, hcontent, _⟩
    cases hnode.symm.trans hcontent
    exact hkind rfl
  | array locked id element content map hid hkind helement _ ih =>
    intro keys states
    rw [restricts_array_iff hid hkind helement, ih]
  | record locked id element content map hid hkind helement _ ih =>
    intro keys states
    rw [restricts_record_iff hid hkind helement, paths_wildcard, mem_map_cons]
    simp only [ih]
  | shaped locked id content base properties hid hkind hroot _ hproperties _ ihbase ih =>
    intro keys states
    rw [restricts_shaped_iff hid hkind, paths_append, List.mem_append, paths_flatMap, List.mem_flatMap]
    refine or_congr ?_ ?_
    · cases hextended : content.base with
      | none => simp [hroot hextended]
      | some extended => simp [ihbase extended hextended]
    · simp only [mem_paths_ofProperty]
      constructor
      · rintro ⟨pair, hpair, hpath⟩
        have hmem : pair.1 ∈ content.properties := hproperties ▸ List.mem_map_of_mem hpair
        refine ⟨pair.1, hmem, hpath.imp_right ?_⟩
        rintro ⟨rest, rfl, hrest⟩
        exact ⟨rest, rfl, (ih pair hpair rest states).1 hrest⟩
      · rintro ⟨property, hproperty, hwalk⟩
        rw [← hproperties] at hproperty
        rcases List.mem_map.1 hproperty with ⟨pair, hpair, rfl⟩
        refine ⟨pair, hpair, hwalk.imp_right ?_⟩
        rintro ⟨rest, rfl, hrest⟩
        exact ⟨rest, rfl, (ih pair hpair rest states).2 hrest⟩

theorem paths_ofProperty_ne_nil {key : String} {visibility : Option LifecycleSet} {nested : VisibilityMap}
    (hnested : nested ≠ [] → paths nested ≠ []) (h : ofProperty key visibility nested ≠ []) :
    paths (ofProperty key visibility nested) ≠ [] := by
  rw [paths_ofProperty]
  cases visibility with
  | some states => simp
  | none =>
    have hsome : nested ≠ [] := by
      rintro rfl
      exact h rfl
    simpa using hnested hsome

/-- A map that is not empty restricts something. -/
theorem Inlines.paths_ne_nil (h : workspace.Inlines locked id map) : map ≠ [] → paths map ≠ [] := by
  induction h with
  | referred | other => exact fun hne => absurd rfl hne
  | array _ _ _ _ _ _ _ _ _ ih => exact ih
  | record locked id element content map _ _ _ _ ih =>
    intro hne
    have hsome : map ≠ [] := by
      rintro rfl
      exact hne rfl
    rw [paths_wildcard]
    simpa using ih hsome
  | shaped locked id content base properties _ _ hroot _ _ _ ihbase ih =>
    intro hne hpaths
    rw [paths_append, List.append_eq_nil_iff, paths_flatMap, List.flatMap_eq_nil_iff] at hpaths
    apply hne
    rw [List.append_eq_nil_iff, List.flatMap_eq_nil_iff]
    refine ⟨?_, fun pair hpair => ?_⟩
    · cases hextended : content.base with
      | none => exact hroot hextended
      | some extended => exact not_not.1 (fun hsome => ihbase extended hextended hsome hpaths.1)
    · exact not_not.1 (fun hsome => paths_ofProperty_ne_nil (ih pair hpair) hsome (hpaths.2 pair hpair))

/-- A map is empty exactly when no walk ends at a restriction. -/
theorem Inlines.eq_nil_iff (h : workspace.Inlines locked id map) :
    map = [] ↔ ∀ keys states, ¬ workspace.Restricts locked id keys states := by
  constructor
  · rintro rfl keys states hwalk
    have := (h.mem_paths_iff keys states).2 hwalk
    cases this
  · intro hnone
    refine not_not.1 (fun hne => ?_)
    rcases List.exists_mem_of_ne_nil _ (h.paths_ne_nil hne) with ⟨⟨keys, states⟩, hmem⟩
    exact hnone keys states ((h.mem_paths_iff keys states).1 hmem)

theorem Inlines.eq_nil_of_kind {node : Node} (h : workspace.Inlines locked id map)
    (hnode : workspace.graph.node? id = some node) (hkind : node.kind ≠ .model) : map = [] := by
  rw [h.eq_nil_iff]
  intro keys states hwalk
  rcases hwalk.isExpanded with ⟨content, hcontent, _⟩
  cases hnode.symm.trans hcontent
  exact hkind rfl

theorem inlines_properties {mode : Mode} {properties : List (Property NodeId)}
    {expanded : List (Property Expansion)}
    (h : List.Forall₂ (ExpandsProperty workspace.graph mode
      (fun part result => workspace.Inlines true part result.restrictions)) properties expanded) :
    ∃ pairs : List (Property NodeId × VisibilityMap), pairs.map Prod.fst = properties ∧
      (∀ pair ∈ pairs, workspace.Inlines true pair.1.type pair.2) ∧
        Expansion.propertyRestrictions expanded =
          pairs.flatMap (fun pair => ofProperty pair.1.name pair.1.visibility pair.2) := by
  induction h with
  | nil => exact ⟨[], rfl, by simp, rfl⟩
  | @cons property result properties results hfirst _ ih =>
    rcases ih with ⟨pairs, hpairs, hinlines, hmap⟩
    rcases hfirst with ⟨hname, _, hvisibility, htype⟩
    have hresult : workspace.Inlines true property.type result.type.restrictions := by
      rcases htype with hrelated | ⟨_, hnever, hresult⟩
      · exact hrelated
      · rw [hresult]
        exact .other true property.type _ hnever (by simp [Node.kind])
    refine ⟨(property, result.type.restrictions) :: pairs, by simp [hpairs], ?_, ?_⟩
    · intro pair hpair
      rcases List.mem_cons.1 hpair with rfl | hpair
      · exact hresult
      · exact hinlines pair hpair
    · rw [Expansion.propertyRestrictions, hmap, List.flatMap_cons, hname, hvisibility]

/-- The restrictions of an expansion are those that the graph has in place. -/
theorem inlines_of_expand {kinds : List String} (hlinked : workspace.graph.IsLinked kinds) {mode : Mode}
    {ancestry : List NodeId} {expansion : Expansion}
    (h : (workspace.expand mode locked ancestry id).outcome = .ok expansion) :
    workspace.Inlines locked id expansion.restrictions := by
  refine expand_induct (motive := fun locked id expansion =>
    workspace.Inlines locked id expansion.restrictions) ?_ ?_ h
  · intro id node entry hnode hentry
    exact .referred id node entry hnode hentry
  · intro locked id node expansion hnode hregistered hyields
    have hother : node.kind ≠ .model → workspace.Inlines locked id [] := .other locked id node hnode
    cases hyields with
    | primitive | enumeration | member | mapped | terminal | unresolved | tuple | union =>
      exact hother (by simp [Node.kind])
    | derived content base expanded _ hbase hexpanded =>
      -- A scalar only extends scalars, and these hold no properties.
      rcases (hlinked.fits id _ hnode).supported base (Scalar.base_of_deferredTo? hbase) with ⟨_, hscalar⟩
      have hnone : expanded.restrictions = [] := hexpanded.2.eq_nil_of_kind hscalar (by simp [Node.kind])
      rw [Expansion.restrictions, hnone]
      exact hother (by simp [Node.kind])
    | indexed content kind element expanded hkind helement hexpanded =>
      cases kind with
      | array => exact .array locked id element content _ ⟨hnode, hregistered⟩ hkind helement hexpanded.2
      | record => exact .record locked id element content _ ⟨hnode, hregistered⟩ hkind helement hexpanded.2
    | model content base properties hkind hbase hproperties =>
      rcases inlines_properties (hproperties.imp (fun property result hpair =>
        ⟨hpair.1, hpair.2.1, hpair.2.2.1, hpair.2.2.2.imp_left And.right⟩)) with ⟨pairs, hpairs, hinlines, hmap⟩
      generalize hfound : content.base = found at hbase
      cases hbase with
      | none =>
        have hshaped := Inlines.shaped locked id content [] pairs ⟨hnode, hregistered⟩ hkind (fun _ => rfl)
          (by simp [hfound]) hpairs hinlines
        rw [Expansion.restrictions, hmap]
        exact hshaped
      | @some extended expanded hexpanded =>
        have hshaped := Inlines.shaped locked id content expanded.restrictions pairs ⟨hnode, hregistered⟩ hkind
          (by simp [hfound])
          (fun other hother => by
            cases hfound.symm.trans hother
            exact hexpanded.2)
          hpairs hinlines
        rw [Expansion.restrictions, hmap]
        exact hshaped

end Workspace

/-- The visibility map of a type holds the restrictions of what is written in place, and nothing else: for a
model those of its base first, then those of its properties in their order. -/
theorem resolve_restrictions {text : String} {graph : Graph} {registry : Registry}
    (hgraph : Graph.ofText text = .ok graph) (hvalid : graph.validate = .ok ())
    (hregistry : Registry.ofGraph graph = .ok registry) (config : Config) (id : NodeId) (context : Context)
    {resolution : Resolution}
    (h : (Workspace.resolve ⟨graph, registry, config⟩ .type id context).outcome = .ok resolution) :
    let workspace : Workspace := ⟨graph, registry, config⟩
    workspace.Inlines context.locked id resolution.restrictions ∧
      (∀ keys states, (keys, states) ∈ VisibilityMap.paths resolution.restrictions ↔
        workspace.Restricts context.locked id keys states) ∧
      (resolution.restrictions = [] ↔ ∀ keys states, ¬ workspace.Restricts context.locked id keys states) := by
  intro workspace
  rcases Workspace.isSound_of_accepted hgraph hvalid hregistry config with ⟨kinds, hsound⟩
  rcases Workspace.resolve_ok h with ⟨expansion, hexpansion, rfl⟩
  have hinlines := Workspace.inlines_of_expand hsound.linked hexpansion
  exact ⟨hinlines, hinlines.mem_paths_iff, hinlines.eq_nil_iff⟩

namespace Sample
open Draft Markup Text

/-- Restrictions inside a record of lists and inside a variant. -/
def nestedText : String :=
  String.join
    ["<schema><namespace name=\"A\"><model name=\"M\">", "<property name=\"log\"><record><array><model>",
      "<property name=\"pin\" type=\"null\" visibility=\"read\"/>", "</model></array></record></property>",
      "<property name=\"choice\"><union><model>", "<property name=\"a\" type=\"null\" visibility=\"create\"/>",
      "</model><ref type=\"null\"/></union></property>", "</model></namespace></schema>"]

def nestedGraph : Graph where
  nodes := #[.model { decl := { name := some "M", scope := ["A"] },
                      properties := [{ name := "log", type := 4 }, { name := "choice", type := 8 }] },
             .primitive (.intrinsic .null),
             .model { decl := {},
                      properties := [{ name := "pin", type := 1, visibility := some { read := true } }] },
             .model (Model.ofElement .array 2),
             .model (Model.ofElement .record 3),
             .primitive (.intrinsic .null),
             .model { decl := {},
                      properties := [{ name := "a", type := 5, visibility := some { create := true } }] },
             .primitive (.intrinsic .null),
             .union ⟨{}, [6, 7]⟩]
  declarations := [0]
  names := [("A.M", 0)]

def nestedWorkspace : Workspace := ⟨nestedGraph, restrictedRegistry, {}⟩

def pinTree : Tree := ⟨"property", [⟨"name", "pin"⟩, ⟨"type", "null"⟩, ⟨"visibility", "read"⟩], []⟩

def pinned : Property Form := { name := "pin", type := .named "null", visibility := some { read := true } }

def variantTree : Tree := ⟨"property", [⟨"name", "a"⟩, ⟨"type", "null"⟩, ⟨"visibility", "create"⟩], []⟩

def varied : Property Form := { name := "a", type := .named "null", visibility := some { create := true } }

def logTree : Tree := ⟨"record", [], [⟨"array", [], [⟨"model", [], [pinTree]⟩]⟩]⟩

def choiceTree : Tree := ⟨"union", [], [⟨"model", [], [variantTree]⟩, ⟨"ref", [⟨"type", "null"⟩], []⟩]⟩

def nestedTree : Tree :=
  ⟨"schema", [], [⟨"namespace", [⟨"name", "A"⟩], [⟨"model", [⟨"name", "M"⟩],
    [⟨"property", [⟨"name", "log"⟩], [logTree]⟩, ⟨"property", [⟨"name", "choice"⟩], [choiceTree]⟩]⟩]⟩]⟩

def nestedDraft : Draft :=
  ⟨[], ⟨[⟨"M", ["A"], none, .model none
    [{ name := "log", type := .indexed .record (.indexed .array (.model [pinned])) },
      { name := "choice", type := .union [.model [varied], .named "null"] }]⟩], []⟩⟩

theorem writesSchema_nestedTree : WritesSchema nestedTree nestedDraft := by
  have hpin : WritesProperty pinTree pinned :=
    .intro rfl (.named rfl) (WritesFlag.absent rfl) (.some (WritesVisibility.one .read (by decide)))
  have hvariant : WritesProperty variantTree varied :=
    .intro rfl (.named rfl) (WritesFlag.absent rfl) (.some (WritesVisibility.one .create (by decide)))
  have hlog : WritesForm logTree (.indexed .record (.indexed .array (.model [pinned]))) :=
    .record (.nested rfl (.array (.nested rfl (.model (.cons hpin .nil)))))
  have hchoice : WritesForm choiceTree (.union [.model [varied], .named "null"]) :=
    .union (.cons (.model (.cons hvariant .nil)) (.cons (.reference (.inl rfl) rfl) .nil))
  have hlogged : WritesProperty ⟨"property", [⟨"name", "log"⟩], [logTree]⟩ _ :=
    .intro rfl (.nested rfl hlog) (WritesFlag.absent rfl) .none
  have hchosen : WritesProperty ⟨"property", [⟨"name", "choice"⟩], [choiceTree]⟩ _ :=
    .intro rfl (.nested rfl hchoice) (WritesFlag.absent rfl) .none
  have hmodel : WritesItem ["A"] ⟨"model", [⟨"name", "M"⟩], _⟩ ⟨[⟨"M", ["A"], none, .model none _⟩], []⟩ :=
    .declaration (.intro rfl (.model (.cons hlogged (.cons hchosen .nil))))
  exact .intro (.cons rfl (WritesItem.outermost (by decide) (.cons hmodel .nil)) .nil)

theorem ofText_nestedText : Graph.ofText nestedText = .ok nestedGraph := by
  have hlog : Tree.Tags ⟨"property", [⟨"name", "log"⟩], [logTree]⟩ _ :=
    .pair _ _ (.cons (.pair _ _ (.cons (.pair _ _ (.cons (.pair _ _ (.cons (.empty _ _) .nil)) .nil)) .nil)) .nil)
  have hchoice : Tree.Tags ⟨"property", [⟨"name", "choice"⟩], [choiceTree]⟩ _ :=
    .pair _ _ (.cons (.pair _ _ (.cons (.pair _ _ (.cons (.empty _ _) .nil)) (.cons (.empty _ _) .nil))) .nil)
  have hmodel : Tree.Tags ⟨"model", [⟨"name", "M"⟩], _⟩ _ := .pair _ _ (.cons hlog (.cons hchoice .nil))
  have htext : nestedText.toList = _ := toList_join [_, _, _, _, _, _, _, _] rfl
  have htree : nestedTree.WrittenIn nestedText :=
    .of_tags htext (by decide)
      (.pair _ _ (.cons (.pair _ _ (.cons hmodel .nil)) .nil)) (by decide +kernel)
  exact (Graph.ofText_of_tree htree writesSchema_nestedTree).trans (by decide +kernel)

theorem validate_nestedGraph : nestedGraph.validate = .ok () := by decide

theorem ofGraph_nestedGraph : Registry.ofGraph nestedGraph = .ok restrictedRegistry := by decide

end Sample

/-- A restriction inside a record of lists is in the map of the model around it, one inside a variant is not. -/
theorem resolve_restrictions_nestedText :
    ∃ resolution, (Sample.nestedWorkspace.resolve .type 0 (.ofScope ["A"])).outcome = .ok resolution ∧
      Sample.nestedWorkspace.Restricts false 0 ["log", "*", "pin"] { read := true } ∧
      ¬ Sample.nestedWorkspace.Restricts false 0 ["choice", "a"] { create := true } := by
  have hpaths : ((Sample.nestedWorkspace.resolve .type 0 (.ofScope ["A"])).outcome.toOption.map
      (fun resolution => VisibilityMap.paths resolution.restrictions)) =
        some [(["log", "*", "pin"], { read := true })] := by
    decide +kernel
  cases hresolution : (Sample.nestedWorkspace.resolve .type 0 (.ofScope ["A"])).outcome with
  | error error =>
    rw [hresolution] at hpaths
    cases hpaths
  | ok resolution =>
    rw [hresolution] at hpaths
    have hmap : VisibilityMap.paths resolution.restrictions = _ := Option.some.inj hpaths
    have hiff := (resolve_restrictions Sample.ofText_nestedText Sample.validate_nestedGraph
      Sample.ofGraph_nestedGraph {} 0 (.ofScope ["A"]) hresolution).2.1
    simp only [hmap] at hiff
    exact ⟨resolution, rfl, (hiff _ _).1 (by decide), fun hwalk => absurd ((hiff _ _).2 hwalk) (by decide)⟩

end SchemaGuards

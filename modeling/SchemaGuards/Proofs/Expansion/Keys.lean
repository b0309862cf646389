import Mathlib.Data.List.Nodup
import SchemaGuards.Proofs.Expansion.Inlining
import SchemaGuards.Proofs.Linking.Numerals
import SchemaGuards.Proofs.Linking.Valid

/-!
# The keys of visibility maps

A visibility map and every map nested in it stand for a place of the graph: a model or a record that is written
in full. The map of a model has one key for every restricted property, its own and those of the bases that are
written in full. So keys are distinct exactly when the names of these properties are, and the star is only
ever a record's exactly when none of them has it for a name.
-/
namespace SchemaGuards

namespace VisibilityMap

def keys (map : VisibilityMap) : List String := map.map VisibilityEntry.key

/-- A map, or one that is nested in it at any depth. -/
inductive Within : VisibilityMap → VisibilityMap → Prop
  | here (map : VisibilityMap) : Within map map
  | nested {map inner : VisibilityMap} {entry : VisibilityEntry} (hentry : entry ∈ map)
    (h : Within inner entry.nested) : Within inner map

theorem within_nil {inner : VisibilityMap} : Within inner [] ↔ inner = [] := by
  constructor
  · rintro (_ | ⟨hentry, _⟩)
    · rfl
    · cases hentry
  · rintro rfl
    exact .here []

variable {key : String} {states : Option LifecycleSet} {nested : VisibilityMap}

theorem ofProperty_eq (key : String) (states : Option LifecycleSet) (nested : VisibilityMap) :
    ofProperty key states nested = if states = none ∧ nested = [] then [] else [⟨key, states, nested⟩] := by
  rw [ofProperty, push]
  cases states <;> cases nested <;> rfl

theorem mem_ofProperty {entry : VisibilityEntry} :
    entry ∈ ofProperty key states nested ↔ ¬ (states = none ∧ nested = []) ∧ entry = ⟨key, states, nested⟩ := by
  rw [ofProperty_eq]
  split
  · next h => simp [h]
  · next h => simp [h]

/-- With distinct keys, looking up a key finds the one entry that has it. -/
theorem get?_of_nodup {map : VisibilityMap} (h : map.keys.Nodup) {entry : VisibilityEntry} (hentry : entry ∈ map) :
    map.get? entry.key = some entry ∧ ∀ other ∈ map, other.key = entry.key → other = entry := by
  have honly : ∀ other ∈ map, other.key = entry.key → other = entry :=
    fun other hother heq => List.inj_on_of_nodup_map h hother hentry heq
  refine ⟨?_, honly⟩
  cases hfound : map.get? entry.key with
  | none =>
    have hnone := List.find?_eq_none.1 hfound entry hentry
    simp at hnone
  | some other =>
    rw [get?] at hfound
    have hkey : other.key = entry.key := by simpa using List.find?_some hfound
    rw [honly other (List.mem_of_find?_eq_some hfound) hkey]

end VisibilityMap

def Node.ownProperties : Node → List (Property NodeId)
  | .model content => content.properties
  | _ => []

namespace Workspace
open VisibilityMap

/-- The properties that share one map: those of a model that is written in full, behind the ones of its base. -/
inductive Merges (workspace : Workspace) : Bool → NodeId → List (Property NodeId) → Prop
  /-- A base that is referred to has a map of its own elsewhere. -/
  | referred (id : NodeId) (node : Node) (entry : Entry) (hnode : workspace.graph.node? id = some node)
    (hentry : workspace.registered? node = some entry) : Merges workspace true id []
  | shaped (locked : Bool) (id : NodeId) (content : Model) (base : List (Property NodeId))
    (hid : workspace.IsExpanded locked id (.model content)) (hkind : content.indexed? = none)
    (hroot : content.base = none → base = [])
    (hbase : ∀ extended, content.base = some extended → Merges workspace true extended base) :
    Merges workspace locked id (base ++ content.properties)

/-- The second place is written in place below the first one, and restrictions below it are restrictions there. -/
inductive Encloses (workspace : Workspace) : Bool → NodeId → Bool → NodeId → Prop
  | here (locked : Bool) (id : NodeId) : Encloses workspace locked id locked id
  | property {locked inner : Bool} {id place : NodeId} {properties : List (Property NodeId)}
    {property : Property NodeId} (hmerges : workspace.Merges locked id properties)
    (hproperty : property ∈ properties) (h : Encloses workspace true property.type inner place) :
    Encloses workspace locked id inner place
  | element {locked inner : Bool} {id place element : NodeId} {content : Model} {kind : Indexed}
    (hid : workspace.IsExpanded locked id (.model content)) (hkind : content.indexed? = some kind)
    (helement : content.indexer = some element) (h : Encloses workspace true element inner place) :
    Encloses workspace locked id inner place

/-- A property with an entry in the map of its model: it is restricted, or something inside its type is. -/
def IsRestrictive (workspace : Workspace) (property : Property NodeId) : Prop :=
  property.visibility ≠ none ∨ ∃ keys states, workspace.Restricts true property.type keys states

def AreNamedApart (workspace : Workspace) (properties : List (Property NodeId)) : Prop :=
  properties.Pairwise (fun property other =>
    workspace.IsRestrictive property → workspace.IsRestrictive other → property.name ≠ other.name)

/-- A record that is written in full, or a list of such, whose map is that of its elements. -/
inductive IsRecord (workspace : Workspace) : Bool → NodeId → Prop
  | record (locked : Bool) (id : NodeId) (content : Model) (hid : workspace.IsExpanded locked id (.model content))
    (hkind : content.indexed? = some .record) : IsRecord workspace locked id
  | array (locked : Bool) (id element : NodeId) (content : Model)
    (hid : workspace.IsExpanded locked id (.model content)) (hkind : content.indexed? = some .array)
    (helement : content.indexer = some element) (h : IsRecord workspace true element) : IsRecord workspace locked id

variable {workspace : Workspace} {locked inner : Bool} {id place : NodeId} {map : VisibilityMap}
  {properties : List (Property NodeId)}

theorem Encloses.trans {last : Bool} {other : NodeId} (h : workspace.Encloses locked id inner place)
    (h' : workspace.Encloses inner place last other) : workspace.Encloses locked id last other := by
  induction h with
  | here => exact h'
  | property hmerges hproperty _ ih => exact .property hmerges hproperty (ih h')
  | element hid hkind helement _ ih => exact .element hid hkind helement (ih h')

theorem Merges.not_isRecord (h : workspace.Merges locked id properties) {property : Property NodeId}
    (hproperty : property ∈ properties) : ¬ workspace.IsRecord locked id := by
  intro hrecord
  cases h with
  | referred => cases hproperty
  | shaped _ _ content _ hid hkind =>
    cases hrecord with
    | record _ _ other hother hindexed | array _ _ _ other hother hindexed =>
      cases hid.node_eq hother
      cases hkind.symm.trans hindexed

theorem Merges.exists_model (h : workspace.Merges locked id properties) {property : Property NodeId}
    (hproperty : property ∈ properties) :
    ∃ place node, workspace.graph.node? place = some node ∧ property ∈ node.ownProperties := by
  induction h with
  | referred => cases hproperty
  | shaped locked id content base hid _ hroot _ ih =>
    rcases List.mem_append.1 hproperty with hbase | hown
    · cases hextended : content.base with
      | none =>
        rw [hroot hextended] at hbase
        cases hbase
      | some extended => exact ih extended hextended hbase
    · exact ⟨id, .model content, hid.1, hown⟩

/-- The maps of the merged properties, of which the map of their model is made. -/
structure IsMadeOf (workspace : Workspace) (map : VisibilityMap)
    (pairs : List (Property NodeId × VisibilityMap)) : Prop where
  types : ∀ pair ∈ pairs, workspace.Inlines true pair.1.type pair.2
  map_eq : map = pairs.flatMap (fun pair => ofProperty pair.1.name pair.1.visibility pair.2)

def ExtendsShaped (workspace : Workspace) : Prop :=
  ∀ id content extended, workspace.graph.node? id = some (.model content) → content.base = some extended →
    ∃ base, workspace.graph.node? extended = some (.model base) ∧ base.indexed? = none

/-- What may be said of a property and its map may be said of the property in the graph. -/
theorem isRestrictive_iff {property : Property NodeId} {nested : VisibilityMap}
    (h : workspace.Inlines true property.type nested) :
    workspace.IsRestrictive property ↔ ¬ (property.visibility = none ∧ nested = []) := by
  rw [IsRestrictive, h.eq_nil_iff, not_and_or, not_forall]
  simp only [not_forall, not_not]

/-- The map of a place with merged properties is made of their maps. -/
theorem Merges.isMadeOf (h : workspace.Merges locked id properties) :
    ∀ map, workspace.Inlines locked id map →
      ∃ pairs, pairs.map Prod.fst = properties ∧ workspace.IsMadeOf map pairs := by
  induction h with
  | referred id node entry hnode hentry =>
    intro map hmap
    refine ⟨[], rfl, by simp, ?_⟩
    rw [List.flatMap_nil, hmap.eq_nil_iff]
    intro keys states hwalk
    rcases hwalk.isExpanded with ⟨content, hcontent, hregistered⟩
    cases hnode.symm.trans hcontent
    cases (hregistered rfl).symm.trans hentry
  | shaped locked id content base hid hkind hroot _ ih =>
    intro map hmap
    cases hmap with
    | referred _ node entry hnode hentry =>
      cases hid.1.symm.trans hnode
      cases (hid.2 rfl).symm.trans hentry
    | other _ _ node hnode hnot =>
      cases hid.1.symm.trans hnode
      exact absurd rfl hnot
    | array _ _ _ other _ hother hindexed | record _ _ _ other _ hother hindexed =>
      cases hid.node_eq hother
      cases hkind.symm.trans hindexed
    | shaped _ _ other baseMap own hother _ hrootMap hbaseMap hown htypes =>
      cases hid.node_eq hother
      cases hextended : content.base with
      | none =>
        refine ⟨own, by rw [hroot hextended, hown, List.nil_append], htypes, ?_⟩
        rw [hrootMap hextended, List.nil_append]
      | some extended =>
        rcases ih extended hextended baseMap (hbaseMap extended hextended) with ⟨pairs, hpairs, hmade⟩
        refine ⟨pairs ++ own, by rw [List.map_append, hpairs, hown], ?_, ?_⟩
        · intro pair hpair
          exact (List.mem_append.1 hpair).elim (hmade.types pair) (htypes pair)
        · rw [List.flatMap_append, ← hmade.map_eq]

/-- Every model that is written in full has merged properties. -/
theorem Inlines.exists_merges (hshaped : workspace.ExtendsShaped) (h : workspace.Inlines locked id map) :
    ∀ content, workspace.graph.node? id = some (.model content) → content.indexed? = none →
      ∃ properties, workspace.Merges locked id properties := by
  induction h with
  | referred id node entry hnode hentry => exact fun _ _ _ => ⟨[], .referred id node entry hnode hentry⟩
  | other _ _ node hnode hnot =>
    intro content hcontent
    cases hnode.symm.trans hcontent
    exact absurd rfl hnot
  | array _ _ _ other _ hid hindexed | record _ _ _ other _ hid hindexed =>
    intro content hcontent hkind
    cases hid.1.symm.trans hcontent
    cases hkind.symm.trans hindexed
  | shaped locked id content baseMap own hid hkind hroot _ _ _ ih =>
    intro _ _ _
    cases hextended : content.base with
    | none => exact ⟨_, .shaped locked id content [] hid hkind (fun _ => rfl) (by simp [hextended])⟩
    | some extended =>
      rcases hshaped id content extended hid.1 hextended with ⟨base, hbase, hplain⟩
      rcases ih extended hextended base hbase hplain with ⟨properties, hmerges⟩
      refine ⟨_, .shaped locked id content properties hid hkind (by simp [hextended]) ?_⟩
      rintro other hother
      cases hextended.symm.trans hother
      exact hmerges

section Made
variable {pairs : List (Property NodeId × VisibilityMap)}

theorem IsMadeOf.mem_iff (h : workspace.IsMadeOf map pairs) {entry : VisibilityEntry} :
    entry ∈ map ↔ ∃ pair ∈ pairs, workspace.IsRestrictive pair.1 ∧
      entry = ⟨pair.1.name, pair.1.visibility, pair.2⟩ := by
  rw [h.map_eq, List.mem_flatMap]
  refine exists_congr (fun pair => and_congr_right (fun hpair => ?_))
  rw [mem_ofProperty, isRestrictive_iff (h.types pair hpair)]

/-- The keys of a map are distinct when the names of the restrictive properties are. -/
theorem keys_flatMap_nodup_iff (h : ∀ pair ∈ pairs, workspace.Inlines true pair.1.type pair.2) :
    (keys (pairs.flatMap (fun pair => ofProperty pair.1.name pair.1.visibility pair.2))).Nodup ↔
      workspace.AreNamedApart (pairs.map Prod.fst) := by
  induction pairs with
  | nil => simp [keys, AreNamedApart]
  | cons pair rest ih =>
    have hrest := ih (fun other hother => h other (List.mem_cons_of_mem pair hother))
    have hfirst := isRestrictive_iff (h pair List.mem_cons_self)
    have hmem : ∀ name, name ∈ keys (rest.flatMap (fun pair => ofProperty pair.1.name pair.1.visibility pair.2)) ↔
        ∃ other ∈ rest, workspace.IsRestrictive other.1 ∧ other.1.name = name := by
      intro name
      have hmade : workspace.IsMadeOf _ rest := ⟨fun other hother => h other (List.mem_cons_of_mem pair hother), rfl⟩
      simp only [keys, List.mem_map, hmade.mem_iff]
      grind
    rw [List.flatMap_cons, ofProperty_eq, AreNamedApart, List.map_cons, List.pairwise_cons, ← AreNamedApart, ← hrest]
    split
    · next hnone =>
      have hnot : ¬ workspace.IsRestrictive pair.1 := fun hrestrictive => hfirst.1 hrestrictive hnone
      simp [hnot]
    · next hsome =>
      have hrestrictive := hfirst.2 hsome
      rw [List.singleton_append, keys, List.map_cons, List.nodup_cons, ← keys, hmem]
      refine and_congr_left (fun _ => ?_)
      simp only [List.mem_map, hrestrictive, true_imp_iff]
      grind

theorem IsMadeOf.keys_nodup_iff (h : workspace.IsMadeOf map pairs) :
    map.keys.Nodup ↔ workspace.AreNamedApart (pairs.map Prod.fst) := by
  rw [h.map_eq]
  exact keys_flatMap_nodup_iff h.types

end Made

/-- What is nested in the map of a place is the map of a place that it encloses. -/
theorem Inlines.nested (hshaped : workspace.ExtendsShaped) (h : workspace.Inlines locked id map) :
    ∀ entry ∈ map, ∃ place, workspace.Encloses locked id true place ∧ workspace.Inlines true place entry.nested := by
  induction h with
  | referred | other => simp
  | array locked id element content map hid hkind helement _ ih =>
    intro entry hentry
    rcases ih entry hentry with ⟨place, hplace, hnested⟩
    exact ⟨place, .element hid hkind helement hplace, hnested⟩
  | record locked id element content map hid hkind helement hmap _ =>
    intro entry hentry
    rcases mem_ofProperty.1 hentry with ⟨_, rfl⟩
    exact ⟨element, .element hid hkind helement (.here true element), hmap⟩
  | shaped locked id content base own hid hkind hroot hbase hown htypes _ _ =>
    intro entry hentry
    have hmap := Inlines.shaped locked id content base own hid hkind hroot hbase hown htypes
    rcases hmap.exists_merges hshaped content hid.1 hkind with ⟨properties, hmerges⟩
    rcases hmerges.isMadeOf _ hmap with ⟨pairs, rfl, hmade⟩
    rcases hmade.mem_iff.1 hentry with ⟨pair, hpair, _, rfl⟩
    exact ⟨pair.1.type, .property hmerges (List.mem_map_of_mem hpair) (.here _ _), hmade.types pair hpair⟩

/-- Every map within the map of a place is that of a place that it encloses. -/
theorem exists_place_of_within (hshaped : workspace.ExtendsShaped) {part : VisibilityMap} (hpart : Within part map) :
    ∀ locked id, workspace.Inlines locked id map →
      ∃ inner place, workspace.Encloses locked id inner place ∧ workspace.Inlines inner place part := by
  induction hpart with
  | here map => exact fun locked id hmap => ⟨locked, id, .here locked id, hmap⟩
  | nested hentry _ ih =>
    intro locked id hmap
    rcases hmap.nested hshaped _ hentry with ⟨place, hplace, hnested⟩
    rcases ih true place hnested with ⟨inner, last, hlast, hpart⟩
    exact ⟨inner, last, hplace.trans hlast, hpart⟩

theorem within_of_ofProperty {key : String} {states : Option LifecycleSet} {nested part : VisibilityMap}
    (hpart : part = [] ∨ Within part nested) (hmem : ofProperty key states nested ⊆ map) :
    part = [] ∨ Within part map := by
  rcases hpart with rfl | hpart
  · exact .inl rfl
  · by_cases hnested : nested = []
    · subst hnested
      exact .inl (within_nil.1 hpart)
    · refine .inr (.nested (hmem (mem_ofProperty.2 ⟨fun hnone => hnested hnone.2, rfl⟩)) hpart)

/-- Every enclosed place has a map, which is empty or within the map of the place around it. -/
theorem Encloses.exists_map (h : workspace.Encloses locked id inner place) :
    ∀ map, workspace.Inlines locked id map →
      ∃ part, workspace.Inlines inner place part ∧ (part = [] ∨ Within part map) := by
  induction h with
  | here => exact fun map hmap => ⟨map, hmap, .inr (.here map)⟩
  | property hmerges hproperty _ ih =>
    intro map hmap
    rcases hmerges.isMadeOf map hmap with ⟨pairs, rfl, hmade⟩
    rcases List.mem_map.1 hproperty with ⟨pair, hpair, rfl⟩
    rcases ih pair.2 (hmade.types pair hpair) with ⟨part, hpart, hwithin⟩
    have hsubset : ofProperty pair.1.name pair.1.visibility pair.2 ⊆ map := by
      rw [hmade.map_eq]
      exact fun entry hentry => List.mem_flatMap.2 ⟨pair, hpair, hentry⟩
    exact ⟨part, hpart, within_of_ofProperty hwithin hsubset⟩
  | element hid hkind helement _ ih =>
    intro map hmap
    cases hmap with
    | referred _ node entry hnode hentry =>
      cases hid.1.symm.trans hnode
      cases (hid.2 rfl).symm.trans hentry
    | other _ _ node hnode hnot =>
      cases hid.1.symm.trans hnode
      exact absurd rfl hnot
    | shaped _ _ other _ _ hother hplain =>
      cases hid.node_eq hother
      cases hkind.symm.trans hplain
    | array _ _ found other map hother _ hfound hmap =>
      cases hid.node_eq hother
      cases helement.symm.trans hfound
      exact ih map hmap
    | record _ _ found other map hother _ hfound hmap =>
      cases hid.node_eq hother
      cases helement.symm.trans hfound
      rcases ih map hmap with ⟨part, hpart, hwithin⟩
      exact ⟨part, hpart, within_of_ofProperty hwithin (List.Subset.refl _)⟩

/-- The maps of all enclosed places have distinct keys when all merged names are apart. -/
theorem Inlines.keys_nodup (hshaped : workspace.ExtendsShaped) (h : workspace.Inlines locked id map)
    (hapart : ∀ inner place properties, workspace.Encloses locked id inner place →
      workspace.Merges inner place properties → workspace.AreNamedApart properties) : map.keys.Nodup := by
  induction h with
  | referred | other => exact List.nodup_nil
  | array locked id element content map hid hkind helement _ ih =>
    refine ih (fun inner place properties hencloses => hapart inner place properties ?_)
    exact .element hid hkind helement hencloses
  | record locked id element content map =>
    rw [VisibilityMap.wildcard, ← ofProperty, ofProperty_eq]
    split <;> simp [keys]
  | shaped locked id content base own hid hkind hroot hbase hown htypes =>
    have hmap := Inlines.shaped locked id content base own hid hkind hroot hbase hown htypes
    rcases hmap.exists_merges hshaped content hid.1 hkind with ⟨properties, hmerges⟩
    rcases hmerges.isMadeOf _ hmap with ⟨pairs, rfl, hmade⟩
    exact hmade.keys_nodup_iff.2 (hapart locked id _ (.here locked id) hmerges)

/-- A star among the keys is a record's when no restrictive property has it for a name. -/
theorem Inlines.isRecord_of_wildcard (hshaped : workspace.ExtendsShaped) (h : workspace.Inlines locked id map)
    (hnames : ∀ inner place properties, workspace.Encloses locked id inner place →
      workspace.Merges inner place properties →
      ∀ property ∈ properties, workspace.IsRestrictive property → property.name ≠ wildcardKey)
    (hkey : wildcardKey ∈ map.keys) :
    workspace.IsRecord locked id ∧ ∃ nested, map = [⟨wildcardKey, none, nested⟩] := by
  induction h with
  | referred | other => cases hkey
  | array locked id element content map hid hkind helement _ ih =>
    have hinner := ih (fun inner place properties hencloses => hnames inner place properties
      (.element hid hkind helement hencloses)) hkey
    exact ⟨.array locked id element content hid hkind helement hinner.1, hinner.2⟩
  | record locked id element content map hid hkind =>
    refine ⟨.record locked id content hid hkind, map, ?_⟩
    have hsome : map ≠ [] := by
      rintro rfl
      cases hkey
    rw [VisibilityMap.wildcard, ← ofProperty, ofProperty_eq, if_neg (fun hnone => hsome hnone.2)]
  | shaped locked id content base own hid hkind hroot hbase hown htypes =>
    have hmap := Inlines.shaped locked id content base own hid hkind hroot hbase hown htypes
    rcases hmap.exists_merges hshaped content hid.1 hkind with ⟨properties, hmerges⟩
    rcases hmerges.isMadeOf _ hmap with ⟨pairs, rfl, hmade⟩
    rcases List.mem_map.1 hkey with ⟨entry, hentry, hname⟩
    rcases hmade.mem_iff.1 hentry with ⟨pair, hpair, hrestrictive, rfl⟩
    exact absurd hname
      (hnames locked id _ (.here locked id) hmerges pair.1 (List.mem_map_of_mem hpair) hrestrictive)

section Sound
variable {kinds : List String} (hsound : workspace.IsSound kinds) (hmade : workspace.graph.IsMade)
include hsound hmade

/-- What is extended is a declaration, and no declaration is indexed. -/
theorem extendsShaped : workspace.ExtendsShaped := by
  intro id content extended hnode hextended
  rcases (hsound.linked.fits id _ hnode).supported.1 extended hextended with ⟨base, hbase⟩
  have hdeclared : extended ∈ workspace.graph.declarations := hmade id _ hnode extended hextended
  exact ⟨base, hbase, hsound.linked.indexed?_of_declared hsound.valid hdeclared hbase⟩

/-- Without configured roots every base is referred to, so all names that share a map are those of one model. -/
theorem areNamedApart_of_roots_nil (hroots : workspace.graph.roots = []) (h : workspace.Merges locked id properties) :
    workspace.AreNamedApart properties := by
  cases h with
  | referred => exact .nil
  | shaped _ _ content base hid hkind hroot hbase =>
    have hnone : base = [] := by
      cases hextended : content.base with
      | none => exact hroot hextended
      | some extended =>
        have hdeclared : extended ∈ workspace.graph.declarations := hmade id _ hid.1 extended hextended
        rcases (hsound.linked.fits id _ hid.1).targets extended
          (by simp [Node.parts, Model.mentioned, hextended]) with ⟨node, hnode, hidentity⟩
        rcases Option.isSome_iff_exists.1 (hidentity hdeclared) with ⟨identity, hidentity⟩
        have hentry := hsound.lists.complete extended hdeclared node identity hnode hidentity
          (by simp [isRooted, hroots])
        cases hbase extended hextended with
        | referred => rfl
        | shaped _ _ other _ hother =>
          cases hnode.symm.trans hother.1
          have hunregistered := hother.2 rfl
          simp [registered?, hidentity, hentry] at hunregistered
    have hnames : (content.properties.map Property.name).Nodup :=
      (Model.validate_eq_ok.1 (Graph.validate_model hsound.valid hid.1)).2
    rw [hnone, List.nil_append, AreNamedApart]
    exact (List.pairwise_map.1 hnames).imp (fun hne _ _ => hne)

end Sound
end Workspace

open VisibilityMap in
/-- The maps of a resolution and what they stand for. Every map stands for an enclosed place, and no enclosed place
is left out. The keys of all of them are distinct exactly when no two restrictive properties that share a map have
the same name, and then looking up a key finds its one entry. A star is the only key of a record's map and never
a key of a model's exactly when no restrictive property has it for a name. Without configured roots no two keys of a
map are equal. -/
theorem resolve_keys {text : String} {graph : Graph} {registry : Registry} (hgraph : Graph.ofText text = .ok graph)
    (hvalid : graph.validate = .ok ()) (hregistry : Registry.ofGraph graph = .ok registry) (config : Config)
    (id : NodeId) (context : Context) {resolution : Resolution}
    (h : (Workspace.resolve ⟨graph, registry, config⟩ .type id context).outcome = .ok resolution) :
    let workspace : Workspace := ⟨graph, registry, config⟩
    let Encloses := workspace.Encloses context.locked id
    let AreDistinct := ∀ map, Within map resolution.restrictions → map.keys.Nodup
    (∀ map, Within map resolution.restrictions → ∃ locked place, Encloses locked place ∧
      workspace.Inlines locked place map) ∧
    (∀ locked place, Encloses locked place → ∃ map, workspace.Inlines locked place map ∧
      (map = [] ∨ Within map resolution.restrictions)) ∧
    (AreDistinct ↔ ∀ locked place properties, Encloses locked place → workspace.Merges locked place properties →
      workspace.AreNamedApart properties) ∧
    (AreDistinct → ∀ map, Within map resolution.restrictions → ∀ entry ∈ map,
      map.get? entry.key = some entry ∧ ∀ other ∈ map, other.key = entry.key → other = entry) ∧
    ((∀ locked place map, Encloses locked place → workspace.Inlines locked place map → wildcardKey ∈ map.keys →
        workspace.IsRecord locked place ∧ ∃ nested, map = [⟨wildcardKey, none, nested⟩]) ↔
      ∀ locked place properties, Encloses locked place → workspace.Merges locked place properties →
        ∀ property ∈ properties, workspace.IsRestrictive property → property.name ≠ wildcardKey) ∧
    (graph.roots = [] → AreDistinct) := by
  intro workspace Encloses AreDistinct
  obtain ⟨kinds, hsound⟩ := Workspace.isSound_of_accepted hgraph hvalid hregistry config
  have hmade : workspace.graph.IsMade := Graph.ofText_isMade hgraph
  have hshaped := Workspace.extendsShaped hsound hmade
  obtain ⟨expansion, hexpansion, rfl⟩ := Workspace.resolve_ok h
  have hinlines := Workspace.inlines_of_expand hsound.linked hexpansion
  have hplaces : ∀ map, Within map expansion.restrictions → ∃ locked place, Encloses locked place ∧
      workspace.Inlines locked place map :=
    fun map hmap => Workspace.exists_place_of_within hshaped hmap context.locked id hinlines
  have hmaps : ∀ locked place, Encloses locked place → ∃ map, workspace.Inlines locked place map ∧
      (map = [] ∨ Within map expansion.restrictions) :=
    fun locked place hplace => hplace.exists_map expansion.restrictions hinlines
  have hdistinct : AreDistinct ↔ ∀ locked place properties, Encloses locked place →
      workspace.Merges locked place properties → workspace.AreNamedApart properties := by
    constructor
    · intro hall locked place properties hplace hmerges
      obtain ⟨map, hmap, hwithin⟩ := hmaps locked place hplace
      obtain ⟨pairs, rfl, hpairs⟩ := hmerges.isMadeOf map hmap
      rw [← hpairs.keys_nodup_iff]
      rcases hwithin with rfl | hwithin
      · exact List.nodup_nil
      · exact hall map hwithin
    · intro hapart map hmap
      obtain ⟨locked, place, hplace, hinner⟩ := hplaces map hmap
      exact hinner.keys_nodup hshaped (fun inner other properties hother =>
        hapart inner other properties (hplace.trans hother))
  refine ⟨hplaces, hmaps, hdistinct, ?_, ?_, ?_⟩
  · exact fun hall map hmap entry hentry => get?_of_nodup (hall map hmap) hentry
  · constructor
    · intro hrecords locked place properties hplace hmerges property hproperty hrestrictive hname
      obtain ⟨map, hmap, -⟩ := hmaps locked place hplace
      obtain ⟨pairs, rfl, hpairs⟩ := hmerges.isMadeOf map hmap
      obtain ⟨pair, hpair, rfl⟩ := List.mem_map.1 hproperty
      have hentry := hpairs.mem_iff.2 ⟨pair, hpair, hrestrictive, rfl⟩
      exact hmerges.not_isRecord hproperty
        (hrecords locked place map hplace hmap (List.mem_map.2 ⟨_, hentry, hname⟩)).1
    · intro hnames locked place map hplace hmap hkey
      exact hmap.isRecord_of_wildcard hshaped (fun inner other properties hother =>
        hnames inner other properties (hplace.trans hother)) hkey
  · exact fun hroots => hdistinct.2 (fun locked place properties _ hmerges =>
      Workspace.areNamedApart_of_roots_nil hsound hmade hroots hmerges)

/-- Without configured roots, keys are distinct, and the star in a record of lists is the record's. -/
theorem resolve_keys_nestedText :
    ∃ resolution, (Sample.nestedWorkspace.resolve .type 0 (.ofScope ["A"])).outcome = .ok resolution ∧
      resolution.restrictions.keys = ["log"] ∧
      (∀ map, VisibilityMap.Within map resolution.restrictions → map.keys.Nodup) ∧
      ∀ locked place map, Sample.nestedWorkspace.Encloses false 0 locked place →
        Sample.nestedWorkspace.Inlines locked place map → VisibilityMap.wildcardKey ∈ map.keys →
        Sample.nestedWorkspace.IsRecord locked place := by
  have hany : (Sample.nestedWorkspace.resolve .type 0 (.ofScope ["A"])).outcome.toOption.any
      (fun resolution => resolution.restrictions.keys = ["log"]) = true := by decide +kernel
  obtain ⟨resolution, hresolution, hkeys⟩ := exists_ok_of_any hany
  obtain ⟨-, -, -, -, hwildcard, hdistinct⟩ := resolve_keys Sample.ofText_nestedText Sample.validate_nestedGraph
    Sample.ofGraph_nestedGraph {} 0 (.ofScope ["A"]) hresolution
  have hnames : ∀ node ∈ Sample.nestedGraph.nodes.toList, ∀ property ∈ node.ownProperties,
      property.name ≠ VisibilityMap.wildcardKey := by decide
  refine ⟨resolution, hresolution, hkeys, hdistinct rfl, fun locked place map hplace hmap hkey =>
    (hwildcard.2 ?_ locked place map hplace hmap hkey).1⟩
  intro _ _ properties _ hmerges property hproperty _
  obtain ⟨id, node, hnode, hmem⟩ := hmerges.exists_model hproperty
  exact hnames _ (Array.mem_toList_iff.2 (Array.mem_of_getElem? hnode)) property hmem

namespace Sample
open Draft Markup Text

/-- A model extends one outside of the configured root, and both restrict a property of the same name. -/
def repeatedText : String :=
  "<schema rootNamespaces=\"A\"><namespace name=\"A\"><model name=\"M\" base=\"B.N\">" ++
    "<property name=\"id\" type=\"string\" visibility=\"read\"/></model></namespace><namespace name=\"B\">" ++
    "<model name=\"N\"><property name=\"id\" type=\"string\" visibility=\"read\"/></model></namespace></schema>"

def repeatedGraph : Graph where
  roots := ["A"]
  nodes := #[.model { decl := { name := some "M", scope := ["A"] },
                      properties := [{ name := "id", type := 2, visibility := some { read := true } }],
                      base := some 1 },
             .model { decl := { name := some "N", scope := ["B"] },
                      properties := [{ name := "id", type := 2, visibility := some { read := true } }] },
             .scalar ⟨{ name := some "string", scope := builtinScope }, none⟩]
  declarations := [0, 1]
  names := [("B.N", 1), ("A.M", 0)]

def identified : Property Form := { name := "id", type := .named "string", visibility := some { read := true } }

def identifiedTree : Tree := ⟨"property", [⟨"name", "id"⟩, ⟨"type", "string"⟩, ⟨"visibility", "read"⟩], []⟩

def repeatedTree : Tree :=
  ⟨"schema", [⟨"rootNamespaces", "A"⟩],
    [⟨"namespace", [⟨"name", "A"⟩], [⟨"model", [⟨"name", "M"⟩, ⟨"base", "B.N"⟩], [identifiedTree]⟩]⟩,
      ⟨"namespace", [⟨"name", "B"⟩], [⟨"model", [⟨"name", "N"⟩], [identifiedTree]⟩]⟩]⟩

def repeatedDraft : Draft :=
  ⟨["A"], ⟨[⟨"M", ["A"], none, .model (some "B.N") [identified]⟩, ⟨"N", ["B"], none, .model none [identified]⟩], []⟩⟩

theorem writesSchema_repeatedTree : WritesSchema repeatedTree repeatedDraft := by
  have hroots : readRoots [⟨"rootNamespaces", "A"⟩] = ["A"] := by decide
  have hproperty : WritesProperty identifiedTree identified :=
    .intro rfl (.named rfl) (WritesFlag.absent rfl) (.some (WritesVisibility.one .read (by decide)))
  have hmodel : WritesItem ["A"] ⟨"model", [⟨"name", "M"⟩, ⟨"base", "B.N"⟩], _⟩
      ⟨[⟨"M", ["A"], none, .model (some "B.N") _⟩], []⟩ := .declaration (.intro rfl (.model (.cons hproperty .nil)))
  have hbase : WritesItem ["B"] ⟨"model", [⟨"name", "N"⟩], _⟩ ⟨[⟨"N", ["B"], none, .model none _⟩], []⟩ :=
    .declaration (.intro rfl (.model (.cons hproperty .nil)))
  have hschema : WritesSchema repeatedTree ⟨readRoots [⟨"rootNamespaces", "A"⟩], repeatedDraft.contents⟩ :=
    .intro (.cons rfl (WritesItem.outermost (by decide) (.cons hmodel .nil))
      (.cons rfl (WritesItem.outermost (by decide) (.cons hbase .nil)) .nil))
  rwa [hroots] at hschema

theorem ofText_repeatedText : Graph.ofText repeatedText = .ok repeatedGraph := by
  have hmodel : ∀ attributes, Tree.Tags ⟨"model", attributes, [identifiedTree]⟩ _ :=
    fun attributes => .pair _ _ (.cons (.empty _ _) .nil)
  have htree : repeatedTree.WrittenIn repeatedText :=
    .of_tags (toList_append (toList_append (toList_literal rfl) (toList_literal rfl)) (toList_literal rfl)) (by decide)
      (.pair _ _ (.cons (.pair _ _ (.cons (hmodel _) .nil)) (.cons (.pair _ _ (.cons (hmodel _) .nil)) .nil)))
      (by decide +kernel)
  exact (Graph.ofText_of_tree htree writesSchema_repeatedTree).trans (by decide +kernel)

end Sample

/-- The map of the model has the key of its own property and that of its base. -/
theorem resolve_repeatedText :
    ∃ graph registry resolution, Graph.ofText Sample.repeatedText = .ok graph ∧ graph.validate = .ok () ∧
      Registry.ofGraph graph = .ok registry ∧
      (Workspace.resolve ⟨graph, registry, {}⟩ .type 0 (.ofScope ["A"])).outcome = .ok resolution ∧
      resolution.restrictions.keys = ["id", "id"] := by
  have hany : (Workspace.resolve ⟨Sample.repeatedGraph, Sample.restrictedRegistry, {}⟩ .type 0
      (.ofScope ["A"])).outcome.toOption.any (fun resolution =>
        resolution.restrictions.keys = ["id", "id"]) = true := by decide +kernel
  obtain ⟨resolution, hresolution, hkeys⟩ := exists_ok_of_any hany
  exact ⟨Sample.repeatedGraph, Sample.restrictedRegistry, resolution, Sample.ofText_repeatedText, by decide, by decide,
    hresolution, hkeys⟩

end SchemaGuards

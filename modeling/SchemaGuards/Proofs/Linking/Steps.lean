import SchemaGuards.Proofs.Linking.Linked

/-!
# Linking steps

A linker is sound when its graph is linked and its built-in scalars are scalars that nobody declared.
Every step that links a type keeps a sound linker sound, lets its graph grow, and gives a place that
may be mentioned.
-/
namespace SchemaGuards.Draft

mutual
def Form.unsupportedKinds : Form → List String
  | .named _ => []
  | .indexed _ element => element.unsupportedKinds
  | .tuple elements => formsKinds elements
  | .union variants => formsKinds variants
  | .model properties => propertiesKinds properties
  | .literal _ => []
  | .unsupported kind => [kind]
termination_by structural form => form

def formsKinds : List Form → List String
  | [] => []
  | form :: rest => form.unsupportedKinds ++ formsKinds rest

def propertyKinds : Property Form → List String
  | ⟨_, type, _, _, _⟩ => type.unsupportedKinds

def propertiesKinds : List (Property Form) → List String
  | [] => []
  | property :: rest => propertyKinds property ++ propertiesKinds rest
end

namespace Linker

structure IsSound (linker : Linker) (kinds : List String) : Prop where
  linked : linker.graph.IsLinked kinds
  builtins : ∀ name id, linker.builtins.lookup name = some id →
    id ∉ linker.graph.declarations ∧ ∃ content, linker.graph.node? id = some (.scalar content)

/-- What a linking step makes of a sound linker. -/
structure Advances (linker later : Linker) (kinds : List String) : Prop where
  sound : later.IsSound kinds
  grows : linker.graph.Grows later.graph

variable {linker middle later : Linker} {kinds : List String}

theorem IsSound.stay (h : linker.IsSound kinds) : linker.Advances linker kinds := ⟨h, .refl _⟩

theorem Advances.trans (h : linker.Advances middle kinds) (h' : middle.Advances later kinds) :
    linker.Advances later kinds :=
  ⟨h'.sound, h.grows.trans h'.grows⟩

/-- A grown graph that is linked keeps a linker sound. -/
theorem IsSound.advance (h : linker.IsSound kinds) {graph : Graph} (hlinked : graph.IsLinked kinds)
    (hgrows : linker.graph.Grows graph) : linker.Advances { linker with graph } kinds := by
  refine ⟨⟨hlinked, ?_⟩, hgrows⟩
  intro name id hid
  rcases h.builtins name id hid with ⟨hnot, content, hcontent⟩
  refine ⟨?_, hgrows.scalar hcontent⟩
  rw [hgrows.declarations_eq]
  exact hnot

end Linker

namespace Linking
open Linker

variable {α β : Type} {linker later : Linker} {kinds : List String}

theorem bind_ok {first : Linking α} {next : α → Linking β} {result : β × Linker}
    (h : (first >>= next) linker = .ok result) :
    ∃ value middle, first linker = .ok (value, middle) ∧ next value middle = .ok result := by
  simp only [bind, StateT.bind, Except.bind] at h
  split at h
  · cases h
  · next outcome houtcome => exact ⟨outcome.1, outcome.2, houtcome, h⟩

theorem pure_ok {value : α} {result : α × Linker} (h : (pure value : Linking α) linker = .ok result) :
    result = (value, linker) := by
  cases h
  rfl

theorem map_ok {change : α → β} {step : Linking α} {value : β}
    (h : (change <$> step) linker = .ok (value, later)) :
    ∃ found, step linker = .ok (found, later) ∧ value = change found := by
  rw [map_eq_pure_bind] at h
  rcases bind_ok h with ⟨found, middle, hstep, h⟩
  cases pure_ok h
  exact ⟨found, hstep, rfl⟩

theorem get_ok {result : Linker × Linker} (h : (get : Linking Linker) linker = .ok result) :
    result = (linker, linker) := by
  cases h
  rfl

theorem not_throw {error : ReadError} {result : α × Linker} :
    (throw error : Linking α) linker ≠ .ok result := by
  intro h
  cases h

theorem addNode_ok {node : Node} {id : NodeId} (h : addNode node linker = .ok (id, later)) :
    id = linker.graph.size ∧ later = { linker with graph := (linker.graph.add node).2 } := by
  cases h
  exact ⟨rfl, rfl⟩

theorem modify_ok {change : Linker → Linker} {value : PUnit}
    (h : (modify change : Linking PUnit) linker = .ok (value, later)) : later = change linker := by
  cases h
  rfl

/-- Adding a node that fits gives a place that may be mentioned. -/
theorem addNode_advances (hsound : linker.IsSound kinds) {node : Node} {id : NodeId}
    (h : addNode node linker = .ok (id, later)) (htargets : ∀ part ∈ node.parts, linker.graph.IsTarget part)
    (hsupported : linker.graph.Supports kinds node)
    (hbuiltin : node.identity?.isSome → node.kind = .scalar ∨ node.isIndexed) :
    linker.Advances later kinds ∧ later.graph.IsTarget id ∧ id ∉ later.graph.declarations ∧
      later.graph.node? id = some node := by
  rcases addNode_ok h with ⟨rfl, rfl⟩
  have hnot : linker.graph.size ∉ linker.graph.declarations := hsound.linked.size_not_mem
  have hnode : (linker.graph.add node).2.node? linker.graph.size = some node := by
    rw [Graph.node?_add, if_pos rfl]
  exact ⟨hsound.advance (hsound.linked.add htargets hsupported hbuiltin) (Graph.grows_add _ _),
    .of_not_mem hnode hnot, hnot, hnode⟩

/-- A built-in scalar has its place already, or gets it behind those of its bases. -/
theorem builtin_ok {name : String} {bases : List String} {found : Option NodeId}
    (h : builtin (name :: bases) linker = .ok (found, later)) :
    (∃ id, linker.builtins.lookup name = some id ∧ found = some id ∧ later = linker) ∨
      (linker.builtins.lookup name = none ∧ ∃ base middle id added, builtin bases linker = .ok (base, middle) ∧
        addNode (.scalar ⟨{ name := some name, scope := builtinScope }, base⟩) middle = .ok (id, added) ∧
        found = some id ∧ later = { added with builtins := (name, id) :: added.builtins }) := by
  rw [builtin] at h
  rcases bind_ok h with ⟨_, _, hget, h⟩
  cases get_ok hget
  cases hfound : linker.builtins.lookup name with
  | some id =>
    simp only [hfound] at h
    cases pure_ok h
    exact .inl ⟨id, rfl, rfl, rfl⟩
  | none =>
    simp only [hfound] at h
    rcases bind_ok h with ⟨base, middle, hbase, h⟩
    rcases bind_ok h with ⟨id, added, hadd, h⟩
    rcases bind_ok h with ⟨_, _, hmodify, h⟩
    cases modify_ok hmodify
    cases pure_ok h
    exact .inr ⟨rfl, base, middle, id, added, hbase, hadd, rfl, rfl⟩

theorem builtin_spec (names : List String) (hsound : linker.IsSound kinds) {found : Option NodeId}
    (h : builtin names linker = .ok (found, later)) :
    linker.Advances later kinds ∧ ∀ id, found = some id →
      id ∉ later.graph.declarations ∧ ∃ content, later.graph.node? id = some (.scalar content) := by
  induction names generalizing found later with
  | nil =>
    cases pure_ok h
    exact ⟨hsound.stay, by simp⟩
  | cons name bases ih =>
    rcases builtin_ok h with ⟨id, hid, rfl, rfl⟩ | ⟨_, base, middle, id, added, hbase, hadd, rfl, rfl⟩
    · refine ⟨hsound.stay, ?_⟩
      rintro _ ⟨⟩
      exact hsound.builtins name id hid
    · rcases ih hbase with ⟨hadvances, hscalar⟩
      obtain ⟨hadded, _, hnot, hnode⟩ := addNode_advances hadvances.sound hadd
        (by
          intro part hpart
          rcases hscalar part (by simpa [Node.parts] using hpart) with ⟨hnot, content, hcontent⟩
          exact .of_not_mem hcontent hnot)
        (fun extended hextended => (hscalar extended hextended).2)
        (fun _ => .inl rfl)
      refine ⟨hadvances.trans ⟨⟨hadded.sound.linked, ?_⟩, hadded.grows⟩, ?_⟩
      · intro other place hplace
        simp only [List.lookup_cons] at hplace
        split at hplace
        · cases hplace
          exact ⟨hnot, _, hnode⟩
        · exact hadded.sound.builtins other place hplace
      · rintro _ ⟨⟩
        exact ⟨hnot, _, hnode⟩

theorem declared_of_lookup {graph : Graph} {scope : Scope} {name : String} {id : NodeId}
    (h : lookupDeclaration? graph scope name = some id) : ∃ qualified, graph.declared? qualified = some id := by
  rcases List.exists_of_findSome?_eq_some h with ⟨qualified, _, hqualified⟩
  exact ⟨qualified, hqualified⟩

theorem memberNamed?_spec {graph : Graph} {scope : Scope} {name member : String} {owner : NodeId}
    (h : memberNamed? graph scope name = some (owner, member)) :
    ∃ content, graph.node? owner = some (.enumeration content) ∧ member ∈ content.members.map Member.name := by
  rw [memberNamed?] at h
  simp only [Option.bind_eq_bind, Option.bind_eq_some_iff] at h
  rcases h with ⟨⟨_, found⟩, _, id, _, h⟩
  split at h
  · next content hcontent =>
    split at h
    · next hmem =>
      cases h
      exact ⟨content, hcontent, hmem⟩
    · cases h
  · cases h

/-- The ways in which a name is resolved, each when the ones before it do not apply. -/
inductive Resolves (linker later : Linker) (scope : Scope) (name : String) (id : NodeId) : Prop
  | intrinsic (value : Intrinsic) :
    Intrinsic.ofName? name = some value → addNode (.primitive (.intrinsic value)) linker = .ok (id, later) →
    Resolves linker later scope name id
  | declaration :
    Intrinsic.ofName? name = none → lookupDeclaration? linker.graph scope name = some id → later = linker →
    Resolves linker later scope name id
  | builtin (bases : List String) :
    Intrinsic.ofName? name = none → lookupDeclaration? linker.graph scope name = none →
    builtinBases? (withoutBuiltinScope name) = some bases →
    Linking.builtin (withoutBuiltinScope name :: bases) linker = .ok (some id, later) →
    Resolves linker later scope name id
  | member (owner : NodeId) (member : String) :
    Intrinsic.ofName? name = none → lookupDeclaration? linker.graph scope name = none →
    builtinBases? (withoutBuiltinScope name) = none → memberNamed? linker.graph scope name = some (owner, member) →
    addNode (.member owner member) linker = .ok (id, later) →
    Resolves linker later scope name id

theorem resolveName_ok {scope : Scope} {referrer name : String} {id : NodeId}
    (h : resolveName scope referrer name linker = .ok (id, later)) : Resolves linker later scope name id := by
  rw [resolveName] at h
  cases hintrinsic : Intrinsic.ofName? name with
  | some value =>
    simp only [hintrinsic] at h
    exact .intrinsic value hintrinsic h
  | none =>
    simp only [hintrinsic] at h
    rcases bind_ok h with ⟨_, _, hget, h⟩
    cases get_ok hget
    cases hdeclared : lookupDeclaration? linker.graph scope name with
    | some found =>
      simp only [hdeclared] at h
      cases pure_ok h
      exact .declaration hintrinsic hdeclared rfl
    | none =>
      simp only [hdeclared] at h
      cases hbases : builtinBases? (withoutBuiltinScope name) with
      | some bases =>
        simp only [hbases] at h
        rcases bind_ok h with ⟨found, middle, hfound, h⟩
        cases found with
        | some place =>
          cases pure_ok h
          exact .builtin bases hintrinsic hdeclared hbases hfound
        | none => exact absurd h not_throw
      | none =>
        simp only [hbases] at h
        cases hmember : memberNamed? linker.graph scope name with
        | some found =>
          simp only [hmember] at h
          exact .member found.1 found.2 hintrinsic hdeclared hbases hmember h
        | none =>
          simp only [hmember] at h
          exact absurd h not_throw

theorem resolveName_spec {scope : Scope} {referrer name : String} {id : NodeId}
    (hsound : linker.IsSound kinds) (h : resolveName scope referrer name linker = .ok (id, later)) :
    linker.Advances later kinds ∧ later.graph.IsTarget id := by
  cases resolveName_ok h with
  | intrinsic value _ hadd =>
    obtain ⟨hadvances, htarget, _⟩ := addNode_advances hsound hadd (by simp [Node.parts]) trivial
      (by simp [Node.identity?, Node.name?, Node.decl?])
    exact ⟨hadvances, htarget⟩
  | declaration _ hdeclared hlater =>
    subst hlater
    rcases declared_of_lookup hdeclared with ⟨qualified, hqualified⟩
    exact ⟨hsound.stay, hsound.linked.target_of_declared hqualified⟩
  | builtin bases _ _ _ hbuiltin =>
    rcases builtin_spec _ hsound hbuiltin with ⟨hadvances, hscalar⟩
    rcases hscalar id rfl with ⟨hnot, content, hcontent⟩
    exact ⟨hadvances, .of_not_mem hcontent hnot⟩
  | member owner member _ _ _ hmember hadd =>
    obtain ⟨hadvances, htarget, _⟩ := addNode_advances hsound hadd (by simp [Node.parts])
      (memberNamed?_spec hmember) (by simp [Node.identity?, Node.name?, Node.scope, Node.decl?])
    exact ⟨hadvances, htarget⟩

mutual
theorem linkForm_spec (scope : Scope) (referrer : String) (form : Form) {linker later : Linker} {id : NodeId}
    (hsound : linker.IsSound kinds) (hkinds : form.unsupportedKinds ⊆ kinds)
    (h : linkForm scope referrer form linker = .ok (id, later)) :
    linker.Advances later kinds ∧ later.graph.IsTarget id := by
  cases form with
  | named name => exact resolveName_spec hsound h
  | indexed kind element =>
    rw [linkForm] at h
    rcases bind_ok h with ⟨part, middle, hpart, h⟩
    rcases linkForm_spec scope referrer element hsound hkinds hpart with ⟨hadvances, htarget⟩
    obtain ⟨hadded, hplace, _⟩ := addNode_advances hadvances.sound h
      (by simpa [Node.parts, Model.mentioned, Model.ofElement] using htarget)
      ⟨by simp [Model.ofElement], fun _ hfound => ⟨kind, by cases hfound; rfl⟩⟩
      (fun _ => .inr (by cases kind <;> rfl))
    exact ⟨hadvances.trans hadded, hplace⟩
  | tuple elements =>
    rw [linkForm] at h
    rcases bind_ok h with ⟨parts, middle, hparts, h⟩
    rcases linkForms_spec scope referrer elements hsound hkinds hparts with ⟨hadvances, htargets⟩
    obtain ⟨hadded, hplace, _⟩ := addNode_advances hadvances.sound h htargets trivial
      (by simp [Node.identity?, Node.name?, Node.decl?])
    exact ⟨hadvances.trans hadded, hplace⟩
  | union variants =>
    rw [linkForm] at h
    rcases bind_ok h with ⟨parts, middle, hparts, h⟩
    rcases linkForms_spec scope referrer variants hsound hkinds hparts with ⟨hadvances, htargets⟩
    obtain ⟨hadded, hplace, _⟩ := addNode_advances hadvances.sound h htargets trivial
      (by simp [Node.identity?, Node.name?, Node.decl?])
    exact ⟨hadvances.trans hadded, hplace⟩
  | model properties =>
    rw [linkForm] at h
    rcases bind_ok h with ⟨parts, middle, hparts, h⟩
    rcases linkProperties_spec scope referrer properties hsound hkinds hparts with ⟨hadvances, htargets⟩
    obtain ⟨hadded, hplace, _⟩ := addNode_advances hadvances.sound h
      (by simpa [Node.parts, Model.mentioned] using htargets) ⟨by simp, by simp⟩
      (by simp [Node.identity?, Node.name?, Node.decl?])
    exact ⟨hadvances.trans hadded, hplace⟩
  | literal value =>
    obtain ⟨hadded, hplace, _⟩ := addNode_advances hsound h (by simp [Node.parts]) trivial
      (by simp [Node.identity?, Node.name?, Node.decl?])
    exact ⟨hadded, hplace⟩
  | unsupported kind =>
    obtain ⟨hadded, hplace, _⟩ := addNode_advances hsound h (by simp [Node.parts])
      (hkinds (by simp [Form.unsupportedKinds])) (by simp [Node.identity?, Node.name?, Node.decl?])
    exact ⟨hadded, hplace⟩
termination_by structural form

theorem linkForms_spec (scope : Scope) (referrer : String) (forms : List Form) {linker later : Linker}
    {ids : List NodeId} (hsound : linker.IsSound kinds) (hkinds : formsKinds forms ⊆ kinds)
    (h : linkForms scope referrer forms linker = .ok (ids, later)) :
    linker.Advances later kinds ∧ ∀ id ∈ ids, later.graph.IsTarget id := by
  cases forms with
  | nil =>
    cases pure_ok h
    exact ⟨hsound.stay, by simp⟩
  | cons form rest =>
    rw [formsKinds, List.append_subset] at hkinds
    rw [linkForms] at h
    rcases bind_ok h with ⟨first, middle, hfirst, h⟩
    rcases linkForm_spec scope referrer form hsound hkinds.1 hfirst with ⟨hadvances, htarget⟩
    rcases bind_ok h with ⟨others, last, hothers, h⟩
    rcases linkForms_spec scope referrer rest hadvances.sound hkinds.2 hothers with ⟨hadvances', htargets⟩
    cases pure_ok h
    refine ⟨hadvances.trans hadvances', ?_⟩
    intro id hid
    cases hid with
    | head => exact htarget.grow hadvances'.grows
    | tail _ hid => exact htargets id hid

theorem linkProperty_spec (scope : Scope) (referrer : String) (property : Property Form)
    {linker later : Linker} {linked : Property NodeId} (hsound : linker.IsSound kinds)
    (hkinds : propertyKinds property ⊆ kinds)
    (h : linkProperty scope referrer property linker = .ok (linked, later)) :
    linker.Advances later kinds ∧ later.graph.IsTarget linked.type := by
  rcases property with ⟨name, type, optional, visibility, doc⟩
  rw [linkProperty] at h
  rcases bind_ok h with ⟨id, middle, hid, h⟩
  cases pure_ok h
  exact linkForm_spec scope _ type hsound hkinds hid

theorem linkProperties_spec (scope : Scope) (referrer : String) (properties : List (Property Form))
    {linker later : Linker} {linked : List (Property NodeId)} (hsound : linker.IsSound kinds)
    (hkinds : propertiesKinds properties ⊆ kinds)
    (h : linkProperties scope referrer properties linker = .ok (linked, later)) :
    linker.Advances later kinds ∧ ∀ id ∈ linked.map Property.type, later.graph.IsTarget id := by
  cases properties with
  | nil =>
    cases pure_ok h
    exact ⟨hsound.stay, by simp⟩
  | cons property rest =>
    rw [propertiesKinds, List.append_subset] at hkinds
    rw [linkProperties] at h
    rcases bind_ok h with ⟨first, middle, hfirst, h⟩
    rcases linkProperty_spec scope referrer property hsound hkinds.1 hfirst with ⟨hadvances, htarget⟩
    rcases bind_ok h with ⟨others, last, hothers, h⟩
    rcases linkProperties_spec scope referrer rest hadvances.sound hkinds.2 hothers with ⟨hadvances', htargets⟩
    cases pure_ok h
    refine ⟨hadvances.trans hadvances', ?_⟩
    intro id hid
    rw [List.map_cons] at hid
    cases hid with
    | head => exact htarget.grow hadvances'.grows
    | tail _ hid => exact htargets id hid
end

end Linking

/-- The phases of linking: places for the declarations, their bodies, and then the operations. -/
theorem link_phases {draft : Draft} {graph : Graph} (h : draft.link = .ok graph) :
    ∃ ids placed defined later,
      draft.contents.declarations.mapM Linking.declare { graph := { roots := draft.roots } } = .ok (ids, placed) ∧
      (List.forM (draft.contents.declarations.zip ids) (fun (declaration, id) => Linking.define declaration id) :
        Linking PUnit) placed = .ok ((), defined) ∧
      List.forM draft.contents.operations Linking.linkOperation defined = .ok ((), later) ∧ graph = later.graph := by
  rw [link] at h
  cases hlink : Linking.link draft.contents { graph := { roots := draft.roots } } with
  | error error =>
    rw [hlink] at h
    cases h
  | ok result =>
    rw [hlink] at h
    cases h
    rw [Linking.link] at hlink
    obtain ⟨ids, placed, hplaced, hlink⟩ := Linking.bind_ok hlink
    obtain ⟨_, defined, hdefined, hoperate⟩ := Linking.bind_ok hlink
    exact ⟨ids, placed, defined, result.2, hplaced, hdefined, hoperate, rfl⟩

end SchemaGuards.Draft

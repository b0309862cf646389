import SchemaGuards.Proofs.Linking.Steps

/-!
# Linking a draft

Every declaration first holds its place with a placeholder, and linking its body only revises that
place. So the graph of a linked draft is linked, with the draft's roots.
-/
namespace SchemaGuards.Draft

def Body.unsupportedKinds : Body → List String
  | .model _ properties => propertiesKinds properties
  | .enumeration _ => []
  | .union variants => formsKinds variants
  | .scalar _ => []

def Contents.unsupportedKinds (contents : Contents) : List String :=
  contents.declarations.flatMap (fun declaration => declaration.body.unsupportedKinds) ++
    contents.operations.flatMap (fun operation => operation.bodies.flatMap Form.unsupportedKinds)

namespace Linking
open Linker

variable {α β : Type} {linker later : Linker} {kinds : List String}

theorem placeholder_parts (declaration : Declaration) : (placeholder declaration).parts = [] := by
  rw [placeholder]
  cases declaration.body <;> rfl

theorem placeholder_isDeclarable (declaration : Declaration) :
    (placeholder declaration).kind.isDeclarable = true := by
  rw [placeholder]
  cases declaration.body <;> rfl

theorem placeholder_supported (declaration : Declaration) (graph : Graph) :
    graph.Supports kinds (placeholder declaration) := by
  rw [placeholder]
  cases declaration.body <;> simp [Graph.Supports]

theorem placeholder_unindexed (declaration : Declaration) (content : Model)
    (h : placeholder declaration = .model content) : content.indexer = none := by
  rw [placeholder] at h
  cases hbody : declaration.body <;> rw [hbody] at h <;> cases h
  rfl

theorem placeholder_qualified {declaration : Declaration} {qualified : String}
    (h : (placeholder declaration).qualified? = some qualified) : qualified = declaration.qualified := by
  rcases Node.identity_of_qualified? h with ⟨identity, hidentity, rfl⟩
  rw [placeholder] at hidentity
  cases hbody : declaration.body <;>
    simp_all [Node.identity?, Node.name?, Node.scope, Node.decl?, Declaration.decl] <;>
    · rw [← hidentity.2]
      rfl

/-- Making a declaration's place binds its name, if it has an identity, and changes nothing else. -/
theorem declared?_declare (graph : Graph) (node : Node) (qualified : String) :
    (graph.declare node).2.declared? qualified =
      if node.qualified? = some qualified then some graph.size else graph.declared? qualified := by
  simp only [Graph.declare, Graph.declared?]
  cases hname : node.qualified? with
  | none => simp
  | some other =>
    by_cases h : other = qualified
    · simp [h]
    · have hne : (qualified == other) = false := by simpa using Ne.symm h
      simp [h, List.lookup_cons, hne]

section Declare
variable {graph : Graph} {declaration : Declaration}

theorem node?_declare_of_some {id : NodeId} {node other : Node} (h : graph.node? id = some node) :
    (graph.declare other).2.node? id = some node := by
  rw [Graph.node?_declare, if_neg (Nat.ne_of_lt (Graph.lt_size_of_node? h)), h]

theorem mem_declare_of_some {id : NodeId} {node other : Node} (h : graph.node? id = some node) :
    id ∈ (graph.declare other).2.declarations ↔ id ∈ graph.declarations := by
  have hne : id ≠ graph.size := Nat.ne_of_lt (Graph.lt_size_of_node? h)
  simp [Graph.declare, hne]

theorem isTarget_declare {id : NodeId} {other : Node} (h : graph.IsTarget id) :
    (graph.declare other).2.IsTarget id := by
  rcases h with ⟨node, hnode, hidentity⟩
  exact ⟨node, node?_declare_of_some hnode, fun hmem => hidentity ((mem_declare_of_some hnode).1 hmem)⟩

theorem supports_declare {node other : Node} (h : graph.Supports kinds node) :
    (graph.declare other).2.Supports kinds node := by
  cases node with
  | member owner name =>
    rcases h with ⟨content, hcontent, hname⟩
    exact ⟨content, node?_declare_of_some hcontent, hname⟩
  | scalar content =>
    intro base hbase
    rcases h base hbase with ⟨extended, hextended⟩
    exact ⟨extended, node?_declare_of_some hextended⟩
  | model content =>
    refine ⟨?_, h.2⟩
    intro base hbase
    rcases h.1 base hbase with ⟨extended, hextended⟩
    exact ⟨extended, node?_declare_of_some hextended⟩
  | _ => exact h

theorem fits_declare {id : NodeId} {node other : Node} (hnode : graph.node? id = some node)
    (h : graph.Fits kinds id node) : (graph.declare other).2.Fits kinds id node := by
  refine ⟨fun part hpart => isTarget_declare (h.targets part hpart), ?_, supports_declare h.supported, ?_, ?_⟩
  · rw [mem_declare_of_some hnode]
    exact h.descending
  · rw [mem_declare_of_some hnode]
    exact h.builtin
  · rw [mem_declare_of_some hnode]
    exact h.unindexed

/-- A place made for a name that nobody has. -/
theorem isLinked_declare (h : graph.IsLinked kinds) (hnew : graph.declared? declaration.qualified = none) :
    (graph.declare (placeholder declaration)).2.IsLinked kinds := by
  have hnode : (graph.declare (placeholder declaration)).2.node? graph.size = some (placeholder declaration) := by
    rw [Graph.node?_declare, if_pos rfl]
  have hmem : graph.size ∈ (graph.declare (placeholder declaration)).2.declarations := by
    simp [Graph.declare]
  refine ⟨?_, ?_, ?_, ?_, ?_⟩
  · intro qualified id hid
    rw [declared?_declare] at hid
    split at hid
    · next hname =>
      cases hid
      exact ⟨hmem, _, hnode, hname⟩
    · rcases h.named qualified id hid with ⟨hold, node, hnode, hname⟩
      exact ⟨(mem_declare_of_some hnode).2 hold, node, node?_declare_of_some hnode, hname⟩
  · intro id hid
    have hid : id ∈ graph.declarations ∨ id = graph.size := by simpa [Graph.declare] using hid
    rcases hid with hold | rfl
    · rcases h.declared id hold with ⟨node, hnode, hkind, hnames⟩
      refine ⟨node, node?_declare_of_some hnode, hkind, ?_⟩
      intro qualified hqualified
      have hdeclared := hnames qualified hqualified
      -- The new name is nobody's, so it does not hide an old one.
      have hother : (placeholder declaration).qualified? ≠ some qualified := by
        intro hsame
        rw [placeholder_qualified hsame, hnew] at hdeclared
        cases hdeclared
      rw [declared?_declare, if_neg hother, hdeclared]
    · refine ⟨_, hnode, placeholder_isDeclarable declaration, ?_⟩
      intro qualified hqualified
      rw [declared?_declare, if_pos hqualified]
  · have hnodup : (graph.declarations ++ [graph.size]).Nodup := by
      rw [List.nodup_append]
      refine ⟨h.nodup, by simp, ?_⟩
      intro id hid other hother
      cases List.mem_singleton.1 hother
      exact fun heq => h.size_not_mem (heq ▸ hid)
    exact hnodup
  · intro id node hid
    rw [Graph.node?_declare] at hid
    split at hid
    · next heq =>
      cases hid
      subst heq
      have hparts := placeholder_parts declaration
      exact ⟨by simp [hparts], by simp [hparts], placeholder_supported declaration _,
        fun hnot => absurd hmem hnot, fun _ => placeholder_unindexed declaration⟩
    · exact fits_declare hid (h.fits id node hid)
  · intro operation hoperation body hbody
    exact isTarget_declare (h.bodies operation hoperation body hbody)

end Declare

/-- What making places keeps of a linker: its roots, its nodes and its declarations. -/
structure Keeps (linker later : Linker) : Prop where
  roots_eq : later.graph.roots = linker.graph.roots
  nodes : ∀ id node, linker.graph.node? id = some node → later.graph.node? id = some node
  declarations : linker.graph.declarations ⊆ later.graph.declarations

theorem Keeps.trans {middle : Linker} (h : Keeps linker middle) (h' : Keeps middle later) :
    Keeps linker later :=
  ⟨h'.roots_eq.trans h.roots_eq, fun id node hnode => h'.nodes id node (h.nodes id node hnode),
    fun _ hid => h'.declarations (h.declarations hid)⟩

theorem declare_spec {declaration : Declaration} {id : NodeId} (hsound : linker.IsSound kinds)
    (h : declare declaration linker = .ok (id, later)) :
    later.IsSound kinds ∧ Keeps linker later ∧ id ∈ later.graph.declarations ∧
      later.graph.node? id = some (placeholder declaration) := by
  rw [declare] at h
  rcases bind_ok h with ⟨_, _, hget, h⟩
  cases get_ok hget
  cases hnew : linker.graph.declared? declaration.qualified with
  | some other =>
    simp only [hnew, Option.isSome_some, if_true] at h
    exact absurd h not_throw
  | none =>
    simp only [hnew, Option.isSome_none, Bool.false_eq_true, if_false] at h
    rcases bind_ok h with ⟨_, _, hset, h⟩
    cases hset
    cases pure_ok h
    refine ⟨⟨isLinked_declare hsound.linked hnew, ?_⟩, ⟨rfl, ?_, ?_⟩, ?_, ?_⟩
    · intro name place hplace
      rcases hsound.builtins name place hplace with ⟨hnot, content, hcontent⟩
      exact ⟨fun hmem => hnot ((mem_declare_of_some hcontent).1 hmem), content, node?_declare_of_some hcontent⟩
    · intro other node hnode
      exact node?_declare_of_some hnode
    · intro other hother
      simp [Graph.declare, hother]
    · simp [Graph.declare]
    · rw [Graph.node?_declare]
      exact if_pos rfl

/-- After all places are made, every declaration holds its own. -/
theorem declareAll_spec (declarations : List Declaration) {ids : List NodeId} (hsound : linker.IsSound kinds)
    (h : declarations.mapM declare linker = .ok (ids, later)) :
    later.IsSound kinds ∧ Keeps linker later ∧ ∀ pair ∈ declarations.zip ids,
      pair.2 ∈ later.graph.declarations ∧ later.graph.node? pair.2 = some (placeholder pair.1) := by
  induction declarations generalizing linker ids with
  | nil =>
    rw [List.mapM_nil] at h
    cases pure_ok h
    exact ⟨hsound, ⟨rfl, fun _ _ hnode => hnode, List.Subset.refl _⟩, by simp⟩
  | cons declaration rest ih =>
    rw [List.mapM_cons] at h
    rcases bind_ok h with ⟨id, middle, hid, h⟩
    rcases bind_ok h with ⟨others, last, hothers, h⟩
    cases pure_ok h
    rcases declare_spec hsound hid with ⟨hmiddle, hkeeps, hmem, hnode⟩
    rcases ih hmiddle hothers with ⟨hlater, hkeeps', hpairs⟩
    refine ⟨hlater, hkeeps.trans hkeeps', ?_⟩
    intro pair hpair
    rw [List.zip_cons_cons, List.mem_cons] at hpair
    rcases hpair with rfl | hpair
    · exact ⟨hkeeps'.declarations hmem, hkeeps'.nodes id _ hnode⟩
    · exact hpairs pair hpair

/-- A base is resolved like any name, and then has to be of the right kind. -/
theorem linkBase_ok {declaration : Declaration} {kind : Kind} {base : Option String} {found : Option NodeId}
    (h : linkBase declaration kind base linker = .ok (found, later)) :
    (base = none ∧ found = none ∧ later = linker) ∨ ∃ name id, base = some name ∧ found = some id ∧
      resolveName declaration.scope declaration.qualified name linker = .ok (id, later) ∧
      (later.graph.node? id).map Node.kind = some kind := by
  cases base with
  | none =>
    cases pure_ok h
    exact .inl ⟨rfl, rfl, rfl⟩
  | some name =>
    rw [linkBase] at h
    rcases bind_ok h with ⟨id, middle, hid, h⟩
    rcases bind_ok h with ⟨_, _, hget, h⟩
    cases get_ok hget
    by_cases hkind : (middle.graph.node? id).map Node.kind = some kind
    · simp only [hkind, if_true] at h
      cases pure_ok h
      exact .inr ⟨name, id, rfl, rfl, hid, hkind⟩
    · simp only [hkind, if_false] at h
      exact absurd h not_throw

theorem linkBase_spec {declaration : Declaration} {kind : Kind} {base : Option String}
    {found : Option NodeId} (hsound : linker.IsSound kinds)
    (h : linkBase declaration kind base linker = .ok (found, later)) :
    linker.Advances later kinds ∧ ∀ id, found = some id →
      later.graph.IsTarget id ∧ ∃ node, later.graph.node? id = some node ∧ node.kind = kind := by
  rcases linkBase_ok h with ⟨_, rfl, rfl⟩ | ⟨name, id, _, rfl, hid, hkind⟩
  · exact ⟨hsound.stay, by simp⟩
  · rcases resolveName_spec hsound hid with ⟨hadvances, htarget⟩
    refine ⟨hadvances, ?_⟩
    rintro _ ⟨⟩
    rw [Option.map_eq_some_iff] at hkind
    exact ⟨htarget, hkind⟩

/-- Puts a body, once it is linked, into the place that its declaration holds. -/
theorem fill_advances {declaration : Declaration} {middle : Linker} {id : NodeId} {old node : Node}
    (hadvances : linker.Advances middle kinds) (hid : id ∈ linker.graph.declarations)
    (hold : linker.graph.node? id = some old) (hplace : (placeholder declaration).Revised old)
    (hnode : (placeholder declaration).Revised node)
    (htargets : ∀ part ∈ node.parts, middle.graph.IsTarget part)
    (hsupported : middle.graph.Supports kinds node)
    (hunindexed : ∀ content, node = .model content → content.indexer = none) :
    linker.Advances { middle with graph := middle.graph.replace id node } kinds := by
  -- Linking the body may have revised the place, but it still holds the declaration's kind and name.
  rcases hadvances.grows.kept id old hold with ⟨current, hcurrent, hkept⟩
  have hrevised : current.Revised node := (hplace.trans hkept).symm.trans hnode
  have hplaced : id ∈ middle.graph.declarations := by
    rw [hadvances.grows.declarations_eq]
    exact hid
  exact hadvances.trans (hadvances.sound.advance
    (hadvances.sound.linked.replace hplaced hcurrent hrevised htargets hsupported hunindexed)
    (Graph.grows_replace hcurrent hrevised))

theorem define_spec {declaration : Declaration} {id : NodeId} {old : Node} {value : Unit}
    (hsound : linker.IsSound kinds) (hkinds : declaration.body.unsupportedKinds ⊆ kinds)
    (hid : id ∈ linker.graph.declarations) (hold : linker.graph.node? id = some old)
    (hplace : (placeholder declaration).Revised old)
    (h : define declaration id linker = .ok (value, later)) : linker.Advances later kinds := by
  rcases declaration with ⟨name, scope, doc, body⟩
  cases body with
  | enumeration members =>
    cases pure_ok h
    exact hsound.stay
  | model base properties =>
    rcases bind_ok h with ⟨found, middle, hfound, h⟩
    rcases linkBase_spec hsound hfound with ⟨hadvances, hbase⟩
    rcases bind_ok h with ⟨linked, last, hlinked, h⟩
    rcases linkProperties_spec scope _ properties hadvances.sound hkinds hlinked with ⟨hadvances', htargets⟩
    cases modify_ok h
    refine fill_advances (hadvances.trans hadvances') hid hold hplace (.model _ _ rfl) ?_ ⟨?_, by simp⟩
      (by rintro _ ⟨⟩; rfl)
    · intro part hpart
      simp only [Node.parts, Model.mentioned, Option.toList_none, List.append_nil, List.mem_append,
        Option.mem_toList] at hpart
      rcases hpart with hpart | hpart
      · exact (hbase part hpart).1.grow hadvances'.grows
      · exact htargets part hpart
    · rintro extended rfl
      rcases hbase extended rfl with ⟨_, node, hnode, hkind⟩
      rcases Node.exists_model_of_kind hkind with ⟨content, rfl⟩
      exact hadvances'.grows.model hnode
  | union variants =>
    rcases bind_ok h with ⟨linked, middle, hlinked, h⟩
    rcases linkForms_spec scope _ variants hsound hkinds hlinked with ⟨hadvances, htargets⟩
    cases modify_ok h
    exact fill_advances hadvances hid hold hplace (.union _ _ _) htargets trivial (by simp)
  | scalar base =>
    rcases bind_ok h with ⟨found, middle, hfound, h⟩
    rcases linkBase_spec hsound hfound with ⟨hadvances, hbase⟩
    cases modify_ok h
    refine fill_advances hadvances hid hold hplace (.scalar _ _ _) ?_ ?_ (by simp)
    · intro part hpart
      exact (hbase part (by simpa [Node.parts] using hpart)).1
    · intro extended hextended
      rcases hbase extended hextended with ⟨_, node, hnode, hkind⟩
      rcases Node.exists_scalar_of_kind hkind with ⟨content, rfl⟩
      exact ⟨content, hnode⟩

/-- After all bodies are linked, no place has changed its declaration. -/
theorem defineAll_spec (pairs : List (Declaration × NodeId)) {value : PUnit} (hsound : linker.IsSound kinds)
    (hkinds : ∀ pair ∈ pairs, pair.1.body.unsupportedKinds ⊆ kinds)
    (hplaces : ∀ pair ∈ pairs, pair.2 ∈ linker.graph.declarations ∧
      ∃ node, linker.graph.node? pair.2 = some node ∧ (placeholder pair.1).Revised node)
    (h : (List.forM pairs (fun (declaration, id) => define declaration id) : Linking PUnit) linker =
      .ok (value, later)) :
    linker.Advances later kinds := by
  induction pairs generalizing linker with
  | nil =>
    cases pure_ok h
    exact hsound.stay
  | cons pair rest ih =>
    rw [List.forM_eq_forM, List.forM_cons] at h
    rcases bind_ok h with ⟨_, middle, hpair, h⟩
    rcases hplaces pair (by simp) with ⟨hmem, old, hold, hrevised⟩
    have hadvances := define_spec hsound (hkinds pair (by simp)) hmem hold hrevised hpair
    refine hadvances.trans (ih hadvances.sound (fun other hother => hkinds other (by simp [hother])) ?_ h)
    intro other hother
    rcases hplaces other (by simp [hother]) with ⟨hmem', node, hnode, hrevised'⟩
    rcases hadvances.grows.kept other.2 node hnode with ⟨revised, hkept, hr⟩
    rw [hadvances.grows.declarations_eq]
    exact ⟨hmem', revised, hkept, hrevised'.trans hr⟩

theorem linkOption_spec (scope : Scope) (referrer : String) (form : Option Form) {found : Option NodeId}
    (hsound : linker.IsSound kinds) (hkinds : ∀ type, form = some type → type.unsupportedKinds ⊆ kinds)
    (h : form.mapM (linkForm scope referrer) linker = .ok (found, later)) :
    linker.Advances later kinds ∧ ∀ id, found = some id → later.graph.IsTarget id := by
  cases form with
  | none =>
    cases pure_ok h
    exact ⟨hsound.stay, by simp⟩
  | some type =>
    rw [Option.mapM_some] at h
    rcases map_ok h with ⟨id, hid, rfl⟩
    rcases linkForm_spec scope referrer type hsound (hkinds type rfl) hid with ⟨hadvances, htarget⟩
    refine ⟨hadvances, ?_⟩
    rintro _ ⟨⟩
    exact htarget

/-- Responses are linked one after the other, each as its body is. -/
theorem linkResponses_cons_ok {scope : Scope} {referrer : String} {response : Response Form}
    {rest : List (Response Form)} {linked : List (Response NodeId)}
    (h : (response :: rest).mapM (linkResponse scope referrer) linker = .ok (linked, later)) :
    ∃ body middle others, response.body.mapM (linkForm scope referrer) linker = .ok (body, middle) ∧
      rest.mapM (linkResponse scope referrer) middle = .ok (others, later) ∧
      linked = ⟨response.status, body⟩ :: others := by
  rw [List.mapM_cons] at h
  rcases bind_ok h with ⟨first, middle, hfirst, h⟩
  rcases bind_ok h with ⟨others, last, hothers, h⟩
  cases pure_ok h
  rw [linkResponse] at hfirst
  rcases bind_ok hfirst with ⟨body, _, hbody, hfirst⟩
  cases pure_ok hfirst
  exact ⟨body, middle, others, hbody, hothers, rfl⟩

theorem linkResponses_spec (scope : Scope) (referrer : String) (responses : List (Response Form))
    {linked : List (Response NodeId)} (hsound : linker.IsSound kinds)
    (hkinds : ∀ type ∈ responses.filterMap Response.body, type.unsupportedKinds ⊆ kinds)
    (h : responses.mapM (linkResponse scope referrer) linker = .ok (linked, later)) :
    linker.Advances later kinds ∧ ∀ id ∈ linked.filterMap Response.body, later.graph.IsTarget id := by
  induction responses generalizing linker linked with
  | nil =>
    rw [List.mapM_nil] at h
    cases pure_ok h
    exact ⟨hsound.stay, by simp⟩
  | cons response rest ih =>
    rcases linkResponses_cons_ok h with ⟨body, middle, others, hbody, hothers, rfl⟩
    obtain ⟨hadvances, htarget⟩ := linkOption_spec scope referrer response.body hsound
      (fun type htype => hkinds type (List.mem_filterMap.2 ⟨response, by simp, htype⟩)) hbody
    obtain ⟨hadvances', htargets⟩ := ih hadvances.sound
      (fun type htype => hkinds type (by
        rcases List.mem_filterMap.1 htype with ⟨other, hother, hbody⟩
        exact List.mem_filterMap.2 ⟨other, by simp [hother], hbody⟩)) hothers
    refine ⟨hadvances.trans hadvances', ?_⟩
    intro id hid
    rcases List.mem_filterMap.1 hid with ⟨found, hfound, hbody⟩
    rcases List.mem_cons.1 hfound with rfl | hfound
    · exact (htarget id hbody).grow hadvances'.grows
    · exact htargets id (List.mem_filterMap.2 ⟨found, hfound, hbody⟩)

theorem linkOperation_spec {operation : Operation Form} {value : PUnit} (hsound : linker.IsSound kinds)
    (hkinds : ∀ type ∈ operation.bodies, type.unsupportedKinds ⊆ kinds)
    (h : linkOperation operation linker = .ok (value, later)) :
    later.IsSound kinds ∧ later.graph.roots = linker.graph.roots := by
  rw [linkOperation] at h
  rcases bind_ok h with ⟨request, middle, hrequest, h⟩
  rcases bind_ok h with ⟨responses, last, hresponses, h⟩
  cases modify_ok h
  obtain ⟨hadvances, htarget⟩ := linkOption_spec operation.scope _ operation.request hsound
    (fun type htype => hkinds type (by simp [Operation.bodies, htype])) hrequest
  obtain ⟨hadvances', htargets⟩ := linkResponses_spec operation.scope _ operation.responses hadvances.sound
    (fun type htype => hkinds type (by rw [Operation.bodies, List.mem_append]; exact .inr htype)) hresponses
  have hsteps := hadvances.trans hadvances'
  refine ⟨(hsteps.sound.advance (hsteps.sound.linked.addOperation ?_) (Graph.grows_addOperation _ _)).sound,
    hsteps.grows.roots_eq⟩
  intro body hbody
  rw [Operation.bodies, List.mem_append, Option.mem_toList] at hbody
  rcases hbody with hbody | hbody
  · exact (htarget body hbody).grow hadvances'.grows
  · exact htargets body hbody

theorem linkOperations_spec (operations : List (Operation Form)) {value : PUnit}
    (hsound : linker.IsSound kinds)
    (hkinds : ∀ operation ∈ operations, ∀ type ∈ operation.bodies, type.unsupportedKinds ⊆ kinds)
    (h : List.forM operations linkOperation linker = .ok (value, later)) :
    later.IsSound kinds ∧ later.graph.roots = linker.graph.roots := by
  induction operations generalizing linker with
  | nil =>
    cases pure_ok h
    exact ⟨hsound, rfl⟩
  | cons operation rest ih =>
    rw [List.forM_eq_forM, List.forM_cons] at h
    rcases bind_ok h with ⟨_, middle, hmiddle, h⟩
    rcases linkOperation_spec hsound (hkinds operation (by simp)) hmiddle with ⟨hnext, hroots⟩
    rcases ih hnext (fun other hother => hkinds other (by simp [hother])) h with ⟨hlater, hroots'⟩
    exact ⟨hlater, hroots'.trans hroots⟩

end Linking
end SchemaGuards.Draft

namespace SchemaGuards

theorem Graph.isLinked_empty (roots kinds : List String) : ({ roots } : Graph).IsLinked kinds := by
  refine ⟨?_, ?_, ?_, ?_, ?_⟩ <;> simp [Graph.declared?, Graph.node?]

/-- The graph of a draft is linked, and its unsupported kinds are those that the draft writes. -/
theorem Draft.link_isLinked {draft : Draft} {graph : Graph} (h : draft.link = .ok graph) :
    graph.IsLinked draft.contents.unsupportedKinds ∧ graph.roots = draft.roots := by
  obtain ⟨ids, placed, defined, later, hplaced, hdefined, hoperate, rfl⟩ := Draft.link_phases h
  have hstart : Draft.Linker.IsSound { graph := { roots := draft.roots } } draft.contents.unsupportedKinds :=
    ⟨Graph.isLinked_empty _ _, by simp⟩
  obtain ⟨hsound, hkeeps, hplaces⟩ := Draft.Linking.declareAll_spec _ hstart hplaced
  have hbodies : ∀ pair ∈ draft.contents.declarations.zip ids,
      pair.1.body.unsupportedKinds ⊆ draft.contents.unsupportedKinds := by
    intro pair hpair kind hkind
    apply List.mem_append_left
    exact List.mem_flatMap.2 ⟨pair.1, (List.of_mem_zip hpair).1, hkind⟩
  have hadvances := Draft.Linking.defineAll_spec _ hsound hbodies
    (fun pair hpair => ⟨(hplaces pair hpair).1, _, (hplaces pair hpair).2, .same _⟩) hdefined
  have htypes : ∀ operation ∈ draft.contents.operations, ∀ type ∈ operation.bodies,
      type.unsupportedKinds ⊆ draft.contents.unsupportedKinds := by
    intro operation hoperation type htype kind hkind
    apply List.mem_append_right
    exact List.mem_flatMap.2 ⟨operation, hoperation, List.mem_flatMap.2 ⟨type, htype, hkind⟩⟩
  obtain ⟨hlater, hroots⟩ := Draft.Linking.linkOperations_spec _ hadvances.sound htypes hoperate
  exact ⟨hlater.linked, hroots.trans (hadvances.grows.roots_eq.trans hkeeps.roots_eq)⟩

end SchemaGuards

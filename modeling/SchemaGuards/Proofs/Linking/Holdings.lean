import SchemaGuards.Decimal.Binary64
import SchemaGuards.Proofs.Linking.Unfolding

/-!
# What the places of a linked graph hold

The numbers in a graph are those of its draft, and a model only extends what is declared. So a graph has
decimal literals for numbers when its draft has, and no list and no record is ever extended.
-/
namespace SchemaGuards

def Primitive.IsNumeric : Primitive → Prop
  | .number text => Decimal.isFiniteLiteral text.toList = true
  | _ => True

def Member.IsNumeric (member : Member) : Prop :=
  ∀ text, member.value = some (.number text) → Decimal.isFiniteLiteral text.toList = true

namespace Draft

mutual
def Form.IsNumeric : Form → Prop
  | .named _ => True
  | .indexed _ element => element.IsNumeric
  | .tuple elements => AreNumeric elements
  | .union variants => AreNumeric variants
  | .model properties => PropertiesNumeric properties
  | .literal value => value.IsNumeric
  | .unsupported _ => True
termination_by structural form => form

def AreNumeric : List Form → Prop
  | [] => True
  | form :: rest => form.IsNumeric ∧ AreNumeric rest

def PropertyNumeric : Property Form → Prop
  | ⟨_, type, _, _, _⟩ => type.IsNumeric

def PropertiesNumeric : List (Property Form) → Prop
  | [] => True
  | property :: rest => PropertyNumeric property ∧ PropertiesNumeric rest
end

def Body.IsNumeric : Body → Prop
  | .model _ properties => PropertiesNumeric properties
  | .enumeration members => ∀ member ∈ members, member.IsNumeric
  | .union variants => AreNumeric variants
  | .scalar _ => True

structure Contents.IsNumeric (contents : Contents) : Prop where
  declarations : ∀ declaration ∈ contents.declarations, declaration.body.IsNumeric
  operations : ∀ operation ∈ contents.operations, ∀ form ∈ operation.bodies, form.IsNumeric

end Draft

/-- What a node may hold: decimal literals for numbers, and as its base only a declaration. -/
def Node.IsMade (declared : List NodeId) : Node → Prop
  | .primitive value => value.IsNumeric
  | .enumeration content => ∀ member ∈ content.members, member.IsNumeric
  | .model content => ∀ base, content.base = some base → base ∈ declared
  | _ => True

def Graph.IsMade (graph : Graph) : Prop :=
  ∀ id node, graph.node? id = some node → node.IsMade graph.declarations

namespace Draft.Linking
open Linker

variable {linker later : Linker} {contents : Contents}

theorem isMade_add {graph : Graph} (h : graph.IsMade) {node : Node} (hnode : node.IsMade graph.declarations) :
    (graph.add node).2.IsMade := by
  intro id found hfound
  rw [Graph.node?_add] at hfound
  split at hfound
  · cases hfound
    exact hnode
  · exact h id found hfound

theorem isMade_replace {graph : Graph} (h : graph.IsMade) {id : NodeId} {node : Node}
    (hnode : node.IsMade graph.declarations) : (graph.replace id node).IsMade := by
  intro other found hfound
  rw [Graph.node?_replace] at hfound
  split at hfound
  · cases hfound
    exact hnode
  · exact h other found hfound

theorem addNode_made (hmade : linker.graph.IsMade) {node : Node} {id : NodeId}
    (h : addNode node linker = .ok (id, later)) (hnode : node.IsMade linker.graph.declarations) :
    later.graph.IsMade := by
  rcases addNode_ok h with ⟨rfl, rfl⟩
  exact isMade_add hmade hnode

theorem builtin_made (names : List String) (hmade : linker.graph.IsMade) {found : Option NodeId}
    (h : builtin names linker = .ok (found, later)) : later.graph.IsMade := by
  induction names generalizing found later with
  | nil =>
    cases pure_ok h
    exact hmade
  | cons name bases ih =>
    rcases builtin_ok h with ⟨_, _, _, rfl⟩ | ⟨_, base, middle, id, added, hbase, hadd, _, rfl⟩
    · exact hmade
    · have hadded : added.graph.IsMade := addNode_made (ih hbase) hadd trivial
      exact hadded

theorem resolveName_made {scope : Scope} {referrer name : String} {id : NodeId} (hmade : linker.graph.IsMade)
    (h : resolveName scope referrer name linker = .ok (id, later)) : later.graph.IsMade := by
  cases resolveName_ok h with
  | intrinsic value _ hadd => exact addNode_made hmade hadd trivial
  | declaration _ _ hlater => exact hlater ▸ hmade
  | builtin bases _ _ _ hbuiltin => exact builtin_made _ hmade hbuiltin
  | member owner member _ _ _ _ hadd => exact addNode_made hmade hadd trivial

/-- A name that stands for a model stands for a declaration. -/
theorem declared_of_reads (hfaithful : linker.IsFaithful contents) {scope : Scope} {name : String} {id : NodeId}
    (h : Reads contents linker.graph scope (.named name) id)
    (hkind : (linker.graph.node? id).map Node.kind = some .model) : id ∈ linker.graph.declarations := by
  cases h with
  | named _ target _ htarget hid =>
    cases htarget with
    | intrinsic => simp [hid.2, Node.kind] at hkind
    | declaration _ _ hplace =>
      cases hid
      rcases hplace with ⟨_, _, ⟨declaration, hdeclaration, _⟩, _⟩
      exact hfaithful.mem_declarations_iff.2 ⟨declaration, hdeclaration⟩
    | builtin =>
      rcases hid with ⟨_, _, _, _, hfound, hholds, _⟩
      cases hfound
      simp [hholds.2, Node.kind] at hkind
    | member => simp [hid.2, Node.kind] at hkind

mutual
theorem linkForm_made (scope : Scope) (referrer : String) (form : Form) {linker later : Linker} {id : NodeId}
    (hmade : linker.graph.IsMade) (hnumeric : form.IsNumeric)
    (h : linkForm scope referrer form linker = .ok (id, later)) : later.graph.IsMade := by
  cases form with
  | named name => exact resolveName_made hmade h
  | indexed kind element =>
    rw [linkForm] at h
    rcases bind_ok h with ⟨part, middle, hpart, h⟩
    exact addNode_made (linkForm_made scope referrer element hmade hnumeric hpart) h
      (by simp [Node.IsMade, Model.ofElement])
  | tuple elements =>
    rw [linkForm] at h
    rcases bind_ok h with ⟨parts, middle, hparts, h⟩
    exact addNode_made (linkForms_made scope referrer elements hmade hnumeric hparts) h trivial
  | union variants =>
    rw [linkForm] at h
    rcases bind_ok h with ⟨parts, middle, hparts, h⟩
    exact addNode_made (linkForms_made scope referrer variants hmade hnumeric hparts) h trivial
  | model properties =>
    rw [linkForm] at h
    rcases bind_ok h with ⟨parts, middle, hparts, h⟩
    exact addNode_made (linkProperties_made scope referrer properties hmade hnumeric hparts) h
      (by simp [Node.IsMade])
  | literal value => exact addNode_made hmade h hnumeric
  | unsupported kind => exact addNode_made hmade h trivial
termination_by structural form

theorem linkForms_made (scope : Scope) (referrer : String) (forms : List Form) {linker later : Linker}
    {ids : List NodeId} (hmade : linker.graph.IsMade) (hnumeric : AreNumeric forms)
    (h : linkForms scope referrer forms linker = .ok (ids, later)) : later.graph.IsMade := by
  cases forms with
  | nil =>
    cases pure_ok h
    exact hmade
  | cons form rest =>
    rw [linkForms] at h
    rcases bind_ok h with ⟨first, middle, hfirst, h⟩
    rcases bind_ok h with ⟨others, last, hothers, h⟩
    cases pure_ok h
    exact linkForms_made scope referrer rest (linkForm_made scope referrer form hmade hnumeric.1 hfirst)
      hnumeric.2 hothers

theorem linkProperty_made (scope : Scope) (referrer : String) (property : Property Form)
    {linker later : Linker} {linked : Property NodeId} (hmade : linker.graph.IsMade)
    (hnumeric : PropertyNumeric property)
    (h : linkProperty scope referrer property linker = .ok (linked, later)) : later.graph.IsMade := by
  rcases property with ⟨name, type, optional, visibility, doc⟩
  rw [linkProperty] at h
  rcases bind_ok h with ⟨id, middle, hid, h⟩
  cases pure_ok h
  exact linkForm_made scope _ type hmade hnumeric hid

theorem linkProperties_made (scope : Scope) (referrer : String) (properties : List (Property Form))
    {linker later : Linker} {linked : List (Property NodeId)} (hmade : linker.graph.IsMade)
    (hnumeric : PropertiesNumeric properties)
    (h : linkProperties scope referrer properties linker = .ok (linked, later)) : later.graph.IsMade := by
  cases properties with
  | nil =>
    cases pure_ok h
    exact hmade
  | cons property rest =>
    rw [linkProperties] at h
    rcases bind_ok h with ⟨first, middle, hfirst, h⟩
    rcases bind_ok h with ⟨others, last, hothers, h⟩
    cases pure_ok h
    exact linkProperties_made scope referrer rest (linkProperty_made scope referrer property hmade hnumeric.1 hfirst)
      hnumeric.2 hothers
end

/-- A model that a base's name stands for is declared, and stays so. -/
theorem linkBase_made {declaration : Declaration} {kind : Kind} {base : Option String} {found : Option NodeId}
    (hmade : linker.graph.IsMade) (hfaithful : linker.IsFaithful contents)
    (h : linkBase declaration kind base linker = .ok (found, later)) :
    later.graph.IsMade ∧ (kind = .model → ∀ id, found = some id → id ∈ later.graph.declarations) := by
  rcases linkBase_ok h with ⟨_, rfl, rfl⟩ | ⟨name, id, _, rfl, hid, hkind⟩
  · exact ⟨hmade, by simp⟩
  · rcases resolveName_faithful hfaithful hid with ⟨hcontinues, hreads⟩
    refine ⟨resolveName_made hmade hid, ?_⟩
    rintro rfl _ ⟨⟩
    exact declared_of_reads hcontinues.faithful hreads hkind

theorem define_made {declaration : Declaration} {place : NodeId} {value : Unit} (hmade : linker.graph.IsMade)
    (hfaithful : linker.IsFaithful contents) (hnumeric : declaration.body.IsNumeric)
    (h : define declaration place linker = .ok (value, later)) : later.graph.IsMade := by
  rcases declaration with ⟨name, scope, doc, body⟩
  cases body with
  | enumeration members =>
    cases pure_ok h
    exact hmade
  | model base properties =>
    rcases bind_ok h with ⟨found, middle, hfound, h⟩
    rcases linkBase_made hmade hfaithful hfound with ⟨hmiddle, hbase⟩
    rcases bind_ok h with ⟨linked, last, hlinked, h⟩
    have hcontinues := (linkBase_faithful hfaithful hfound).1
    have hkeeps := (linkProperties_faithful scope _ properties hcontinues.faithful hlinked).1.keeps
    cases modify_ok h
    refine isMade_replace (linkProperties_made scope _ properties hmiddle hnumeric hlinked) ?_
    intro extended hextended
    rw [hkeeps.declarations_eq]
    exact hbase rfl extended hextended
  | union variants =>
    rcases bind_ok h with ⟨parts, middle, hparts, h⟩
    cases modify_ok h
    exact isMade_replace (linkForms_made scope _ variants hmade hnumeric hparts) trivial
  | scalar base =>
    rcases bind_ok h with ⟨found, middle, hfound, h⟩
    cases modify_ok h
    exact isMade_replace (linkBase_made hmade hfaithful hfound).1 trivial

theorem defineAll_made (pairs : List (Declaration × NodeId)) {value : PUnit} (hmade : linker.graph.IsMade)
    (hfaithful : linker.IsFaithful contents)
    (hpairs : ∀ pair ∈ pairs, contents.declarations[pair.2]? = some pair.1 ∧ pair.1.body.IsNumeric)
    (h : (List.forM pairs (fun (declaration, id) => define declaration id) : Linking PUnit) linker =
      .ok (value, later)) : later.graph.IsMade := by
  induction pairs generalizing linker with
  | nil =>
    cases pure_ok h
    exact hmade
  | cons pair rest ih =>
    rw [List.forM_eq_forM, List.forM_cons] at h
    rcases bind_ok h with ⟨_, middle, hpair, h⟩
    rcases hpairs pair List.mem_cons_self with ⟨hplace, hnumeric⟩
    exact ih (define_made hmade hfaithful hnumeric hpair) (define_faithful hfaithful hplace hpair).1.faithful
      (fun other hother => hpairs other (List.mem_cons_of_mem pair hother)) h

theorem linkOption_made (scope : Scope) (referrer : String) (form : Option Form) {found : Option NodeId}
    (hmade : linker.graph.IsMade) (hnumeric : ∀ type ∈ form, type.IsNumeric)
    (h : form.mapM (linkForm scope referrer) linker = .ok (found, later)) : later.graph.IsMade := by
  cases form with
  | none =>
    cases pure_ok h
    exact hmade
  | some type =>
    rw [Option.mapM_some] at h
    rcases map_ok h with ⟨id, hid, rfl⟩
    exact linkForm_made scope referrer type hmade (hnumeric type rfl) hid

theorem linkResponses_made (scope : Scope) (referrer : String) (responses : List (Response Form))
    {linked : List (Response NodeId)} (hmade : linker.graph.IsMade)
    (hnumeric : ∀ response ∈ responses, ∀ type ∈ response.body, type.IsNumeric)
    (h : responses.mapM (linkResponse scope referrer) linker = .ok (linked, later)) : later.graph.IsMade := by
  induction responses generalizing linker linked with
  | nil =>
    rw [List.mapM_nil] at h
    cases pure_ok h
    exact hmade
  | cons response rest ih =>
    rcases linkResponses_cons_ok h with ⟨body, middle, others, hbody, hothers, rfl⟩
    exact ih (linkOption_made scope referrer response.body hmade (hnumeric response List.mem_cons_self) hbody)
      (fun other hother => hnumeric other (List.mem_cons_of_mem response hother)) hothers

theorem linkOperations_made (operations : List (Operation Form)) {value : PUnit} (hmade : linker.graph.IsMade)
    (hnumeric : ∀ operation ∈ operations, ∀ form ∈ operation.bodies, form.IsNumeric)
    (h : List.forM operations linkOperation linker = .ok (value, later)) : later.graph.IsMade := by
  induction operations generalizing linker with
  | nil =>
    cases pure_ok h
    exact hmade
  | cons operation rest ih =>
    rw [List.forM_eq_forM, List.forM_cons] at h
    rcases bind_ok h with ⟨_, middle, hmiddle, h⟩
    refine ih ?_ (fun other hother => hnumeric other (List.mem_cons_of_mem operation hother)) h
    rw [linkOperation] at hmiddle
    rcases bind_ok hmiddle with ⟨request, asked, hrequest, hmiddle⟩
    rcases bind_ok hmiddle with ⟨responses, answered, hresponses, hmiddle⟩
    cases modify_ok hmiddle
    have hbodies := hnumeric operation List.mem_cons_self
    have hanswered : answered.graph.IsMade := by
      refine linkResponses_made operation.scope _ operation.responses ?_ ?_ hresponses
      · refine linkOption_made operation.scope _ operation.request hmade (fun type htype => hbodies type ?_) hrequest
        exact List.mem_append_left _ (Option.mem_toList.2 htype)
      · intro response hresponse type htype
        exact hbodies type (List.mem_append_right _ (List.mem_filterMap.2 ⟨response, hresponse, htype⟩))
    exact hanswered

/-- Before the bodies are linked, every place holds what stands for a declaration. -/
theorem IsPlaced.isMade {declarations : List Declaration} (h : IsPlaced linker declarations)
    (hnumeric : ∀ declaration ∈ declarations, declaration.body.IsNumeric) : linker.graph.IsMade := by
  intro id node hnode
  have hlt := Graph.lt_size_of_node? hnode
  rw [h.size_eq] at hlt
  have hplace := h.places id declarations[id] (List.getElem?_eq_getElem hlt)
  cases hnode.symm.trans hplace
  have hbody := hnumeric declarations[id] (List.getElem_mem hlt)
  rw [placeholder]
  split
  · simp [Node.IsMade]
  · next members hmembers =>
    rw [hmembers] at hbody
    exact hbody
  · trivial
  · trivial

end Draft.Linking

/-- The graph of a draft whose numbers are decimal literals. -/
theorem Draft.link_isMade {draft : Draft} {graph : Graph} (hnumeric : draft.contents.IsNumeric)
    (h : draft.link = .ok graph) : graph.IsMade := by
  obtain ⟨ids, placed, defined, later, hplaced, hdefined, hoperate, rfl⟩ := Draft.link_phases h
  rcases Linking.declareAll_placed _ (Linking.isPlaced_start draft.roots) hplaced with ⟨rfl, hall⟩
  refine Linking.linkOperations_made _ ?_ hnumeric.operations hoperate
  refine Linking.defineAll_made _ (hall.isMade hnumeric.declarations) hall.isFaithful ?_ hdefined
  intro pair hpair
  have hplace := Linking.mem_zip_range'_iff.1 hpair
  exact ⟨hplace, hnumeric.declarations _ (List.mem_of_getElem? hplace)⟩

end SchemaGuards

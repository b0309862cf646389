import SchemaGuards.Proofs.Format.Forms
import SchemaGuards.Proofs.Linking.Consistent
import SchemaGuards.Proofs.Validation

/-!
# The drafts whose graphs are valid

Validation looks at each node by itself, and linking makes nodes with the names that the draft writes. So the
graph of a draft is valid exactly when the draft has no empty segment in a namespace, no two properties of one
name in a model, no two members of one name in an enumeration, and no declared model that is named like the
models with elements.
-/
namespace SchemaGuards

theorem forM_eq_ok {ε α : Type} {step : α → Except ε Unit} {values : List α} :
    List.forM values step = .ok () ↔ ∀ value ∈ values, step value = .ok () := by
  refine ⟨forM_ok, fun h => ?_⟩
  induction values with
  | nil => rfl
  | cons first rest ih =>
    rw [List.forM_eq_forM, List.forM_cons, h first (by simp)]
    exact ih (fun value hvalue => h value (by simp [hvalue]))

theorem validateScope_eq_ok {scope : Scope} : validateScope scope = .ok () ↔ "" ∉ scope := by
  rw [validateScope]
  split <;> simp_all

theorem Model.validate_eq_ok {model : Model} : model.validate = .ok () ↔
    (model.indexed?.isSome → model.indexer.isSome) ∧ (model.properties.map Property.name).Nodup := by
  have hnodup : firstRepeated? [] (model.properties.map Property.name) = none ↔
      (model.properties.map Property.name).Nodup := by
    simp [firstRepeated?_eq_none_iff]
  rw [validate, ← hnodup]
  split
  · next h =>
    rw [Bool.and_eq_true, Option.isNone_iff_eq_none] at h
    simp [h.1, h.2]
  · next h =>
    have hindexer : model.indexed?.isSome → model.indexer.isSome := by
      intro hindexed
      simpa [hindexed, Option.isSome_iff_ne_none] using h
    split
    · next name hname => simp [hname]
    · next hname => exact ⟨fun _ => ⟨hindexer, hname⟩, fun _ => rfl⟩

theorem Enumeration.validate_eq_ok {content : Enumeration} :
    content.validate = .ok () ↔ (content.members.map Member.name).Nodup := by
  have hnodup : firstRepeated? [] (content.members.map Member.name) = none ↔
      (content.members.map Member.name).Nodup := by
    simp [firstRepeated?_eq_none_iff]
  rw [validate, ← hnodup]
  split
  · next name hname => simp [hname]
  · next hname => simp [hname]

theorem except_unit_bind_eq_ok {ε α : Type} {first : Except ε Unit} {next : Unit → Except ε α} {result : α} :
    first >>= next = .ok result ↔ first = .ok () ∧ next () = .ok result :=
  except_bind_eq_ok.trans ⟨fun ⟨(), h⟩ => h, fun h => ⟨(), h⟩⟩

/-- Only enumerations and models have more to validate than their namespace. -/
theorem Node.validate_eq_ok {node : Node} : node.validate = .ok () ↔ "" ∉ node.scope ∧
    (∀ content, node = .enumeration content → content.validate = .ok ()) ∧
    ∀ content, node = .model content → content.validate = .ok () := by
  unfold validate
  rw [except_unit_bind_eq_ok, validateScope_eq_ok]
  cases node with
  | enumeration content => simp
  | model content => simp
  | primitive | member | scalar | tuple | union | unsupported => simp [pure, Except.pure]

namespace Graph

def HasValidNodes (graph : Graph) : Prop := ∀ id node, graph.node? id = some node → node.validate = .ok ()

theorem validate_eq_ok {graph : Graph} : graph.validate = .ok () ↔
    graph.HasValidNodes ∧ ∀ operation ∈ graph.operations, "" ∉ operation.scope := by
  have hnodes : graph.HasValidNodes ↔ List.forM graph.nodes.toList Node.validate = .ok () := by
    rw [forM_eq_ok]
    simp only [HasValidNodes, node?, Array.mem_toList_iff, Array.mem_iff_getElem?]
    grind
  have hoperations : (∀ operation ∈ graph.operations, "" ∉ operation.scope) ↔
      List.forM graph.operations (fun operation => validateScope operation.scope) = .ok () := by
    rw [forM_eq_ok]
    simp only [validateScope_eq_ok]
  rw [validate, except_unit_bind_eq_ok, hnodes, hoperations]

variable {graph : Graph}

theorem HasValidNodes.put (h : graph.HasValidNodes) {later : Graph} {node : Node} (hnode : node.validate = .ok ())
    {places : NodeId → Prop} [DecidablePred places]
    (hlater : ∀ id, later.node? id = if places id then some node else graph.node? id) : later.HasValidNodes := by
  intro id found hfound
  rw [hlater] at hfound
  split at hfound
  · cases hfound
    exact hnode
  · exact h id found hfound

theorem HasValidNodes.add (h : graph.HasValidNodes) {node : Node} (hnode : node.validate = .ok ()) :
    (graph.add node).2.HasValidNodes :=
  h.put hnode (node?_add graph node)

theorem HasValidNodes.declare (h : graph.HasValidNodes) {node : Node} (hnode : node.validate = .ok ()) :
    (graph.declare node).2.HasValidNodes :=
  h.put hnode (node?_declare graph node)

theorem HasValidNodes.replace (h : graph.HasValidNodes) {place : NodeId} {node : Node}
    (hnode : node.validate = .ok ()) : (graph.replace place node).HasValidNodes :=
  h.put hnode (fun id => node?_replace graph place id node)

end Graph

namespace Draft

inductive Form.IsValid : Form → Prop
  | named (name : String) : Form.IsValid (.named name)
  | indexed (kind : Indexed) (element : Form) (h : element.IsValid) : Form.IsValid (.indexed kind element)
  | tuple (elements : List Form) (h : ∀ element ∈ elements, element.IsValid) : Form.IsValid (.tuple elements)
  | union (variants : List Form) (h : ∀ variant ∈ variants, variant.IsValid) : Form.IsValid (.union variants)
  | model (properties : List (Property Form)) (hnames : (properties.map Property.name).Nodup)
    (h : ∀ property ∈ properties, property.type.IsValid) : Form.IsValid (.model properties)
  | literal (value : Primitive) : Form.IsValid (.literal value)
  | unsupported (kind : String) : Form.IsValid (.unsupported kind)

/-- A declaration in a proper namespace. The names of the models with elements are taken. -/
def Declaration.IsValid (declaration : Declaration) : Prop :=
  "" ∉ declaration.scope ∧
    match declaration.body with
    | .model _ properties => Indexed.ofName? declaration.name = none ∧ (properties.map Property.name).Nodup ∧
        ∀ property ∈ properties, property.type.IsValid
    | .enumeration members => (members.map Member.name).Nodup
    | .union variants => ∀ variant ∈ variants, variant.IsValid
    | .scalar _ => True

structure Contents.IsValid (contents : Contents) : Prop where
  declarations : ∀ declaration ∈ contents.declarations, declaration.IsValid
  operations : ∀ operation ∈ contents.operations, "" ∉ operation.scope ∧ ∀ form ∈ operation.bodies, form.IsValid

section Readings
variable {contents : Contents} {graph : Graph} {scope : Scope}

theorem names_of_reads {properties : List (Property Form)} {linked : List (Property NodeId)}
    (h : List.Forall₂ (ReadsProperty contents graph scope) properties linked) :
    linked.map Property.name = properties.map Property.name := by
  induction h with
  | nil => rfl
  | cons hfirst _ ih =>
    cases hfirst
    rw [List.map_cons, List.map_cons, ih]

/-- What a valid graph reads as is valid. -/
theorem Reads.isValid (hvalid : graph.HasValidNodes) {form : Form} {id : NodeId}
    (h : Reads contents graph scope form id) : form.IsValid := by
  refine h.induct (fun name _ _ => .named name) .indexed .tuple .union ?_ .literal .unsupported
  intro properties linked place hplace hproperties hparts
  have hnode := (Node.validate_eq_ok.1 (hvalid place _ hplace.2)).2.2 _ rfl
  refine .model properties ?_ hparts
  rw [← names_of_reads hproperties]
  exact (Model.validate_eq_ok.1 hnode).2

theorem ReadsProperty.isValid (hvalid : graph.HasValidNodes) {property : Property Form} {linked : Property NodeId}
    (h : ReadsProperty contents graph scope property linked) : property.type.IsValid := by
  cases h with
  | mk _ _ _ _ _ id h => exact h.isValid hvalid

theorem ReadsDeclaration.isValid (hvalid : graph.HasValidNodes) {declaration : Declaration} {node : Node}
    (h : ReadsDeclaration contents graph declaration node) (hnode : node.validate = .ok ()) :
    declaration.IsValid := by
  obtain ⟨name, scope, doc, body⟩ := declaration
  obtain ⟨hscope, henumeration, hmodel⟩ := Node.validate_eq_ok.1 hnode
  cases h with
  | model base properties extended linked hbody hbase hproperties =>
    cases hbody
    obtain ⟨hindexed, hnames⟩ := Model.validate_eq_ok.1 (hmodel _ rfl)
    refine ⟨hscope, ?_, ?_, ?_⟩
    · simpa [Model.indexed?, Declaration.decl] using hindexed
    · rwa [names_of_reads hproperties] at hnames
    · intro property hmem
      obtain ⟨_, _, hproperty⟩ := (mem_of_forall₂ hproperties).1 property hmem
      exact hproperty.isValid hvalid
  | enumeration members hbody =>
    cases hbody
    exact ⟨hscope, Enumeration.validate_eq_ok.1 (henumeration _ rfl)⟩
  | union variants parts hbody hvariants =>
    cases hbody
    refine ⟨hscope, ?_⟩
    intro variant hmem
    obtain ⟨_, _, hvariant⟩ := (mem_of_forall₂ hvariants).1 variant hmem
    exact hvariant.isValid hvalid
  | scalar base extended hbody hbase =>
    cases hbody
    exact ⟨hscope, trivial⟩

end Readings

namespace Linking
open Linker

def KeepsValid {α : Type} (step : Linking α) : Prop :=
  ∀ linker value later, step linker = .ok (value, later) → linker.graph.HasValidNodes → later.graph.HasValidNodes

namespace KeepsValid
variable {α β : Type} {step : Linking α} {next : α → Linking β}

theorem pure (value : α) : KeepsValid (Pure.pure value : Linking α) := by
  intro linker result later h hlinker
  cases pure_ok h
  exact hlinker

theorem read : KeepsValid (get : Linking Linker) := by
  intro linker result later h hlinker
  cases get_ok h
  exact hlinker

theorem stop (error : ReadError) : KeepsValid (throw error : Linking α) :=
  fun _ _ _ h _ => absurd h not_throw

theorem addNode {node : Node} (hnode : node.validate = .ok ()) : KeepsValid (Linking.addNode node) := by
  intro linker id later h hlinker
  obtain ⟨rfl, rfl⟩ := addNode_ok h
  exact hlinker.add hnode

theorem change {change : Linker → Linker}
    (h : ∀ linker : Linker, linker.graph.HasValidNodes → (change linker).graph.HasValidNodes) :
    KeepsValid (modify change : Linking PUnit) := by
  intro linker value later hlater hlinker
  cases modify_ok hlater
  exact h linker hlinker

theorem bind_of_ok (h : KeepsValid step)
    (hnext : ∀ linker value later, step linker = .ok (value, later) → KeepsValid (next value)) :
    KeepsValid (step >>= next) := by
  intro linker result later hresult hlinker
  obtain ⟨value, middle, hvalue, hlater⟩ := bind_ok hresult
  exact hnext linker value middle hvalue middle result later hlater (h linker value middle hvalue hlinker)

theorem bind (h : KeepsValid step) (hnext : ∀ value, KeepsValid (next value)) : KeepsValid (step >>= next) :=
  h.bind_of_ok (fun _ value _ _ => hnext value)

theorem mapM {action : α → Linking β} {values : List α} (h : ∀ value ∈ values, KeepsValid (action value)) :
    KeepsValid (values.mapM action) := by
  induction values with
  | nil =>
    rw [List.mapM_nil]
    exact .pure []
  | cons value rest ih =>
    rw [List.forall_mem_cons] at h
    rw [List.mapM_cons]
    exact h.1.bind (fun _ => (ih h.2).bind (fun _ => .pure _))

theorem forM {action : α → Linking PUnit} {values : List α} (h : ∀ value ∈ values, KeepsValid (action value)) :
    KeepsValid (values.forM action) := by
  induction values with
  | nil => exact .pure _
  | cons value rest ih =>
    rw [List.forall_mem_cons] at h
    rw [List.forM_eq_forM, List.forM_cons]
    exact h.1.bind (fun _ => ih h.2)

theorem optionMapM {action : α → Linking β} {value : Option α}
    (h : ∀ found, value = some found → KeepsValid (action found)) : KeepsValid (value.mapM action) := by
  cases value with
  | none => exact .pure none
  | some found =>
    rw [Option.mapM_some, map_eq_pure_bind]
    exact (h found rfl).bind (fun _ => .pure _)

end KeepsValid

theorem builtin_keepsValid (names : List String) : KeepsValid (builtin names) := by
  induction names with
  | nil => exact .pure none
  | cons name bases ih =>
    rw [builtin]
    refine KeepsValid.read.bind (fun linker => ?_)
    split
    · exact .pure _
    · refine ih.bind (fun base => ?_)
      refine (KeepsValid.addNode rfl).bind (fun id => ?_)
      exact KeepsValid.bind (.change (fun _ hvalid => hvalid)) (fun _ => .pure _)

theorem resolveName_keepsValid (scope : Scope) (referrer name : String) :
    KeepsValid (resolveName scope referrer name) := by
  unfold resolveName
  split
  · exact .addNode rfl
  · refine KeepsValid.read.bind (fun linker => ?_)
    dsimp only
    split
    · exact .pure _
    · split
      · refine (builtin_keepsValid _).bind (fun found => ?_)
        split
        · exact .pure _
        · exact .stop _
      · split
        · exact .addNode rfl
        · exact .stop _

section Forms
variable {scope : Scope}

theorem linkForms_keepsValid (referrer : String) {forms : List Form}
    (h : ∀ form ∈ forms, KeepsValid (linkForm scope referrer form)) :
    KeepsValid (linkForms scope referrer forms) := by
  induction forms with
  | nil => exact .pure []
  | cons form rest ih =>
    rw [List.forall_mem_cons] at h
    rw [linkForms]
    exact h.1.bind (fun _ => (ih h.2).bind (fun _ => .pure _))

theorem linkProperties_keepsValid (referrer : String) {properties : List (Property Form)}
    (h : ∀ property ∈ properties, ∀ referrer, KeepsValid (linkForm scope referrer property.type)) :
    KeepsValid (linkProperties scope referrer properties) := by
  induction properties with
  | nil => exact .pure []
  | cons property rest ih =>
    rw [List.forall_mem_cons] at h
    have hfirst : KeepsValid (linkProperty scope referrer property) := by
      rw [linkProperty]
      exact (h.1 _).bind (fun _ => .pure _)
    rw [linkProperties]
    exact hfirst.bind (fun _ => (ih h.2).bind (fun _ => .pure _))

theorem linkProperties_names {referrer : String} {properties : List (Property Form)}
    {linked : List (Property NodeId)} {linker later : Linker}
    (h : linkProperties scope referrer properties linker = .ok (linked, later)) :
    linked.map Property.name = properties.map Property.name := by
  induction properties generalizing linked linker with
  | nil =>
    cases pure_ok h
    rfl
  | cons property rest ih =>
    rw [linkProperties] at h
    obtain ⟨first, middle, hfirst, h⟩ := bind_ok h
    obtain ⟨others, last, hothers, h⟩ := bind_ok h
    cases pure_ok h
    obtain ⟨name, type, optional, visibility, doc⟩ := property
    rw [linkProperty] at hfirst
    obtain ⟨id, _, _, hfirst⟩ := bind_ok hfirst
    cases pure_ok hfirst
    rw [List.map_cons, List.map_cons, ih hothers]

/-- The nodes of a valid type are valid. -/
theorem linkForm_keepsValid (referrer : String) {form : Form} (h : form.IsValid) :
    KeepsValid (linkForm scope referrer form) := by
  induction h generalizing referrer with
  | named name => exact resolveName_keepsValid scope referrer name
  | indexed kind element _ ih =>
    rw [linkForm]
    exact (ih referrer).bind (fun _ => .addNode (by cases kind <;> rfl))
  | tuple elements _ ih =>
    rw [linkForm]
    exact (linkForms_keepsValid referrer (fun form hform => ih form hform referrer)).bind (fun _ => .addNode rfl)
  | union variants _ ih =>
    rw [linkForm]
    exact (linkForms_keepsValid referrer (fun form hform => ih form hform referrer)).bind (fun _ => .addNode rfl)
  | model properties hnames _ ih =>
    rw [linkForm]
    refine (linkProperties_keepsValid referrer ih).bind_of_ok (fun linker linked later hlinked => ?_)
    apply KeepsValid.addNode
    refine Node.validate_eq_ok.2 ⟨List.not_mem_nil, by simp, ?_⟩
    rintro _ ⟨⟩
    refine Model.validate_eq_ok.2 ⟨by simp [Model.indexed?], ?_⟩
    rwa [linkProperties_names hlinked]
  | literal value => exact .addNode rfl
  | unsupported kind => exact .addNode rfl

theorem linkOperation_keepsValid {operation : Operation Form} (h : ∀ form ∈ operation.bodies, form.IsValid) :
    KeepsValid (linkOperation operation) := by
  rw [linkOperation]
  refine KeepsValid.bind ?_ (fun request => KeepsValid.bind ?_ (fun responses => .change (fun _ hvalid => hvalid)))
  · apply KeepsValid.optionMapM
    intro type htype
    apply linkForm_keepsValid
    apply h
    simp [Operation.bodies, htype]
  · apply KeepsValid.mapM
    intro response hmem
    rw [linkResponse]
    refine KeepsValid.bind (KeepsValid.optionMapM (fun type htype => ?_)) (fun _ => .pure _)
    apply linkForm_keepsValid
    apply h
    rw [Operation.bodies, List.mem_append, List.mem_filterMap]
    exact .inr ⟨response, hmem, htype⟩

theorem linkBase_keepsValid (declaration : Declaration) (kind : Kind) (base : Option String) :
    KeepsValid (linkBase declaration kind base) := by
  cases base with
  | none => exact .pure none
  | some name =>
    rw [linkBase]
    refine (resolveName_keepsValid _ _ name).bind (fun id => KeepsValid.read.bind (fun linker => ?_))
    split
    · exact .pure _
    · exact .stop _

/-- A model is valid whatever it extends. -/
theorem validate_declared {declaration : Declaration} {base : Option String} {properties : List (Property Form)}
    (h : declaration.IsValid) (hbody : declaration.body = .model base properties)
    (linked : List (Property NodeId)) (hnames : (linked.map Property.name).Nodup) (extended : Option NodeId) :
    (Node.model { decl := declaration.decl, properties := linked, base := extended }).validate = .ok () := by
  obtain ⟨hscope, h⟩ := h
  rw [hbody] at h
  refine Node.validate_eq_ok.2 ⟨hscope, by simp, ?_⟩
  rintro _ ⟨⟩
  exact Model.validate_eq_ok.2 ⟨by simp [Model.indexed?, Declaration.decl, h.1], hnames⟩

theorem validate_enumerated {declaration : Declaration} {members : List Member} (h : declaration.IsValid)
    (hbody : declaration.body = .enumeration members) :
    (Node.enumeration ⟨declaration.decl, members⟩).validate = .ok () := by
  obtain ⟨hscope, h⟩ := h
  rw [hbody] at h
  refine Node.validate_eq_ok.2 ⟨hscope, ?_, by simp⟩
  rintro _ ⟨⟩
  exact Enumeration.validate_eq_ok.2 h

theorem placeholder_valid {declaration : Declaration} (h : declaration.IsValid) :
    (placeholder declaration).validate = .ok () := by
  cases hbody : declaration.body with
  | model base properties =>
    rw [placeholder, hbody]
    exact validate_declared h hbody [] List.nodup_nil none
  | enumeration members =>
    rw [placeholder, hbody]
    exact validate_enumerated h hbody
  | union variants =>
    rw [placeholder, hbody]
    exact Node.validate_eq_ok.2 ⟨h.1, by simp, by simp⟩
  | scalar base =>
    rw [placeholder, hbody]
    exact Node.validate_eq_ok.2 ⟨h.1, by simp, by simp⟩

theorem declare_keepsValid {declaration : Declaration} (h : declaration.IsValid) :
    KeepsValid (declare declaration) := by
  rw [declare]
  intro linker id later hlater hlinker
  obtain ⟨_, _, hget, hlater⟩ := bind_ok hlater
  cases get_ok hget
  split at hlater
  · exact absurd hlater not_throw
  · obtain ⟨_, _, hset, hlater⟩ := bind_ok hlater
    cases hset
    cases pure_ok hlater
    exact hlinker.declare (placeholder_valid h)

theorem define_keepsValid {declaration : Declaration} (h : declaration.IsValid) (place : NodeId) :
    KeepsValid (define declaration place) := by
  have hreplace : ∀ {node : Node}, node.validate = .ok () → KeepsValid
      (modify (fun linker : Linker => { linker with graph := linker.graph.replace place node }) : Linking PUnit) :=
    fun hnode => .change (fun _ hlinker => hlinker.replace hnode)
  cases hbody : declaration.body with
  | model base properties =>
    have hproperties := h.2
    simp only [hbody] at hproperties
    have hlink : KeepsValid (linkProperties declaration.scope declaration.qualified properties) :=
      linkProperties_keepsValid _
        (fun property hproperty referrer => linkForm_keepsValid referrer (hproperties.2.2 property hproperty))
    simp only [define, hbody]
    refine (linkBase_keepsValid _ _ _).bind (fun extended => hlink.bind_of_ok (fun _ linked _ hlinked => ?_))
    apply hreplace
    apply validate_declared h hbody linked
    rw [linkProperties_names hlinked]
    exact hproperties.2.1
  | enumeration members =>
    simp only [define, hbody]
    exact .pure _
  | union variants =>
    have hvariants := h.2
    simp only [hbody] at hvariants
    have hlink : KeepsValid (linkForms declaration.scope declaration.qualified variants) :=
      linkForms_keepsValid _ (fun form hform => linkForm_keepsValid _ (hvariants form hform))
    simp only [define, hbody]
    exact hlink.bind (fun _ => hreplace (Node.validate_eq_ok.2 ⟨h.1, by simp, by simp⟩))
  | scalar base =>
    simp only [define, hbody]
    exact (linkBase_keepsValid _ _ _).bind (fun _ => hreplace (Node.validate_eq_ok.2 ⟨h.1, by simp, by simp⟩))

end Forms

theorem link_keepsValid {contents : Contents} (h : contents.IsValid) : KeepsValid (link contents) := by
  rw [link]
  refine (KeepsValid.mapM (fun declaration hmem => declare_keepsValid (h.declarations declaration hmem))).bind
    (fun ids => KeepsValid.bind ?_ (fun _ => ?_))
  · apply KeepsValid.forM
    intro pair hpair
    exact define_keepsValid (h.declarations pair.1 (List.of_mem_zip hpair).1) pair.2
  · apply KeepsValid.forM
    intro operation hmem
    exact linkOperation_keepsValid (h.operations operation hmem).2

end Linking

/-- The graph of a draft is valid exactly when the draft is. -/
theorem validate_isOk_iff {draft : Draft} {graph : Graph} (h : draft.link = .ok graph) :
    graph.validate = .ok () ↔ draft.contents.IsValid := by
  have hlinked := Draft.linkedInto h
  rw [Graph.validate_eq_ok]
  constructor
  · rintro ⟨hnodes, hscopes⟩
    refine ⟨?_, ?_⟩
    · intro declaration hmem
      obtain ⟨place, hplace⟩ := List.mem_iff_getElem?.1 hmem
      obtain ⟨node, hnode, hreads⟩ := hlinked.declared place declaration hplace
      exact hreads.isValid hnodes (hnodes place node hnode)
    · intro operation hmem
      obtain ⟨linked, hmem', hreads⟩ := (mem_of_forall₂ hlinked.operations).1 operation hmem
      refine ⟨?_, ?_⟩
      · rw [← hreads.scope_eq]
        exact hscopes linked hmem'
      · intro form hform
        obtain ⟨_, hbody⟩ := hreads.reads_body hform
        exact hbody.isValid hnodes
  · intro hvalid
    refine ⟨?_, ?_⟩
    · rw [Draft.link] at h
      obtain ⟨⟨_, later⟩, hlink, rfl⟩ := except_map_ok h
      apply Linking.link_keepsValid hvalid _ _ _ hlink
      intro id node hnode
      simp [Graph.node?] at hnode
    · intro linked hmem
      obtain ⟨operation, hmem', hreads⟩ := (mem_of_forall₂ hlinked.operations).2 linked hmem
      rw [hreads.scope_eq]
      exact (hvalid.operations operation hmem').1

end Draft
end SchemaGuards

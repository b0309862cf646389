import SchemaGuards.Proofs.Imports
import SchemaGuards.Proofs.Lines.Written

/-!
# Line breaks of resolutions

A resolution breaks lines of its own for documentation only: a comment of several lines is one text. As long as no such
comment is written, the rendering on a single line is one, and every further line of the other rendering starts with
the indentation of its depth.
-/
namespace SchemaGuards
open Text

def Node.ownDocs : Node → List String
  | .enumeration content => content.members.filterMap Member.doc
  | .model content => if content.indexed?.isSome then [] else content.properties.filterMap Property.doc
  | _ => []

namespace Expansion

theorem mem_propertyDocs {doc : String} (properties : List (Property Expansion)) :
    doc ∈ propertyDocs properties ↔ ∃ property ∈ properties, property.doc = some doc ∨ doc ∈ property.type.docs := by
  induction properties with
  | nil => simp [propertyDocs]
  | cons property rest ih =>
    rw [propertyDocs, List.mem_append, List.mem_append, Option.mem_toList, ih]
    simp

theorem mem_listDocs {doc : String} (expansions : List Expansion) :
    doc ∈ listDocs expansions ↔ ∃ expansion ∈ expansions, doc ∈ expansion.docs := by
  induction expansions with
  | nil => simp [listDocs]
  | cons expansion rest ih =>
    rw [listDocs, List.mem_append, ih]
    simp

theorem mem_docs_model {doc : String} (base : Option Expansion) (properties : List (Property Expansion)) :
    doc ∈ (model base properties).docs ↔ (∃ expansion ∈ base.toList, doc ∈ expansion.docs) ∨
      ∃ property ∈ properties, property.doc = some doc ∨ doc ∈ property.type.docs := by
  cases base <;> simp [docs, mem_propertyDocs]

end Expansion

theorem exists_mem_iff_of_forall₂ {α β : Type} {related : α → β → Prop} {values : List α} {results : List β}
    (h : List.Forall₂ related values results) {p : α → Prop} {q : β → Prop}
    (hiff : ∀ value result, related value result → (p value ↔ q result)) :
    (∃ value ∈ values, p value) ↔ ∃ result ∈ results, q result := by
  induction h with
  | nil => simp
  | cons hfirst _ ih => simp [hiff _ _ hfirst, ih]

namespace Workspace
variable {workspace : Workspace} {locked : Bool} {id : NodeId} {node : Node} {doc : String}

/-- The documentation that is written on the way through a place: that of the members and properties of all that is
written in place. -/
inductive Documents (workspace : Workspace) : Bool → NodeId → String → Prop
  | own {locked : Bool} {id : NodeId} {node : Node} {doc : String} (hid : workspace.IsExpanded locked id node)
    (hdoc : doc ∈ node.ownDocs) : Documents workspace locked id doc
  | part {locked : Bool} {id : NodeId} {node : Node} {part : NodeId} {doc : String}
    (hid : workspace.IsExpanded locked id node) (hpart : part ∈ workspace.followed .type node)
    (h : Documents workspace true part doc) : Documents workspace locked id doc

theorem documents_iff (hid : workspace.IsExpanded locked id node) :
    workspace.Documents locked id doc ↔
      doc ∈ node.ownDocs ∨ ∃ part ∈ workspace.followed .type node, workspace.Documents true part doc := by
  constructor
  · intro h
    cases h with
    | own hother hdoc =>
      cases hid.node_eq hother
      exact .inl hdoc
    | part hother hpart h =>
      cases hid.node_eq hother
      exact .inr ⟨_, hpart, h⟩
  · rintro (hdoc | ⟨part, hpart, h⟩)
    · exact .own hid hdoc
    · exact .part hid hpart h

theorem not_documents_of_registered (hnode : workspace.graph.node? id = some node) {entry : Entry}
    (hentry : workspace.registered? node = some entry) : ¬ workspace.Documents true id doc := by
  intro h
  cases h with
  | own hid => exact hid.not_referred hnode hentry
  | part hid => exact hid.not_referred hnode hentry

section Expand
variable {child : NodeId → Traced Expansion}

theorem expandProperty_type_ok {property : Property NodeId} {expanded : Property Expansion}
    (h : (workspace.expandProperty .type child property).outcome = .ok expanded) :
    expanded.doc = property.doc ∧ (child property.type).outcome = .ok expanded.type := by
  rcases Traced.outcome_bind_ok h with ⟨type, htype, h⟩
  cases h
  exact ⟨rfl, htype⟩

theorem expandModel_fields {content : Model} (hkind : content.indexed? = none) {expansion : Expansion}
    (h : (workspace.expandModel .type content child).outcome = .ok expansion) :
    ∃ base properties, expansion = .model base properties ∧
      Option.Rel (fun part result => (child part).outcome = .ok result) content.base base ∧
      List.Forall₂ (fun (property : Property NodeId) (expanded : Property Expansion) =>
        expanded.doc = property.doc ∧ (child property.type).outcome = .ok expanded.type) content.properties properties := by
  rw [expandModel] at h
  simp only [hkind] at h
  rcases Traced.outcome_bind_ok h with ⟨base, hbase, h⟩
  rcases Traced.outcome_bind_ok h with ⟨properties, hproperties, h⟩
  cases h
  exact ⟨base, properties, rfl, Traced.outcome_optionMapM_ok hbase,
    (Traced.outcome_mapM_ok hproperties).imp (fun _ _ => expandProperty_type_ok)⟩

/-- What is made of a node holds its own documentation and that of the parts that are followed. -/
theorem mem_docs_expandNode {expansion : Expansion} (h : (workspace.expandNode .type node child).outcome = .ok expansion)
    (hchild : ∀ part result, (child part).outcome = .ok result →
      (workspace.Documents true part doc ↔ doc ∈ result.docs)) :
    doc ∈ expansion.docs ↔
      doc ∈ node.ownDocs ∨ ∃ part ∈ workspace.followed .type node, workspace.Documents true part doc := by
  cases expandNode_ok h with
  | primitive | member | enumeration => simp [Expansion.docs, Node.ownDocs, followed, Node.continuation]
  | mapped content text htext =>
    rw [followed_mapped htext]
    simp [Expansion.docs, Node.ownDocs]
  | terminal content type htext hbase | unresolved content htext hbase =>
    rw [followed_scalar htext, hbase]
    simp [Expansion.docs, Node.ownDocs]
  | derived content base expanded htext hbase hexpanded =>
    rw [followed_scalar htext, hbase]
    simpa [Expansion.docs, Node.ownDocs] using (hchild _ _ hexpanded).symm
  | indexed content kind element expanded hkind helement hexpanded =>
    rw [followed_indexed hkind, helement]
    simpa [Expansion.docs, Node.ownDocs, hkind] using (hchild _ _ hexpanded).symm
  | model content base properties hkind =>
    obtain ⟨_, _, hmodel, hbase, hproperties⟩ := expandModel_fields hkind h
    cases hmodel
    have hparts := exists_mem_iff_of_forall₂ (forall₂_toList hbase) hchild
    have hfields := exists_mem_iff_of_forall₂ hproperties
      (p := fun property => property.doc = some doc ∨ workspace.Documents true property.type doc)
      (q := fun property => property.doc = some doc ∨ doc ∈ property.type.docs)
      (fun property expanded hfield => by rw [hfield.1, hchild _ _ hfield.2])
    rw [followed_model hkind, Expansion.mem_docs_model, ← hparts, ← hfields]
    simp only [Node.ownDocs, hkind, Option.isSome_none, Bool.false_eq_true, if_false, List.mem_append, List.mem_map,
      List.mem_filterMap]
    grind
  | tuple parts elements helements =>
    rw [Expansion.docs, Expansion.mem_listDocs, ← exists_mem_iff_of_forall₂ helements hchild]
    simp [Node.ownDocs, followed, Node.continuation]
  | union content variants hvariants =>
    rw [Expansion.docs, Expansion.mem_listDocs, ← exists_mem_iff_of_forall₂ hvariants hchild]
    simp [Node.ownDocs, followed, Node.continuation]

end Expand

/-- An expansion holds the documentation that is met on the way through its node. -/
theorem mem_docs_expand {ancestry : List NodeId} {expansion : Expansion}
    (h : (workspace.expand .type locked ancestry id).outcome = .ok expansion) :
    doc ∈ expansion.docs ↔ workspace.Documents locked id doc := by
  induction locked, ancestry, id using Workspace.expand.induct workspace generalizing expansion with
  | case1 locked ancestry id hnode =>
    rw [expand_missing workspace .type hnode] at h
    cases h
  | case2 locked ancestry id node hnode result hresult =>
    rw [expand_reference workspace .type hnode hresult] at h
    cases h
    rcases reference?_some hresult with ⟨rfl, entry, hentry, rfl⟩
    exact iff_of_false (by simp [Expansion.docs]) (not_documents_of_registered hnode hentry)
  | case3 locked ancestry id node hnode hreference hcycle =>
    rw [expand_cycle workspace .type hnode hreference hcycle] at h
    cases node <;> cases h
  | case4 locked ancestry id node hnode hreference hcycle _ ih =>
    have hid : workspace.IsExpanded locked id node := ⟨hnode, reference?_none hreference⟩
    rw [expand_node workspace .type hnode hreference hcycle] at h
    rw [documents_iff hid]
    exact mem_docs_expandNode h (fun part result hresult => (ih part hresult).symm)

/-- A resolution is broken by the comments of the documentation that it holds, and a guard holds none. -/
theorem resolve_isBrokenBy (h : workspace.IsClean IsLine) {mode : Mode} {context : Context} {resolution : Resolution}
    (haccessor : IsLine context.accessor) (hlifecycle : IsLine context.lifecycle)
    (hresolution : (workspace.resolve mode id context).outcome = .ok resolution) :
    ∃ comments, Layout.IsBrokenBy resolution.text comments ∧
      ∀ content, content ∈ comments ↔ mode = .type ∧ workspace.config.emitDocs = true ∧
        ∃ doc, workspace.Documents context.locked id doc ∧ content = docComment doc ∧ ¬ IsLine content := by
  rcases resolve_ok hresolution with ⟨expansion, hexpansion, rfl⟩
  have hclean := h.expand hexpansion
  cases mode with
  | guard =>
    refine ⟨[], Guard.unbroken_ofExpansion context.target (.named context.accessor) haccessor expansion hclean, ?_⟩
    simp
  | type =>
    have hstyle : IsLine (workspace.typeStyle context).argument := hlifecycle
    refine ⟨_, TypeExpr.ofExpansion_isBrokenBy hstyle (workspace.isInModel context) expansion hclean, fun content => ?_⟩
    rw [TypeStyle.mem_brokenComments]
    simp only [typeStyle, mem_docs_expand hexpansion, true_and]

end Workspace

/-- As long as no name has a line break and no scalar is mapped, the line breaks in the texts of a resolution are those
of comments: for a type with documentation, a text has line breaks exactly if it is such a comment of documentation
that is written in place. A comment has a line feed if the documentation has one in front of its last character.
Without such comments no text has line breaks, the rendering on a single line is one, and the lines of the other
rendering are the rows behind the indentation of their depth. -/
theorem resolve_break_iff_documented {text : String} {graph : Graph} {registry : Registry} (hgraph : Graph.ofText text = .ok graph)
    (hregistry : Registry.ofGraph graph = .ok registry) (hnames : graph.DeclaresOnly IsLine) (config : Config)
    (htypes : config.typeMappings = []) (hguards : config.guardMappings = []) (mode : Mode) (id : NodeId)
    {context : Context} (haccessor : context.accessor = "t") (hlifecycle : context.lifecycle = "V")
    {resolution : Resolution}
    (h : (Workspace.resolve ⟨graph, registry, config⟩ mode id context).outcome = .ok resolution) :
    let documented := Workspace.Documents ⟨graph, registry, config⟩ context.locked id
    (∀ content, (content ∈ Layout.texts resolution.text ∧ ¬ IsLine content) ↔ mode = .type ∧ config.emitDocs = true ∧
      ∃ doc, documented doc ∧ content = docComment doc ∧ ¬ IsLine content) ∧
    (∀ doc, '\n' ∈ (docComment doc).toList ↔ '\n' ∈ doc.toList.dropLast) ∧
    ((mode = .type → config.emitDocs = true → ∀ doc, documented doc → IsLine (docComment doc)) →
      (∀ content ∈ Layout.texts resolution.text, IsLine content) ∧ IsLine (Layout.flat resolution.text) ∧
      ∀ level, splitText '\n' (Layout.prettyAt level resolution.text) =
        (Layout.rows resolution.text).first ::
          (Layout.rows resolution.text).rest.map (fun row => spaces (2 * (level + row.1)) ++ row.2)) := by
  intro documented
  have hclean : Workspace.IsClean ⟨graph, registry, config⟩ IsLine :=
    Workspace.isClean_of_text hgraph hregistry hnames htypes hguards
  obtain ⟨comments, hbroken, hcomments⟩ := Workspace.resolve_isBrokenBy hclean
    (haccessor ▸ by decide : IsLine context.accessor) (hlifecycle ▸ by decide : IsLine context.lifecycle) h
  refine ⟨fun content => ?_, feed_mem_docComment_iff, fun hlines => ?_⟩
  · rw [← hcomments content, ← hbroken.texts_eq]
    simp [Layout.brokenTexts]
  · have hnone : comments = [] := by
      refine List.eq_nil_iff_forall_not_mem.2 (fun content hcontent => ?_)
      obtain ⟨hmode, hdocs, doc, hdoc, rfl, hbreak⟩ := (hcomments content).1 hcontent
      exact hbreak (hlines hmode hdocs doc hdoc)
    subst hnone
    exact ⟨hbroken.isLine_of_mem, hbroken.flat_isLine, hbroken.splitText_prettyAt⟩

namespace Sample

def commentedText (doc : String) : String :=
  "<schema><namespace name=\"A\"><model name=\"M\"><property name=\"x\" type=\"string\" doc=\"" ++ doc ++
    "\"/></model></namespace></schema>"

def commentedGraph (doc : String) : Graph where
  nodes := #[.model { decl := { name := some "M", scope := ["A"] },
                      properties := [{ name := "x", type := 1, doc := some doc }] },
             .scalar ⟨{ name := some "string", scope := builtinScope }, none⟩]
  declarations := [0]
  names := [("A.M", 0)]

theorem ofText_commentedText_one : Graph.ofText (commentedText "one\n") = .ok (commentedGraph "one\n") :=
  (Graph.ofText_eq (toList_append (toList_append (toList_literal rfl) (toList_literal rfl)) (toList_literal rfl))
    (by decide)).trans (by decide +kernel)

theorem ofText_commentedText_two : Graph.ofText (commentedText "one\ntwo") = .ok (commentedGraph "one\ntwo") :=
  (Graph.ofText_eq (toList_append (toList_append (toList_literal rfl) (toList_literal rfl)) (toList_literal rfl))
    (by decide)).trans (by decide +kernel)

theorem ofGraph_commentedGraph (doc : String) : Registry.ofGraph (commentedGraph doc) = .ok restrictedRegistry := rfl

theorem declaresOnly_commentedGraph (doc : String) : (commentedGraph doc).DeclaresOnly IsLine := by
  intro id hid node hnode
  cases List.mem_singleton.1 hid
  cases hnode
  refine ⟨fun name hname => ?_, fun segment hsegment => ?_⟩
  · cases hname
    decide
  · cases List.mem_singleton.1 hsegment
    decide

end Sample

/-- The type of a property whose documentation has its only line feed at the end. -/
theorem resolve_break_iff_documented_commentedText : ∃ resolution,
    (Workspace.resolve ⟨Sample.commentedGraph "one\n", Sample.restrictedRegistry, {}⟩ .type 0
        (.ofScope ["A"])).outcome = .ok resolution ∧
      IsLine (Layout.flat resolution.text) ∧
      splitText '\n' (Layout.prettyAt 1 resolution.text) = ["\x7b", "    /** one */", "    x: string", "  \x7d"] := by
  have hany : (Workspace.resolve ⟨Sample.commentedGraph "one\n", Sample.restrictedRegistry, {}⟩ .type 0
      (.ofScope ["A"])).outcome.toOption.any (fun resolution =>
        (Layout.texts resolution.text).all (fun content => IsLine content) ∧
          Layout.rows resolution.text = ⟨"\x7b", [(1, "/** one */"), (1, "x: string"), (0, "\x7d")]⟩) = true := by
    decide +kernel
  obtain ⟨resolution, hresolution, hlines, hrows⟩ := exists_ok_of_any hany
  have haccessor : (Context.ofScope ["A"]).accessor = "t" := rfl
  obtain ⟨hbroken, -, hunbroken⟩ := resolve_break_iff_documented Sample.ofText_commentedText_one
    (Sample.ofGraph_commentedGraph _) (Sample.declaresOnly_commentedGraph _) {} rfl rfl .type 0 haccessor rfl hresolution
  obtain ⟨-, hflat, hpretty⟩ := hunbroken (fun hmode hdocs doc hdoc => by
    apply Decidable.byContradiction
    intro hbreak
    have hmem := (hbroken _).2 ⟨hmode, hdocs, doc, hdoc, rfl, hbreak⟩
    exact hbreak (of_decide_eq_true (List.all_eq_true.1 hlines _ hmem.1)))
  refine ⟨resolution, hresolution, hflat, ?_⟩
  rw [hpretty, hrows]
  decide

/-- A comment of two lines is one text: its second line starts without the indentation of its depth. -/
theorem resolve_brokenComment : ∃ graph registry resolution,
    Graph.ofText (Sample.commentedText "one\ntwo") = .ok graph ∧ graph.validate = .ok () ∧
      Registry.ofGraph graph = .ok registry ∧ graph.DeclaresOnly IsLine ∧
      (Workspace.resolve ⟨graph, registry, {}⟩ .type 0 (.ofScope ["A"])).outcome = .ok resolution ∧
      "/**\n * one\n * two\n */" ∈ Layout.texts resolution.text ∧
      Layout.flat resolution.text = "\x7b/**\n * one\n * two\n */ x: string\x7d" ∧
      Layout.pretty resolution.text = "\x7b\n  /**\n * one\n * two\n */\n  x: string\n\x7d" := by
  have hany : (Workspace.resolve ⟨Sample.commentedGraph "one\ntwo", Sample.restrictedRegistry, {}⟩ .type 0
      (.ofScope ["A"])).outcome.toOption.any (fun resolution =>
        "/**\n * one\n * two\n */" ∈ Layout.texts resolution.text ∧
          Layout.flat resolution.text = "\x7b/**\n * one\n * two\n */ x: string\x7d" ∧
          Layout.pretty resolution.text = "\x7b\n  /**\n * one\n * two\n */\n  x: string\n\x7d") = true := by
    decide +kernel
  obtain ⟨resolution, hresolution, htexts⟩ := exists_ok_of_any hany
  exact ⟨_, _, resolution, Sample.ofText_commentedText_two, by decide, Sample.ofGraph_commentedGraph _,
    Sample.declaresOnly_commentedGraph _, hresolution, htexts⟩

end SchemaGuards

import SchemaGuards.Proofs.Files
import SchemaGuards.Proofs.Order.Documents
import SchemaGuards.Proofs.Order.Linking

/-!
# Runs over reordered documents

The order of declarations decides the places of nodes, the order in which built-in scalars are made and the
order in which declarations are registered and written, and nothing else: a run over another order succeeds
as well, and writes every declaration in the same words.
-/
namespace SchemaGuards

namespace Emission

def NamespaceFile.importLines (file : NamespaceFile) : List String :=
  (if file.usesLifecycle then [lifecycleImport file.extensions] else []) ++
    file.imports.map (scopeImport file.extensions)

/-- Exports that are written in the same words. -/
structure Export.Agrees (item other : Export) : Prop where
  identity_eq : other.entry.identity = item.entry.identity
  typeText_eq : other.typeText = item.typeText
  guardText_eq : other.guard.map other.guardText = item.guard.map item.guardText
  parameters_eq : other.parameters = item.parameters
  text_eq : other.text = item.text

/-- Files of one namespace that write the same imports and the same exports in whatever order. -/
structure NamespaceFile.Agrees (file other : NamespaceFile) : Prop where
  scope_eq : other.scope = file.scope
  importLines : file.importLines.Perm other.importLines
  exports : Matched Export.Agrees file.exports other.exports

theorem Export.Same.agrees {item other : Export} (h : item.Same other) : item.Agrees other := by
  have hname : other.name = item.name := by rw [name, name, h.identity_eq]
  have hgeneric : other.isGeneric = item.isGeneric := by rw [isGeneric, isGeneric, h.type_eq]
  have hparameters : other.parameters = item.parameters := by rw [parameters, parameters, hgeneric]
  have htype : other.typeText = item.typeText := by
    rw [typeText, typeText, h.isEnumeration_eq, hname, hparameters, h.type_eq]
  have hguard : ∀ guard, other.guardText guard = item.guardText guard := by
    intro guard
    unfold guardText
    dsimp only
    rw [hname, hgeneric]
  refine ⟨h.identity_eq, htype, ?_, hparameters, ?_⟩
  · rw [h.guard_eq]
    exact Option.map_congr (fun guard _ => hguard guard)
  · simp only [text, h.type_eq, h.guard_eq, htype, hguard]

theorem NamespaceFile.Same.usesLifecycle_eq {file other : NamespaceFile} (h : file.Same other) :
    other.usesLifecycle = file.usesLifecycle := by
  rw [usesLifecycle, usesLifecycle, Bool.eq_iff_iff, List.any_eq_true, List.any_eq_true]
  constructor
  · rintro ⟨item', hitem', hgeneric⟩
    rcases h.exports.exists_left hitem' with ⟨item, hitem, hsame⟩
    exact ⟨item, hitem, by rwa [Export.isGeneric, ← hsame.type_eq]⟩
  · rintro ⟨item, hitem, hgeneric⟩
    rcases h.exports.exists_right hitem with ⟨item', hitem', hsame⟩
    exact ⟨item', hitem', by rwa [Export.isGeneric, hsame.type_eq]⟩

theorem NamespaceFile.Same.imports_perm {file other : NamespaceFile} (h : file.Same other) :
    file.imports.Perm other.imports := by
  have hscopes : ∀ item item' : Export, item.Same item' → item'.importedScopes = item.importedScopes := by
    intro item item' hsame
    rw [Export.importedScopes, Export.importedScopes, hsame.type_eq, hsame.guard_eq]
  refine (List.perm_ext_iff_of_nodup (nodup_distinct _) (nodup_distinct _)).2 (fun scope => ?_)
  simp only [mem_distinct, List.mem_filter, List.mem_flatMap, h.scope_eq]
  refine and_congr_left (fun _ => ⟨?_, ?_⟩)
  · rintro ⟨item, hitem, hscope⟩
    rcases h.exports.exists_right hitem with ⟨item', hitem', hsame⟩
    exact ⟨item', hitem', hscopes _ _ hsame ▸ hscope⟩
  · rintro ⟨item', hitem', hscope⟩
    rcases h.exports.exists_left hitem' with ⟨item, hitem, hsame⟩
    exact ⟨item, hitem, hscopes _ _ hsame ▸ hscope⟩

theorem NamespaceFile.Same.agrees {file other : NamespaceFile} (h : file.Same other) : file.Agrees other := by
  refine ⟨h.scope_eq, ?_, h.exports.imp (fun _ _ => Export.Same.agrees)⟩
  rw [importLines, importLines, h.usesLifecycle_eq, h.extensions_eq]
  exact (h.imports_perm.map _).append_left _

end Emission

open Emission

theorem Workspace.exists_generate {workspace : Workspace} (hconfig : workspace.config.validate = .ok ())
    {files : List NamespaceFile} (hfiles : workspace.namespaceFiles.outcome = .ok files) {routes : List RouteFile}
    (hroutes : workspace.routeFiles.outcome = .ok routes) : ∃ output, workspace.generate = .ok output := by
  have hall : ∃ all, workspace.files.outcome = .ok all := by
    rw [Workspace.files, Workspace.filesBy, ← Workspace.namespaceFiles, ← Workspace.routeFiles,
      Traced.bind_ok hfiles]
    dsimp only
    rw [Traced.bind_ok hroutes]
    exact ⟨_, rfl⟩
  rcases hall with ⟨all, hall⟩
  refine ⟨⟨all, workspace.files.log⟩, ?_⟩
  rw [Workspace.generate, hconfig, except_ok_bind]
  dsimp only
  rw [hall]
  rfl

section Runs
variable {text text' : String} (horder : (Markup.Document.ofText text).Reordered (Markup.Document.ofText text'))
  (hapart : ∀ draft, Draft.ofText text = .ok draft → draft.contents.IsApart)
include horder hapart

theorem isApart_reordered : ∀ draft, Draft.ofText text' = .ok draft → draft.contents.IsApart := by
  intro draft' hdraft'
  rcases Draft.ofDocument_reordered horder.symm hdraft' with ⟨draft, hdraft, hreorders⟩
  exact hreorders.symm.contents.isApart (hapart draft hdraft)

theorem Graph.ofText_reordered {graph : Graph} (h : Graph.ofText text = .ok graph) :
    ∃ graph', Graph.ofText text' = .ok graph' ∧ (graph.validate = .ok () → graph'.validate = .ok ()) ∧
      ∀ {registry registry' : Registry}, Registry.ofGraph graph = .ok registry →
        Registry.ofGraph graph' = .ok registry' → ∀ config, ∃ related,
          (Workspace.mk graph registry config).Reorders ⟨graph', registry', config⟩ related := by
  rcases except_bind_ok h with ⟨draft, hdraft, hlink⟩
  rcases Draft.ofDocument_reordered horder hdraft with ⟨draft', hdraft', hreorders⟩
  rcases Draft.link_reordered hreorders (hapart draft hdraft) hlink with ⟨graph', hlink'⟩
  refine ⟨graph', except_bind_eq_ok.2 ⟨draft', hdraft', hlink'⟩, Draft.valid_reordered hreorders hlink hlink', ?_⟩
  intro registry registry' hregistry hregistry' config
  exact ⟨_, Workspace.reorders hreorders hlink hlink' hregistry hregistry' config⟩

theorem Workspace.ofText_reordered {config : Config} {workspace : Workspace}
    (h : Workspace.ofText text config = .ok workspace) : ∃ workspace' related,
      Workspace.ofText text' config = .ok workspace' ∧ workspace.Reorders workspace' related := by
  rcases except_bind_ok h with ⟨graph, hgraph, h⟩
  rcases except_bind_ok h with ⟨_, hvalid, h⟩
  rcases except_bind_ok h with ⟨registry, hregistry, h⟩
  cases h
  rcases Graph.ofText_reordered horder hapart (except_mapError_ok hgraph) with ⟨graph', hgraph', hvalid', hreorders⟩
  have hvalid' := hvalid' (except_mapError_ok hvalid)
  rcases Workspace.ofText_isSound hgraph' hvalid' with ⟨registry', _, hregistry', _⟩
  rcases hreorders (except_mapError_ok hregistry) hregistry' config with ⟨related, hrelated⟩
  exact ⟨_, related, Workspace.ofText_eq hgraph' hvalid' hregistry' config, hrelated⟩

theorem isRun_reordered {config : Config} {output : Output} {workspace : Workspace} {files : List NamespaceFile}
    {routes : List RouteFile} (h : IsRun text config output workspace files routes) :
    ∃ output' workspace' files', IsRun text' config output' workspace' files' routes ∧
      (workspace.registry.map Entry.identity).Perm (workspace'.registry.map Entry.identity) ∧
      Matched NamespaceFile.Agrees files files' := by
  rcases Workspace.ofText_reordered horder hapart h.workspace_eq with ⟨workspace', related, hworkspace', hreorders⟩
  rcases Workspace.namespaceFiles_simulated hreorders files h.files_eq with ⟨files', hfiles', hmatched⟩
  rcases Workspace.routeFiles_simulated hreorders routes h.routes_eq with ⟨_, hroutes', rfl⟩
  have hconfig : workspace'.config.validate = .ok () := by
    rcases except_bind_ok h.output_eq with ⟨found, hfound, hrun⟩
    cases h.workspace_eq.symm.trans hfound
    rw [hreorders.config_eq]
    exact (Workspace.generate_ok hrun).1
  rcases Workspace.exists_generate hconfig hfiles' hroutes' with ⟨output', houtput'⟩
  have hgenerate : generate text' config = .ok output' := by
    rw [generate, hworkspace']
    exact houtput'
  rcases exists_isRun hgenerate with ⟨found, foundFiles, foundRoutes, hrun⟩
  cases hworkspace'.symm.trans hrun.workspace_eq
  cases hfiles'.symm.trans hrun.files_eq
  cases hroutes'.symm.trans hrun.routes_eq
  refine ⟨output', _, _, hrun, ?_, hmatched.imp (fun _ _ => NamespaceFile.Same.agrees)⟩
  exact hreorders.entries.map_perm (fun _ _ hentry => hentry.1)

/-- The order of declarations does not matter, unless a declaration without a name is qualified like another
one. Documents that differ in it are both accepted or both not, and under every configuration runs over both
succeed or both fail. They write each registered declaration in the same words, the same import lines into the
file of each namespace, and the same route files. -/
theorem generate_reordered :
    ((∃ graph, Graph.ofText text = .ok graph) ↔ ∃ graph, Graph.ofText text' = .ok graph) ∧
    ∀ config, ((∃ output, generate text config = .ok output) ↔ ∃ output, generate text' config = .ok output) ∧
      ∀ output, generate text config = .ok output → ∃ output' workspace workspace' files files' routes,
        IsRun text config output workspace files routes ∧ IsRun text' config output' workspace' files' routes ∧
        (workspace.registry.map Entry.identity).Perm (workspace'.registry.map Entry.identity) ∧
        Matched NamespaceFile.Agrees files files' := by
  have hapart' := isApart_reordered horder hapart
  have hruns : ∀ config output, generate text config = .ok output →
      ∃ output' workspace workspace' files files' routes,
        IsRun text config output workspace files routes ∧ IsRun text' config output' workspace' files' routes ∧
        (workspace.registry.map Entry.identity).Perm (workspace'.registry.map Entry.identity) ∧
        Matched NamespaceFile.Agrees files files' := by
    intro config output h
    rcases exists_isRun h with ⟨workspace, files, routes, hrun⟩
    rcases isRun_reordered horder hapart hrun with ⟨output', workspace', files', hrun', hagrees⟩
    exact ⟨output', workspace, workspace', files, files', routes, hrun, hrun', hagrees⟩
  refine ⟨⟨?_, ?_⟩, fun config => ⟨⟨?_, ?_⟩, hruns config⟩⟩
  · rintro ⟨graph, h⟩
    rcases Graph.ofText_reordered horder hapart h with ⟨graph', h', _⟩
    exact ⟨graph', h'⟩
  · rintro ⟨graph', h'⟩
    rcases Graph.ofText_reordered horder.symm hapart' h' with ⟨graph, h, _⟩
    exact ⟨graph, h⟩
  · rintro ⟨output, h⟩
    rcases hruns config output h with ⟨output', _, _, _, _, _, _, hrun', _⟩
    exact ⟨output', hrun'.output_eq⟩
  · rintro ⟨output', h'⟩
    rcases exists_isRun h' with ⟨_, _, _, hrun'⟩
    rcases isRun_reordered horder.symm hapart' hrun' with ⟨output, _, _, hrun, _⟩
    exact ⟨output, hrun.output_eq⟩

end Runs

namespace Sample
open Markup Text

def modelElement (name : String) (children : List Element) : Element :=
  ⟨"model", .ok [⟨"name", name⟩], children, .closed⟩

def namespaceElement (name : String) (children : List Element) : Element :=
  ⟨"namespace", .ok [⟨"name", name⟩], children, .closed⟩

def schemaDocument (children : List Element) : Document := ⟨[⟨"schema", .ok [], children, .closed⟩], .unfinished⟩

theorem document_of_tags {text : String} {cs : List Char} (tags : List Tag) (htext : text.toList = cs)
    (hread : readTags cs = (tags, none)) (hmark : cs.head? ≠ some '\ufeff') :
    Document.ofText text = .nest none [] [] tags := by
  rw [Markup.Document.ofText_eq htext hmark, hread]

/-- A model that refers to the one behind it. -/
def forwardText : String :=
  "<schema><namespace name=\"A\"><model name=\"M\"><property name=\"p\" type=\"N\"/></model>" ++
    "<model name=\"N\"/></namespace></schema>"

/-- The same models, so that the reference is to the one before it. -/
def backwardText : String :=
  "<schema><namespace name=\"A\"><model name=\"N\"/>" ++
    "<model name=\"M\"><property name=\"p\" type=\"N\"/></model></namespace></schema>"

def referringElement : Element :=
  modelElement "M" [⟨"property", .ok [⟨"name", "p"⟩, ⟨"type", "N"⟩], [], .closed⟩]

def referringTags : List Tag :=
  [.start "model" (.ok [⟨"name", "M"⟩]), .empty "property" (.ok [⟨"name", "p"⟩, ⟨"type", "N"⟩]), .close "model"]

theorem document_forwardText : Document.ofText forwardText =
    schemaDocument [namespaceElement "A" [referringElement, modelElement "N" []]] := by
  have htext : forwardText.toList = _ := toList_append (toList_literal rfl) (toList_literal rfl)
  exact (document_of_tags (.start "schema" (.ok []) :: .start "namespace" (.ok [⟨"name", "A"⟩]) :: referringTags ++
    [.empty "model" (.ok [⟨"name", "N"⟩]), .close "namespace", .close "schema"]) htext (by decide +kernel)
    (by decide)).trans rfl

theorem document_backwardText : Document.ofText backwardText =
    schemaDocument [namespaceElement "A" [modelElement "N" [], referringElement]] := by
  have htext : backwardText.toList = _ := toList_append (toList_literal rfl) (toList_literal rfl)
  exact (document_of_tags (.start "schema" (.ok []) :: .start "namespace" (.ok [⟨"name", "A"⟩]) ::
    .empty "model" (.ok [⟨"name", "N"⟩]) :: referringTags ++ [.close "namespace", .close "schema"]) htext
    (by decide +kernel) (by decide)).trans rfl

def forwardGraph : Graph where
  nodes := #[.model { decl := { name := some "M", scope := ["A"] }, properties := [{ name := "p", type := 1 }] },
             .model { decl := { name := some "N", scope := ["A"] } }]
  declarations := [0, 1]
  names := [("A.N", 1), ("A.M", 0)]

theorem ofText_forwardText : Graph.ofText forwardText = .ok forwardGraph := by
  rw [Graph.ofText, Draft.ofText, document_forwardText]
  decide

theorem isApart_forwardText : ∀ draft, Draft.ofText forwardText = .ok draft → draft.contents.IsApart := by
  have hnamed : (Draft.ofText forwardText).toOption.all (fun draft =>
      draft.contents.declarations.all (fun declaration => declaration.name ≠ "" ∧ declaration.scope ≠ [])) := by
    rw [Draft.ofText, document_forwardText]
    decide
  intro draft hdraft
  rw [hdraft] at hnamed
  exact .of_isNamed (by simpa [Except.toOption, Draft.Declaration.IsNamed] using hnamed)

/-- A model without a name that is qualified like the one behind it. -/
def namelessFirstText : String :=
  "<schema><namespace name=\"A\"><model name=\"C\"/><namespace name=\"B\"><model name=\"\"/></namespace>" ++
    "<model name=\"B.\"/></namespace></schema>"

def namelessLastText : String :=
  "<schema><namespace name=\"A\"><model name=\"B.\"/><namespace name=\"B\"><model name=\"\"/></namespace>" ++
    "<model name=\"C\"/></namespace></schema>"

theorem document_namelessFirstText : Document.ofText namelessFirstText = schemaDocument [namespaceElement "A"
    [modelElement "C" [], namespaceElement "B" [modelElement "" []], modelElement "B." []]] := by
  have htext : namelessFirstText.toList = _ := toList_append (toList_literal rfl) (toList_literal rfl)
  exact (document_of_tags [.start "schema" (.ok []), .start "namespace" (.ok [⟨"name", "A"⟩]),
    .empty "model" (.ok [⟨"name", "C"⟩]), .start "namespace" (.ok [⟨"name", "B"⟩]),
    .empty "model" (.ok [⟨"name", ""⟩]), .close "namespace", .empty "model" (.ok [⟨"name", "B."⟩]), .close "namespace",
    .close "schema"] htext (by decide +kernel) (by decide)).trans rfl

theorem document_namelessLastText : Document.ofText namelessLastText = schemaDocument [namespaceElement "A"
    [modelElement "B." [], namespaceElement "B" [modelElement "" []], modelElement "C" []]] := by
  have htext : namelessLastText.toList = _ := toList_append (toList_literal rfl) (toList_literal rfl)
  exact (document_of_tags [.start "schema" (.ok []), .start "namespace" (.ok [⟨"name", "A"⟩]),
    .empty "model" (.ok [⟨"name", "B."⟩]), .start "namespace" (.ok [⟨"name", "B"⟩]),
    .empty "model" (.ok [⟨"name", ""⟩]), .close "namespace", .empty "model" (.ok [⟨"name", "C"⟩]), .close "namespace",
    .close "schema"] htext (by decide +kernel) (by decide)).trans rfl

/-- The children of the only namespace of a schema in another order. -/
theorem schemaDocument_reordered {name : String} {children others : List Element}
    (hdeclarations : (children.filter Element.isDeclaration).Perm (others.filter Element.isDeclaration))
    (hrest : List.Forall₂ Element.Reordered (children.filter (fun child => !child.isDeclaration))
      (others.filter (fun child => !child.isDeclaration))) :
    (schemaDocument [namespaceElement name children]).Reordered (schemaDocument [namespaceElement name others]) :=
  ⟨rfl, .cons ⟨rfl, rfl, rfl, .cons (.namespace _ _ _ _ hdeclarations hrest) .nil⟩ .nil⟩

end Sample

/-- A document whose reference goes forward and the one whose reference goes back are run alike. -/
theorem generate_reordered_forwardText :
    (Markup.Document.ofText Sample.forwardText).Reordered (Markup.Document.ofText Sample.backwardText) ∧
    (∀ draft, Draft.ofText Sample.forwardText = .ok draft → draft.contents.IsApart) ∧
    ∃ output output' workspace workspace' files files' routes,
      IsRun Sample.forwardText { emitGuards := true } output workspace files routes ∧
      IsRun Sample.backwardText { emitGuards := true } output' workspace' files' routes ∧
      Matched NamespaceFile.Agrees files files' := by
  have horder : (Markup.Document.ofText Sample.forwardText).Reordered
      (Markup.Document.ofText Sample.backwardText) := by
    rw [Sample.document_forwardText, Sample.document_backwardText]
    exact Sample.schemaDocument_reordered (.swap _ _ _) .nil
  have hregistry : Registry.ofGraph Sample.forwardGraph =
      .ok [⟨⟨.model, "M", ["A"]⟩, 0⟩, ⟨⟨.model, "N", ["A"]⟩, 1⟩] := by decide
  obtain ⟨output, houtput⟩ : ∃ output, generate Sample.forwardText { emitGuards := true } = .ok output :=
    exists_generate Sample.ofText_forwardText (by decide) hregistry (by decide +kernel)
  rcases ((generate_reordered horder Sample.isApart_forwardText).2 _).2 output houtput with
    ⟨output', workspace, workspace', files, files', routes, hrun, hrun', _, hagrees⟩
  exact ⟨horder, Sample.isApart_forwardText, output, output', workspace, workspace', files, files', routes, hrun,
    hrun', hagrees⟩

/-- A model without a name may come before one that is qualified like it, and not behind it. -/
theorem ofText_namelessFirstText :
    (Markup.Document.ofText Sample.namelessFirstText).Reordered
      (Markup.Document.ofText Sample.namelessLastText) ∧
    (∃ graph, Graph.ofText Sample.namelessFirstText = .ok graph) ∧
    Graph.ofText Sample.namelessLastText = .error (.duplicate "model" "A.B.") := by
  refine ⟨?_, ?_, ?_⟩
  · rw [Sample.document_namelessFirstText, Sample.document_namelessLastText]
    exact Sample.schemaDocument_reordered (.swap _ _ _) (.cons (.same _) .nil)
  · rw [Graph.ofText, Draft.ofText, Sample.document_namelessFirstText]
    exact exists_ok_of_isOk (by decide)
  · rw [Graph.ofText, Draft.ofText, Sample.document_namelessLastText]
    decide

end SchemaGuards

import SchemaGuards.Proofs.Expansion.Failures
import SchemaGuards.Proofs.Linking.Documents

/-!
# Generation succeeds

A run resolves the registered declarations and the bodies of the operations, each of which may be
mentioned. So a run over an accepted document ends as its expansions do.
-/
namespace SchemaGuards

namespace Workspace
open Emission

variable {workspace : Workspace} {kinds : List String}

theorem IsSound.target_of_entry (hsound : workspace.IsSound kinds) {entry : Entry}
    (hentry : entry ∈ workspace.registry) : workspace.graph.IsTarget entry.node := by
  rcases hsound.lists.sound entry hentry with ⟨_, node, hnode, hidentity, _⟩
  exact ⟨node, hnode, fun _ => by simp [hidentity]⟩

theorem exportEntry_failsOnly (hsound : workspace.IsSound kinds) {entry : Entry}
    (hentry : entry ∈ workspace.registry) (scope : Scope) :
    (workspace.exportEntry scope entry).FailsOnly workspace.graph.Refuses := by
  have htarget := hsound.target_of_entry hentry
  rw [exportEntry, exportEntryBy]
  refine (resolve_failsOnly hsound .type entry.node _ htarget rfl).bind (fun type _ => ?_)
  dsimp only
  split
  · exact ((resolve_failsOnly hsound .guard entry.node _ htarget rfl).map some).bind
      (fun _ _ => Traced.FailsOnly.pure _)
  · exact (Traced.FailsOnly.pure _).bind (fun _ _ => Traced.FailsOnly.pure _)

theorem namespaceFiles_failsOnly (hsound : workspace.IsSound kinds) :
    workspace.namespaceFiles.FailsOnly workspace.graph.Refuses := by
  rw [namespaceFiles, namespaceFilesBy]
  split
  · refine Traced.FailsOnly.mapM (fun scope _ => ?_)
    rw [namespaceFileBy]
    refine Traced.FailsOnly.bind (Traced.FailsOnly.mapM (fun entry hentry => ?_))
      (fun _ _ => Traced.FailsOnly.pure _)
    exact exportEntry_failsOnly hsound (List.mem_filter.1 hentry).1 scope
  · exact Traced.FailsOnly.pure _

theorem resolveBody_failsOnly (hsound : workspace.IsSound kinds) (argument : String) {body : Option NodeId}
    (hbody : ∀ id, body = some id → workspace.graph.IsTarget id) :
    (workspace.resolveBody argument body).FailsOnly workspace.graph.Refuses :=
  Traced.FailsOnly.optionMapM (fun id hid => resolve_failsOnly hsound .type id _ (hbody id hid) rfl)

theorem requestArgument_failsOnly {allowed : GenerationError → Prop} (operation : Operation NodeId) :
    (workspace.requestArgument operation).FailsOnly allowed := by
  intro error herror
  rw [requestArgument] at herror
  split at herror <;> cases herror

theorem routeEntry_failsOnly (hsound : workspace.IsSound kinds) {operation : Operation NodeId}
    (hoperation : operation ∈ workspace.graph.operations) :
    (workspace.routeEntry operation).FailsOnly workspace.graph.Refuses := by
  have hbodies := hsound.linked.bodies operation hoperation
  rw [routeEntry, routeEntryBy]
  refine (requestArgument_failsOnly operation).bind (fun argument _ => ?_)
  refine (resolveBody_failsOnly hsound argument ?_).bind (fun request _ => ?_)
  · intro id hid
    exact hbodies id (by simp [Operation.bodies, hid])
  · refine Traced.FailsOnly.bind (Traced.FailsOnly.mapM (fun response hresponse => ?_))
      (fun _ _ => Traced.FailsOnly.pure _)
    refine (resolveBody_failsOnly hsound _ ?_).bind (fun _ _ => Traced.FailsOnly.pure _)
    intro id hid
    apply hbodies id
    rw [Operation.bodies, List.mem_append]
    exact .inr (List.mem_filterMap.2 ⟨response, hresponse, hid⟩)

theorem routeEntries_failsOnly (hsound : workspace.IsSound kinds) (earlier : List (String × Verb))
    (operations : List (Operation NodeId)) (h : operations ⊆ workspace.graph.operations) :
    (workspace.routeEntries earlier operations).FailsOnly workspace.graph.Refuses := by
  induction operations generalizing earlier with
  | nil => exact Traced.FailsOnly.pure _
  | cons operation rest ih =>
    have hrest : rest ⊆ workspace.graph.operations := fun _ hmem => h (List.mem_cons_of_mem _ hmem)
    rw [routeEntries, routeEntriesBy]
    split
    · refine Traced.FailsOnly.bind ?_ (fun _ _ => ih earlier hrest)
      intro error herror
      cases herror
    · refine (routeEntry_failsOnly hsound (h (by simp))).bind (fun entry _ => ?_)
      exact (ih _ hrest).bind (fun _ _ => Traced.FailsOnly.pure _)

theorem routeFiles_failsOnly (hsound : workspace.IsSound kinds) :
    workspace.routeFiles.FailsOnly workspace.graph.Refuses := by
  rw [routeFiles, routeFilesBy]
  split
  · refine Traced.FailsOnly.mapM (fun root _ => ?_)
    rw [routeFileBy]
    exact (routeEntries_failsOnly hsound [] _ (List.filter_subset_self _)).bind (fun _ _ => Traced.FailsOnly.pure _)
  · exact Traced.FailsOnly.pure _

theorem files_failsOnly (hsound : workspace.IsSound kinds) :
    workspace.files.FailsOnly workspace.graph.Refuses := by
  rw [files, filesBy]
  refine (namespaceFiles_failsOnly hsound).bind (fun _ _ => ?_)
  exact (routeFiles_failsOnly hsound).bind (fun _ _ => Traced.FailsOnly.pure _)

/-- A run with a valid configuration succeeds or ends as an expansion does. -/
theorem generate_cases (hsound : workspace.IsSound kinds) (hconfig : workspace.config.validate = .ok ()) :
    (∃ output, workspace.generate = .ok output) ∨
      ∃ error, workspace.generate = .error error ∧ workspace.graph.Refuses error := by
  cases hfiles : workspace.files.outcome with
  | ok files =>
    left
    simp [generate, hconfig, hfiles, bind, Except.bind, pure, Except.pure]
  | error error =>
    right
    refine ⟨error, ?_, files_failsOnly hsound error hfiles⟩
    simp [generate, hconfig, hfiles, bind, Except.bind]

end Workspace

/-- The workspace of a document that is accepted. -/
theorem Workspace.ofText_eq {text : String} {graph : Graph} {registry : Registry}
    (hgraph : Graph.ofText text = .ok graph) (hvalid : graph.validate = .ok ())
    (hregistry : Registry.ofGraph graph = .ok registry) (config : Config) :
    Workspace.ofText text config = .ok ⟨graph, registry, config⟩ := by
  rw [Workspace.ofText, hgraph]
  change ((graph.validate.mapError GenerationError.schema) >>= _) = _
  rw [hvalid]
  change (((Registry.ofGraph graph).mapError GenerationError.schema) >>= _) = _
  rw [hregistry]
  rfl

theorem Workspace.ofText_parts {text : String} {config : Config} {workspace : Workspace}
    (h : Workspace.ofText text config = .ok workspace) :
    Graph.ofText text = .ok workspace.graph ∧ workspace.graph.validate = .ok () ∧
      Registry.ofGraph workspace.graph = .ok workspace.registry ∧ workspace.config = config := by
  rw [Workspace.ofText] at h
  obtain ⟨graph, hgraph, h⟩ := except_bind_ok h
  obtain ⟨_, hvalid, h⟩ := except_bind_ok h
  obtain ⟨registry, hregistry, h⟩ := except_bind_ok h
  cases h
  exact ⟨except_mapError_ok hgraph, except_mapError_ok hvalid, except_mapError_ok hregistry, rfl⟩

theorem generate_eq {text : String} {graph : Graph} {registry : Registry}
    (hgraph : Graph.ofText text = .ok graph) (hvalid : graph.validate = .ok ())
    (hregistry : Registry.ofGraph graph = .ok registry) (config : Config) :
    generate text config = (Workspace.mk graph registry config).generate := by
  rw [generate, Workspace.ofText_eq hgraph hvalid hregistry]
  rfl

theorem exists_generate {text : String} {graph : Graph} {registry : Registry} {config : Config}
    (hgraph : Graph.ofText text = .ok graph) (hvalid : graph.validate = .ok ())
    (hregistry : Registry.ofGraph graph = .ok registry)
    (hok : (Workspace.mk graph registry config).generate.isOk = true) :
    ∃ output, generate text config = .ok output := by
  rw [generate_eq hgraph hvalid hregistry]
  exact exists_ok_of_isOk hok

/-- An accepted document makes a sound workspace. -/
theorem Workspace.ofText_isSound {text : String} {graph : Graph} (hgraph : Graph.ofText text = .ok graph)
    (hvalid : graph.validate = .ok ()) :
    ∃ registry kinds, Registry.ofGraph graph = .ok registry ∧
      (∀ config, (Workspace.mk graph registry config).IsSound kinds) ∧
      (Draft.unsupportedName ∉ (Markup.Document.ofText text).names → kinds = []) := by
  rcases Graph.ofText_isLinked hgraph with ⟨kinds, hlinked, hkinds⟩
  exact ⟨_, kinds, hlinked.ofGraph_eq,
    fun config => ⟨hlinked, hvalid, hlinked.lists hlinked.ofGraph_eq⟩, hkinds⟩

/-- The workspace of an accepted document and its registry is sound. -/
theorem Workspace.isSound_of_accepted {text : String} {graph : Graph} {registry : Registry}
    (hgraph : Graph.ofText text = .ok graph) (hvalid : graph.validate = .ok ())
    (hregistry : Registry.ofGraph graph = .ok registry) (config : Config) :
    ∃ kinds, (Workspace.mk graph registry config).IsSound kinds := by
  rcases Workspace.ofText_isSound hgraph hvalid with ⟨found, kinds, hfound, hsound, _⟩
  cases hregistry.symm.trans hfound
  exact ⟨kinds, hsound config⟩

/-- A document that is accepted has a registry, and generating from it succeeds unless the graph holds a
node without a written form, or a declaration lies outside the configured roots. -/
theorem generate_of_accepted {text : String} {graph : Graph} {config : Config}
    (hgraph : Graph.ofText text = .ok graph) (hvalid : graph.validate = .ok ())
    (hconfig : config.validate = .ok ()) :
    (∃ registry, Registry.ofGraph graph = .ok registry ∧
      generate text config = (Workspace.mk graph registry config).generate) ∧
    ((∃ output, generate text config = .ok output) ∨
      (∃ kind, generate text config = .error (.unsupportedKind kind) ∧
        ∃ id, graph.node? id = some (.unsupported kind)) ∨
      ∃ name, generate text config = .error (.unresolvableCycle name) ∧ graph.roots ≠ [] ∧
        ∃ id ∈ graph.declarations, ∃ node first, graph.node? id = some node ∧
          node.scope.head? = some first ∧ first ∉ graph.roots) ∧
    ("opaque" ∉ (Markup.Document.ofText text).names →
      (∀ id ∈ graph.declarations, ∀ node, graph.node? id = some node → isRooted graph.roots node.scope) →
      ∃ output, generate text config = .ok output) := by
  rcases Workspace.ofText_isSound hgraph hvalid with ⟨registry, kinds, hregistry, hsound, hkinds⟩
  have hrun := generate_eq hgraph hvalid hregistry config
  have hcases := Workspace.generate_cases (hsound config) hconfig
  rw [← hrun] at hcases
  refine ⟨⟨registry, hregistry, hrun⟩, ?_, ?_⟩
  · rcases hcases with hok | ⟨error, herror, hrefuses⟩
    · exact .inl hok
    · cases hrefuses with
      | unsupported id kind hnode => exact .inr (.inl ⟨kind, herror, id, hnode⟩)
      | cycle name id node first hid hnode hfirst hroots hnot =>
        exact .inr (.inr ⟨name, herror, hroots, id, hid, node, first, hnode, hfirst, hnot⟩)
  · intro hnames hrooted
    rcases hcases with hok | ⟨error, herror, hrefuses⟩
    · exact hok
    · cases hrefuses with
      | unsupported id kind hnode =>
        have hkind := ((hsound config).linked.fits id _ hnode).supported
        rw [hkinds hnames] at hkind
        cases hkind
      | cycle name id node first hid hnode hfirst hroots hnot =>
        have hroot := hrooted id hid node hnode
        simp only [isRooted, hfirst, Option.any_some, Bool.or_eq_true, List.isEmpty_iff,
          decide_eq_true_eq] at hroot
        exact (hroot.elim hroots hnot).elim

namespace Sample
open Draft Markup Text

def restrictedText : String :=
  "<schema rootNamespaces=\"A\"><namespace name=\"A\"><model name=\"M\">" ++
    "<property name=\"p\" type=\"string\" visibility=\"read\"/></model></namespace></schema>"

def restrictedGraph : Graph where
  roots := ["A"]
  nodes := #[.model { decl := { name := some "M", scope := ["A"] },
                      properties := [{ name := "p", type := 1, visibility := some { read := true } }] },
             .scalar ⟨{ name := some "string", scope := builtinScope }, none⟩]
  declarations := [0]
  names := [("A.M", 0)]

def restrictedRegistry : Registry := [⟨⟨.model, "M", ["A"]⟩, 0⟩]

def restrictedWorkspace : Workspace := ⟨restrictedGraph, restrictedRegistry, {}⟩

def restrictedTree : Tree :=
  ⟨"schema", [⟨"rootNamespaces", "A"⟩], [⟨"namespace", [⟨"name", "A"⟩], [⟨"model", [⟨"name", "M"⟩],
    [⟨"property", [⟨"name", "p"⟩, ⟨"type", "string"⟩, ⟨"visibility", "read"⟩], []⟩]⟩]⟩]⟩

def restrictedDraft : Draft :=
  ⟨["A"], ⟨[⟨"M", ["A"], none, .model none
    [{ name := "p", type := .named "string", visibility := some { read := true } }]⟩], []⟩⟩

theorem writesSchema_restrictedTree : WritesSchema restrictedTree restrictedDraft := by
  have hvisibility : WritesVisibility "read" { read := true } := WritesVisibility.one .read (by decide)
  have hroots : readRoots [⟨"rootNamespaces", "A"⟩] = ["A"] := by decide
  have hproperty : WritesProperty ⟨"property", [⟨"name", "p"⟩, ⟨"type", "string"⟩, ⟨"visibility", "read"⟩], []⟩ _ :=
    .intro rfl (.named rfl) (WritesFlag.absent rfl) (.some hvisibility)
  have hmodel : WritesItem ["A"] ⟨"model", [⟨"name", "M"⟩], _⟩ ⟨[⟨"M", ["A"], none, .model none _⟩], []⟩ :=
    .declaration (.intro rfl (.model (.cons hproperty .nil)))
  have hschema : WritesSchema restrictedTree ⟨readRoots [⟨"rootNamespaces", "A"⟩], restrictedDraft.contents⟩ :=
    .intro (.cons rfl (WritesItem.outermost (by decide) (.cons hmodel .nil)) .nil)
  rwa [hroots] at hschema

theorem restrictedTree_writtenIn : restrictedTree.WrittenIn restrictedText :=
  .of_tags (toList_append (toList_literal rfl) (toList_literal rfl)) (by decide)
    (.pair _ _ (.cons (.pair _ _ (.cons (.pair _ _ (.cons (.empty _ _) .nil)) .nil)) .nil)) (by decide +kernel)

theorem ofText_restrictedText : Graph.ofText restrictedText = .ok restrictedGraph :=
  (Graph.ofText_of_tree restrictedTree_writtenIn writesSchema_restrictedTree).trans (by decide)

theorem validate_restrictedGraph : restrictedGraph.validate = .ok () := by decide

theorem ofGraph_restrictedGraph : Registry.ofGraph restrictedGraph = .ok restrictedRegistry := by decide

end Sample

theorem generate_restrictedText : ∃ output,
    generate Sample.restrictedText { emitGuards := true, emitRoutes := true } = .ok output := by
  have hconfig : ({ emitGuards := true, emitRoutes := true } : Config).validate = .ok () := rfl
  apply (generate_of_accepted Sample.ofText_restrictedText Sample.validate_restrictedGraph hconfig).2.2
  · rw [Sample.restrictedTree_writtenIn.document]
    decide
  · intro id hid node hnode
    cases List.mem_singleton.1 hid
    cases hnode
    rfl

end SchemaGuards

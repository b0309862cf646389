import SchemaGuards.Proofs.Linkage

/-!
# The files of a run

There is one namespace file for each namespace of the registry and one route file for each root. A route
file has the routes of the operations that its root covers, each once.
-/
namespace SchemaGuards
open Emission

/-- A root covers the namespaces that begin with its segments, which are written with dots between them. -/
def Covers (root : String) (scope : Scope) : Prop := Text.splitText '.' root <+: scope

instance (root : String) (scope : Scope) : Decidable (Covers root scope) :=
  inferInstanceAs (Decidable (Text.splitText '.' root <+: scope))

def Operation.route {τ : Type} (operation : Operation τ) : String × Verb := (operation.path, operation.verb)

def Emission.RouteEntry.route (entry : RouteEntry) : String × Verb := (entry.path, entry.verb)

/-- A route file has the route of an operation of its own. -/
def Emission.RouteFile.Includes {τ : Type} (file : RouteFile) (operation : Operation τ) : Prop :=
  file.root <+: operation.scope ∧ operation.route ∈ file.entries.map RouteEntry.route

namespace Workspace
variable {workspace : Workspace}

/-- The namespaces of a run that have a file. -/
def emittedScopes (workspace : Workspace) : List Scope :=
  if workspace.config.emitTypes then workspace.registry.scopes else []

theorem namespaceFiles_scopes {files : List NamespaceFile} (h : workspace.namespaceFiles.outcome = .ok files) :
    files.map NamespaceFile.scope = workspace.emittedScopes := by
  rw [namespaceFiles, namespaceFilesBy] at h
  rw [emittedScopes]
  split at h
  · next hemit =>
    have hpairs := (Traced.outcome_mapM_ok h).imp (fun _ _ hfile => (namespaceFile_ok hfile).1.symm)
    rw [← List.forall₂_map_right_iff (R := Eq), List.forall₂_eq_eq_eq] at hpairs
    rw [if_pos hemit, hpairs]
  · next hemit =>
    cases h
    rw [if_neg hemit, List.map_nil]

theorem routeEntry_route {operation : Operation NodeId} {entry : RouteEntry}
    (h : (workspace.routeEntry operation).outcome = .ok entry) : entry.route = operation.route := by
  rw [routeEntry, routeEntryBy] at h
  rcases Traced.outcome_bind_ok h with ⟨_, _, h⟩
  rcases Traced.outcome_bind_ok h with ⟨_, _, h⟩
  rcases Traced.outcome_bind_ok h with ⟨_, _, h⟩
  cases h
  rfl

/-- The entries have every route of the operations that has not been there earlier. -/
theorem routeEntries_routes {earlier : List (String × Verb)} {operations : List (Operation NodeId)}
    {entries : List RouteEntry} (h : (workspace.routeEntries earlier operations).outcome = .ok entries)
    (route : String × Verb) :
    route ∈ entries.map RouteEntry.route ↔ route ∈ operations.map Operation.route ∧ route ∉ earlier := by
  induction operations generalizing earlier entries with
  | nil =>
    cases h
    simp
  | cons operation rest ih =>
    rw [routeEntries, routeEntriesBy] at h
    split at h
    · next hearlier =>
      rcases Traced.outcome_bind_ok h with ⟨_, _, h⟩
      rw [ih h, List.map_cons, List.mem_cons]
      constructor
      · rintro ⟨hroute, hnew⟩
        exact ⟨.inr hroute, hnew⟩
      · rintro ⟨rfl | hroute, hnew⟩
        · exact absurd hearlier hnew
        · exact ⟨hroute, hnew⟩
    · next hnew =>
      rcases Traced.outcome_bind_ok h with ⟨entry, hentry, h⟩
      rcases Traced.outcome_bind_ok h with ⟨others, hothers, h⟩
      cases h
      have hfirst : entry.route = (operation.path, operation.verb) := routeEntry_route hentry
      rw [List.map_cons, List.map_cons, List.mem_cons, List.mem_cons, ih hothers, hfirst, List.mem_cons, not_or]
      constructor
      · rintro (rfl | ⟨hroute, _, hother⟩)
        · exact ⟨.inl rfl, hnew⟩
        · exact ⟨.inr hroute, hother⟩
      · rintro ⟨rfl | hroute, hother⟩
        · exact .inl rfl
        · by_cases heq : route = (operation.path, operation.verb)
          · exact .inl heq
          · exact .inr ⟨hroute, heq, hother⟩

theorem routeFile_root {root : String} {file : RouteFile} (h : (workspace.routeFile root).outcome = .ok file) :
    file.root = Text.splitText '.' root := by
  rw [routeFile, routeFileBy] at h
  rcases Traced.outcome_bind_ok h with ⟨entries, _, h⟩
  cases h
  rfl

/-- The route file of a root includes exactly the operations that the root covers. -/
theorem routeFile_includes {root : String} {file : RouteFile} (h : (workspace.routeFile root).outcome = .ok file)
    {operation : Operation NodeId} (hoperation : operation ∈ workspace.graph.operations) :
    file.Includes operation ↔ Covers root operation.scope := by
  have hroot := routeFile_root h
  rw [routeFile, routeFileBy] at h
  rcases Traced.outcome_bind_ok h with ⟨entries, hentries, h⟩
  cases h
  constructor
  · exact fun hincludes => hincludes.1
  · intro hcovers
    refine ⟨hcovers, (routeEntries_routes hentries _).2 ⟨?_, by simp⟩⟩
    exact List.mem_map_of_mem (List.mem_filter.2 ⟨hoperation, List.isPrefixOf_iff_prefix.2 hcovers⟩)

/-- The roots of a run that have a route file. -/
def routedRoots (workspace : Workspace) : List String :=
  if workspace.config.emitRoutes then RouteFile.roots workspace.graph.operations workspace.graph.roots else []

/-- There is one route file for each root, in their order. -/
theorem routeFiles_forall₂ {routes : List RouteFile} (h : workspace.routeFiles.outcome = .ok routes) :
    List.Forall₂ (fun root file => (workspace.routeFile root).outcome = .ok file) workspace.routedRoots routes := by
  rw [routeFiles, routeFilesBy] at h
  rw [routedRoots]
  split at h
  · next hemit =>
    rw [if_pos hemit]
    exact Traced.outcome_mapM_ok h
  · next hemit =>
    cases h
    rw [if_neg hemit]
    exact .nil

theorem routeFiles_roots {routes : List RouteFile} (h : workspace.routeFiles.outcome = .ok routes) :
    routes.map RouteFile.root = workspace.routedRoots.map (Text.splitText '.') := by
  have hpairs := (routeFiles_forall₂ h).imp (fun _ _ hfile => routeFile_root hfile)
  have hroots : List.Forall₂ (fun segments root => root = segments) (workspace.routedRoots.map (Text.splitText '.'))
      (routes.map RouteFile.root) := List.forall₂_map_left_iff.2 (List.forall₂_map_right_iff.2 hpairs)
  have heq := hroots.flip
  rwa [List.forall₂_eq_eq_eq] at heq

end Workspace

/-- A successful run over a text, with its workspace and what its files are written from. -/
structure IsRun (text : String) (config : Config) (output : Output) (workspace : Workspace)
    (files : List NamespaceFile) (routes : List RouteFile) : Prop where
  output_eq : generate text config = .ok output
  workspace_eq : Workspace.ofText text config = .ok workspace
  files_eq : workspace.namespaceFiles.outcome = .ok files
  routes_eq : workspace.routeFiles.outcome = .ok routes
  written : output.files = files.map (fun file => ⟨file.fileName, file.content⟩) ++
    routes.map (fun route => ⟨route.fileName, route.content⟩) ++
    if files.any NamespaceFile.usesLifecycle || !routes.isEmpty then [⟨lifecycleFileName, lifecycleModule⟩] else []
  exported : config.emitTypes = true → ∀ entry ∈ workspace.registry,
    ∃ file ∈ files, ∃ item ∈ file.exports, item.entry = entry

theorem exists_isRun {text : String} {config : Config} {output : Output} (h : generate text config = .ok output) :
    ∃ workspace files routes, IsRun text config output workspace files routes := by
  rcases except_bind_ok h with ⟨workspace, hworkspace, hrun⟩
  rcases Workspace.generate_ok hrun with ⟨_, files, routes, hfiles, hroutes, houtput⟩
  refine ⟨workspace, files, routes, h, hworkspace, hfiles, hroutes, houtput, ?_⟩
  rw [← (Workspace.ofText_ok hworkspace).1]
  intro htypes entry hentry
  rcases Workspace.namespaceFiles_ok hfiles with ⟨hholds, hscopes⟩
  rcases hscopes htypes entry hentry with ⟨file, hfile, hscope⟩
  rcases (hholds file hfile).exported entry hentry hscope.symm with ⟨item, hitem, hexports⟩
  exact ⟨file, hfile, item, hitem, hexports.entry_eq⟩

theorem IsRun.emitTypes_of_route {text : String} {config : Config} {output : Output} {workspace : Workspace}
    {files : List NamespaceFile} {routes : List RouteFile} (h : IsRun text config output workspace files routes)
    {route : RouteFile} (hroute : route ∈ routes) : workspace.config.emitTypes = true := by
  have hroutes := (Workspace.routeFiles_ok h.routes_eq).1 (List.ne_nil_of_mem hroute)
  have hrun := h.output_eq
  rw [generate, h.workspace_eq] at hrun
  exact Config.validate_eq_ok_iff.1 (Workspace.generate_ok hrun).1 (.inr hroutes)

end SchemaGuards

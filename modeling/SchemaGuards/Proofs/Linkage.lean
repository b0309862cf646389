import SchemaGuards.Proofs.Lifecycle
import SchemaGuards.Proofs.Written.Uses

/-!
# Linked output

What is referred to, what is imported, which files are emitted and which declarations are generic is
decided in four places. They agree: every reference in an emitted file is to a declaration that an
emitted file exports, from a namespace that is imported, with a lifecycle exactly when the declaration
takes one.
-/
namespace SchemaGuards

namespace Text.Contains
variable {part : String} {texts : List String}

theorem join (h : part ∈ texts) : Contains (String.join texts) part := by
  induction texts with
  | nil => cases h
  | cons first rest ih =>
    rw [String.join_cons]
    rcases List.mem_cons.1 h with rfl | hrest
    · exact (refl part).append_right _
    · exact (ih hrest).append_left _

theorem intercalate (separator : String) (h : part ∈ texts) :
    Contains (String.intercalate separator texts) part := by
  induction texts with
  | nil => cases h
  | cons first rest ih =>
    cases rest with
    | nil =>
      cases List.mem_singleton.1 h
      rw [String.intercalate_singleton]
      exact refl part
    | cons next others =>
      rw [String.intercalate_cons_cons]
      rcases List.mem_cons.1 h with rfl | hrest
      · exact ((refl part).append_right separator).append_right _
      · exact (ih hrest).append_left _

end Text.Contains

open Emission

namespace Emission.Export

def typeHead (item : Export) : String :=
  if item.isEnumeration then "export enum " ++ item.name else "export type " ++ item.name ++ item.parameters

def guardHead (item : Export) : String := "export function is" ++ item.name ++ item.parameters

theorem typeText_contains (item : Export) : Text.Contains item.typeText item.typeHead := by
  unfold typeText typeHead
  split
  · exact (((Text.Contains.refl _).append_right _).append_right _).append_right _
  · exact (((Text.Contains.refl _).append_right _).append_right _).append_right _

theorem guardText_contains (item : Export) (guard : Resolution) :
    Text.Contains (item.guardText guard) item.guardHead := by
  unfold guardText guardHead parameters
  cases item.isGeneric with
  | true =>
    refine ⟨"\n", "(t: any, vis: V = Lifecycle.All as V): t is " ++ item.name ++ "<V>" ++ " \x7b\n  return " ++
      Layout.prettyAt 2 guard.text ++ ";\n\x7d\n", ?_⟩
    simp only [if_true, String.append_assoc]
    rfl
  | false =>
    refine ⟨"\n", "(t: any): t is " ++ item.name ++ " \x7b\n  return " ++
      Layout.prettyAt 2 guard.text ++ ";\n\x7d\n", ?_⟩
    simp only [Bool.false_eq_true, if_false, String.append_assoc, String.append_empty]
    rfl

theorem contains_typeHead (item : Export) : Text.Contains item.text item.typeHead :=
  (item.typeText_contains.append_left _).append_right _

theorem contains_guardHead (item : Export) {guard : Resolution} (h : item.guard = some guard) :
    Text.Contains item.text item.guardHead := by
  rw [text]
  rw [h]
  exact (item.guardText_contains guard).append_left _

end Emission.Export

/-- What a reference needs to be linked: a file that exports what it refers to, in the namespace that
the reference comes from or in an imported one, with the same arity, and its guard if that is called. -/
def Use.IsLinked (use : Use) (own : Option Scope) (imports : List Scope) (files : List NamespaceFile) : Prop :=
  ∃ file ∈ files, ∃ item ∈ file.exports, item.entry.identity.scope = file.scope ∧
    use.target = Reference.ofEntry own item.entry ∧ (own = some file.scope ∨ file.scope ∈ imports) ∧
    use.generic = item.isGeneric ∧ Text.Contains file.content item.typeHead ∧
    (use.isCall = true → Text.Contains file.content item.guardHead)

namespace Emission.NamespaceFile

theorem contains_item (file : NamespaceFile) {item : Export} (h : item ∈ file.exports) :
    Text.Contains file.content item.text :=
  (Text.Contains.intercalate "\n" (List.mem_map_of_mem h)).append_left _

theorem mem_imports (file : NamespaceFile) {item : Export} (hitem : item ∈ file.exports) {scope : Scope}
    (hscope : scope ∈ item.importedScopes) (hother : scope ≠ file.scope) : scope ∈ file.imports := by
  apply mem_distinct.2
  exact List.mem_filter.2 ⟨List.mem_flatMap.2 ⟨item, hitem, hscope⟩, by simpa using hother⟩

end Emission.NamespaceFile

namespace Emission.RouteFile

end Emission.RouteFile

def Emission.RouteEntry.bodies (entry : RouteEntry) : List Resolution :=
  entry.request.toList ++ entry.responses.filterMap Prod.snd

namespace Workspace

/-- A resolution is the type of a node in a context. -/
def WritesType (workspace : Workspace) (context : Context) (id : NodeId) (resolution : Resolution)
    (type : TypeExpr) : Prop :=
  ∃ expansion, (workspace.expand .type context.locked context.ancestry id).outcome = .ok expansion ∧
    type = workspace.typeOf context expansion ∧ resolution = workspace.write .type id context expansion

/-- A resolution is the guard of a node in a context. -/
def WritesGuard (workspace : Workspace) (context : Context) (id : NodeId) (resolution : Resolution)
    (guard : Guard) : Prop :=
  ∃ expansion, (workspace.expand .guard context.locked context.ancestry id).outcome = .ok expansion ∧
    guard = guardOf context expansion ∧ resolution = workspace.write .guard id context expansion

variable {workspace : Workspace} {kinds : List String} {context : Context} {id : NodeId} {resolution : Resolution}

theorem resolve_type_ok (h : (workspace.resolve .type id context).outcome = .ok resolution) :
    ∃ type, workspace.WritesType context id resolution type := by
  rcases resolve_ok h with ⟨expansion, hexpansion, rfl⟩
  exact ⟨_, expansion, hexpansion, rfl, rfl⟩

theorem resolve_guard_ok (h : (workspace.resolve .guard id context).outcome = .ok resolution) :
    ∃ guard, workspace.WritesGuard context id resolution guard := by
  rcases resolve_ok h with ⟨expansion, hexpansion, rfl⟩
  exact ⟨_, expansion, hexpansion, rfl, rfl⟩

/-- Every reference in a written type is to a registered entry, and its namespace is imported. -/
theorem WritesType.uses (hsound : workspace.IsSound kinds) {type : TypeExpr}
    (h : workspace.WritesType context id resolution type) : ∀ use ∈ type.uses,
    (∃ entry ∈ workspace.registry, use = ⟨Reference.ofEntry context.target entry,
      workspace.graph.reachesRestriction entry.node, false⟩) ∧
    ∀ scope, use.target.imported = some scope → scope ∈ resolution.imports := by
  rcases h with ⟨expansion, hexpansion, rfl, rfl⟩
  intro use huse
  constructor
  · rw [typeOf, TypeExpr.uses_ofExpansion] at huse
    rcases List.mem_map.1 huse with ⟨reference, hreference, rfl⟩
    rcases expand_refers hsound hexpansion reference hreference with ⟨hmem, hgeneric⟩
    exact ⟨reference.1, hmem, by rw [TypeExpr.useOf, hgeneric]; rfl⟩
  · intro scope hscope
    apply mem_distinct.2
    rw [TypeExpr.importedScopes_eq]
    exact List.mem_filterMap.2 ⟨use, huse, hscope⟩

/-- Every call in a written guard is to a registered entry that is no enumeration. -/
theorem WritesGuard.uses (hsound : workspace.IsSound kinds) {guard : Guard}
    (h : workspace.WritesGuard context id resolution guard) : ∀ use ∈ guard.uses,
    (∃ entry ∈ workspace.registry, entry.identity.kind ≠ .enumeration ∧
      use = ⟨Reference.ofEntry context.target entry, workspace.graph.reachesRestriction entry.node, true⟩) ∧
    ∀ scope, use.target.imported = some scope → scope ∈ resolution.imports := by
  rcases h with ⟨expansion, hexpansion, rfl, rfl⟩
  intro use huse
  constructor
  · rcases Guard.uses_ofExpansion context.target (.named context.accessor) expansion use huse with
      ⟨reference, hreference, hkind, rfl⟩
    rcases expand_refers hsound hexpansion reference hreference with ⟨hmem, hgeneric⟩
    exact ⟨reference.1, hmem, hkind, by rw [hgeneric]⟩
  · intro scope hscope
    apply mem_distinct.2
    rw [Guard.importedScopes_eq]
    exact List.mem_filterMap.2 ⟨use, huse, hscope⟩

structure Exports (workspace : Workspace) (scope : Scope) (entry : Entry) (item : Export) : Prop where
  entry_eq : item.entry = entry
  type : ∃ type, workspace.WritesType (.ofScope scope) entry.node item.type type
  guard : ∀ resolution, item.guard = some resolution →
    ∃ guard, workspace.WritesGuard (.ofScope scope) entry.node resolution guard
  guard_isSome : item.guard.isSome = (workspace.config.emitGuards && !item.isEnumeration)
  isEnumeration_eq : item.isEnumeration =
    (workspace.graph.node? entry.node).any (fun node => node.kind = .enumeration)

theorem Exports.emitGuards {scope : Scope} {entry : Entry} {item : Export}
    (h : workspace.Exports scope entry item) (hguard : item.guard = some resolution) :
    workspace.config.emitGuards = true := by
  have hsome := h.guard_isSome
  rw [hguard, Option.isSome_some] at hsome
  exact (Bool.and_eq_true_iff.1 hsome.symm).1

theorem exportEntry_ok {scope : Scope} {entry : Entry} {item : Export}
    (h : (workspace.exportEntry scope entry).outcome = .ok item) : workspace.Exports scope entry item := by
  rw [exportEntry, exportEntryBy] at h
  rcases Traced.outcome_bind_ok h with ⟨type, htype, h⟩
  dsimp only at h
  split at h
  · next hemit =>
    rcases Traced.outcome_bind_ok h with ⟨guard, hguard, h⟩
    cases h
    rcases Traced.outcome_map_ok hguard with ⟨resolution, hresolution, rfl⟩
    refine ⟨rfl, resolve_type_ok htype, ?_, hemit.symm, rfl⟩
    rintro _ ⟨⟩
    exact resolve_guard_ok hresolution
  · next hemit =>
    rcases Traced.outcome_bind_ok h with ⟨guard, hguard, h⟩
    cases hguard
    cases h
    refine ⟨rfl, resolve_type_ok htype, by simp, ?_, rfl⟩
    rw [Bool.not_eq_true] at hemit
    exact hemit.symm

/-- What a namespace file holds: the registered entries of its namespace. -/
structure Holds (workspace : Workspace) (file : NamespaceFile) : Prop where
  exported : ∀ entry ∈ workspace.registry, entry.identity.scope = file.scope →
    ∃ item ∈ file.exports, workspace.Exports file.scope entry item
  registered : ∀ item ∈ file.exports, item.entry ∈ workspace.registry ∧
    item.entry.identity.scope = file.scope ∧ workspace.Exports file.scope item.entry item

theorem namespaceFile_ok {scope : Scope} {file : NamespaceFile}
    (h : (workspace.namespaceFile scope).outcome = .ok file) : file.scope = scope ∧ workspace.Holds file := by
  rw [namespaceFile, namespaceFileBy] at h
  rcases Traced.outcome_bind_ok h with ⟨exports, hexports, h⟩
  cases h
  have hpairs := mem_of_forall₂ ((Traced.outcome_mapM_ok hexports).imp (fun _ _ => exportEntry_ok))
  refine ⟨rfl, ?_, ?_⟩
  · intro entry hentry hscope
    exact hpairs.1 entry (List.mem_filter.2 ⟨hentry, by simpa using hscope⟩)
  · intro item hitem
    rcases hpairs.2 item hitem with ⟨entry, hentry, hexports⟩
    rcases List.mem_filter.1 hentry with ⟨hmem, hscope⟩
    cases hexports.entry_eq
    exact ⟨hmem, by simpa using hscope, hexports⟩

theorem namespaceFiles_ok {files : List NamespaceFile} (h : workspace.namespaceFiles.outcome = .ok files) :
    (∀ file ∈ files, workspace.Holds file) ∧
      (workspace.config.emitTypes = true → ∀ entry ∈ workspace.registry,
        ∃ file ∈ files, file.scope = entry.identity.scope) := by
  rw [namespaceFiles, namespaceFilesBy] at h
  split at h
  · have hpairs := mem_of_forall₂ ((Traced.outcome_mapM_ok h).imp (fun _ _ => namespaceFile_ok))
    constructor
    · intro file hfile
      rcases hpairs.2 file hfile with ⟨scope, _, _, hholds⟩
      exact hholds
    · intro _ entry hentry
      have hscope : entry.identity.scope ∈ workspace.registry.scopes := by
        apply mem_distinct.2
        exact List.mem_map.2 ⟨entry, hentry, rfl⟩
      rcases hpairs.1 _ hscope with ⟨file, hfile, heq, _⟩
      exact ⟨file, hfile, heq⟩
  · next hnot =>
    cases h
    exact ⟨by simp, fun htypes => absurd htypes hnot⟩

theorem emitTypes_of_file {files : List NamespaceFile} (h : workspace.namespaceFiles.outcome = .ok files)
    {file : NamespaceFile} (hfile : file ∈ files) : workspace.config.emitTypes = true := by
  rw [namespaceFiles, namespaceFilesBy] at h
  split at h
  · next htypes => exact htypes
  · cases h
    cases hfile

/-- A reference to a registered entry is linked, if its namespace is imported and, for a call, guards are
emitted and the entry is no enumeration. -/
theorem isLinked_of_entry (hsound : workspace.IsSound kinds) {files : List NamespaceFile}
    (hfiles : workspace.namespaceFiles.outcome = .ok files) (htypes : workspace.config.emitTypes = true)
    {own : Option Scope} {imports : List Scope} {entry : Entry} {isCall : Bool}
    (hentry : entry ∈ workspace.registry)
    (himports : ∀ scope, (Reference.ofEntry own entry).imported = some scope → scope ∈ imports)
    (hcall : isCall = true → workspace.config.emitGuards = true ∧ entry.identity.kind ≠ .enumeration) :
    Use.IsLinked ⟨Reference.ofEntry own entry, workspace.graph.reachesRestriction entry.node, isCall⟩
      own imports files := by
  rcases namespaceFiles_ok hfiles with ⟨hholds, hscopes⟩
  rcases hscopes htypes entry hentry with ⟨file, hfile, hscope⟩
  rcases (hholds file hfile).exported entry hentry hscope.symm with ⟨item, hitem, hexports⟩
  have hcontent := file.contains_item hitem
  rcases hexports.type with ⟨type, expansion, _, _, hresolution⟩
  refine ⟨file, hfile, item, hitem, ?_, ?_, ?_, ?_, hcontent.trans item.contains_typeHead, ?_⟩
  · rw [hexports.entry_eq, hscope]
  · rw [hexports.entry_eq]
  · by_cases hown : own = some entry.identity.scope
    · exact .inl (hscope ▸ hown)
    · exact .inr (hscope ▸ himports _ (by simp [Reference.ofEntry, hown]))
  · rw [Export.isGeneric, hresolution]
    rfl
  · intro hisCall
    rcases hcall hisCall with ⟨hguards, hkind⟩
    have henumeration : item.isEnumeration = false := by
      rcases hsound.lists.sound entry hentry with ⟨_, node, hnode, hidentity, _⟩
      rw [Node.kind_of_identity? hidentity] at hkind
      rw [hexports.isEnumeration_eq, hnode]
      simpa using hkind
    have hsome := hexports.guard_isSome
    rw [hguards, henumeration] at hsome
    rcases Option.isSome_iff_exists.1 hsome with ⟨guard, hguard⟩
    exact hcontent.trans (item.contains_guardHead hguard)

section NamespaceFile
variable {files : List NamespaceFile} {file : NamespaceFile} {item : Export}

/-- The imported namespaces of a declaration are imported by its file. -/
theorem imported_of_export (hitem : item ∈ file.exports) {entry : Entry}
    (himports : ∀ scope, (Reference.ofEntry (some file.scope) entry).imported = some scope →
      scope ∈ item.importedScopes) :
    ∀ scope, (Reference.ofEntry (some file.scope) entry).imported = some scope → scope ∈ file.imports := by
  intro scope hscope
  apply file.mem_imports hitem (himports scope hscope)
  rintro rfl
  rw [Reference.ofEntry] at hscope
  dsimp only at hscope
  split at hscope
  · cases hscope
  · next hother => exact hother hscope.symm

theorem isLinked_type (hsound : workspace.IsSound kinds)
    (hfiles : workspace.namespaceFiles.outcome = .ok files) (htypes : workspace.config.emitTypes = true)
    (hitem : item ∈ file.exports) {type : TypeExpr}
    (htype : workspace.WritesType (.ofScope file.scope) item.entry.node item.type type) :
    ∀ use ∈ type.uses, use.IsLinked (some file.scope) file.imports files := by
  intro use huse
  rcases htype.uses hsound use huse with ⟨⟨entry, hentry, rfl⟩, himports⟩
  refine isLinked_of_entry hsound hfiles htypes hentry ?_ (by simp)
  exact imported_of_export hitem (fun scope hscope => List.mem_append_left _ (himports scope hscope))

theorem isLinked_guard (hsound : workspace.IsSound kinds)
    (hfiles : workspace.namespaceFiles.outcome = .ok files) (htypes : workspace.config.emitTypes = true)
    (hguards : workspace.config.emitGuards = true) (hitem : item ∈ file.exports)
    (hresolution : item.guard = some resolution) {guard : Guard}
    (hguard : workspace.WritesGuard (.ofScope file.scope) item.entry.node resolution guard) :
    ∀ use ∈ guard.uses, use.IsLinked (some file.scope) file.imports files := by
  intro use huse
  rcases hguard.uses hsound use huse with ⟨⟨entry, hentry, hkind, rfl⟩, himports⟩
  refine isLinked_of_entry hsound hfiles htypes hentry ?_ (fun _ => ⟨hguards, hkind⟩)
  refine imported_of_export hitem (fun scope hscope => List.mem_append_right _ ?_)
  simpa [hresolution] using himports scope hscope

end NamespaceFile

/-- Every body of a route file is the type of a node outside of every file. -/
def WritesBody (workspace : Workspace) (resolution : Resolution) (type : TypeExpr) : Prop :=
  ∃ argument id, workspace.WritesType (Context.detached.withLifecycle argument) id resolution type

theorem resolveBody_ok {argument : String} {body : Option NodeId} {found : Option Resolution}
    (h : (workspace.resolveBody argument body).outcome = .ok found) :
    ∀ resolution, found = some resolution → ∃ type, workspace.WritesBody resolution type := by
  have hrelated := Traced.outcome_optionMapM_ok h
  cases hrelated with
  | none => simp
  | some hresolve =>
    rintro _ ⟨⟩
    rcases resolve_type_ok hresolve with ⟨type, htype⟩
    exact ⟨type, argument, _, htype⟩

theorem routeEntry_ok {operation : Operation NodeId} {entry : RouteEntry}
    (h : (workspace.routeEntry operation).outcome = .ok entry) :
    ∀ resolution ∈ entry.bodies, ∃ type, workspace.WritesBody resolution type := by
  rw [routeEntry, routeEntryBy] at h
  rcases Traced.outcome_bind_ok h with ⟨argument, _, h⟩
  rcases Traced.outcome_bind_ok h with ⟨request, hrequest, h⟩
  rcases Traced.outcome_bind_ok h with ⟨responses, hresponses, h⟩
  cases h
  intro resolution hresolution
  rw [RouteEntry.bodies, List.mem_append, Option.mem_toList] at hresolution
  rcases hresolution with hbody | hbody
  · exact resolveBody_ok hrequest resolution hbody
  · rcases List.mem_filterMap.1 hbody with ⟨pair, hpair, hsecond⟩
    rcases (mem_of_forall₂ (Traced.outcome_mapM_ok hresponses)).2 pair hpair with ⟨response, _, hresponse⟩
    rcases Traced.outcome_bind_ok hresponse with ⟨body, hfound, hresponse⟩
    cases hresponse
    exact resolveBody_ok hfound resolution hsecond

theorem routeEntries_ok (earlier : List (String × Verb)) (operations : List (Operation NodeId))
    {entries : List RouteEntry} (h : (workspace.routeEntries earlier operations).outcome = .ok entries) :
    ∀ entry ∈ entries, ∀ resolution ∈ entry.bodies, ∃ type, workspace.WritesBody resolution type := by
  induction operations generalizing earlier entries with
  | nil =>
    cases h
    simp
  | cons operation rest ih =>
    rw [routeEntries, routeEntriesBy] at h
    split at h
    · rcases Traced.outcome_bind_ok h with ⟨_, _, h⟩
      exact ih earlier h
    · rcases Traced.outcome_bind_ok h with ⟨first, hfirst, h⟩
      rcases Traced.outcome_bind_ok h with ⟨others, hothers, h⟩
      cases h
      intro entry hentry
      rcases List.mem_cons.1 hentry with rfl | hentry
      · exact routeEntry_ok hfirst
      · exact ih _ hothers entry hentry

theorem routeFiles_ok {routes : List RouteFile} (h : workspace.routeFiles.outcome = .ok routes) :
    (routes ≠ [] → workspace.config.emitRoutes = true) ∧ ∀ route ∈ routes, ∀ entry ∈ route.entries,
      ∀ resolution ∈ entry.bodies, ∃ type, workspace.WritesBody resolution type := by
  rw [routeFiles, routeFilesBy] at h
  split at h
  · next hroutes =>
    refine ⟨fun _ => hroutes, ?_⟩
    intro route hroute
    rcases (mem_of_forall₂ (Traced.outcome_mapM_ok h)).2 route hroute with ⟨root, _, hroot⟩
    rw [routeFileBy] at hroot
    rcases Traced.outcome_bind_ok hroot with ⟨entries, hentries, hroot⟩
    cases hroot
    exact routeEntries_ok [] _ hentries
  · cases h
    exact ⟨fun hnot => absurd rfl hnot, by simp⟩

theorem isLinked_body (hsound : workspace.IsSound kinds) {files : List NamespaceFile}
    (hfiles : workspace.namespaceFiles.outcome = .ok files) (htypes : workspace.config.emitTypes = true)
    {route : RouteFile} {entry : RouteEntry} (hentry : entry ∈ route.entries)
    (hresolution : resolution ∈ entry.bodies) {type : TypeExpr} (htype : workspace.WritesBody resolution type) :
    ∀ use ∈ type.uses, use.IsLinked none route.imports files := by
  intro use huse
  rcases htype with ⟨argument, id, htype⟩
  rcases htype.uses hsound use huse with ⟨⟨target, htarget, rfl⟩, himports⟩
  refine isLinked_of_entry hsound hfiles htypes htarget ?_ (by simp)
  intro scope hscope
  apply mem_distinct.2
  refine List.mem_flatMap.2 ⟨entry, hentry, ?_⟩
  exact List.mem_flatMap.2 ⟨resolution, hresolution, himports scope hscope⟩

/-- The files of a successful run. -/
theorem generate_ok {output : Output} (h : workspace.generate = .ok output) :
    workspace.config.validate = .ok () ∧ ∃ files routes, workspace.namespaceFiles.outcome = .ok files ∧
      workspace.routeFiles.outcome = .ok routes ∧
      output.files = files.map (fun file => ⟨file.fileName, file.content⟩) ++
        routes.map (fun route => ⟨route.fileName, route.content⟩) ++
        if files.any NamespaceFile.usesLifecycle || !routes.isEmpty then
          [⟨lifecycleFileName, lifecycleModule⟩]
        else [] := by
  rw [generate] at h
  rcases except_bind_ok h with ⟨_, hconfig, h⟩
  rcases except_bind_ok h with ⟨all, hall, h⟩
  cases h
  rw [Workspace.files] at hall
  rcases Traced.outcome_bind_ok hall with ⟨files, hfiles, hall⟩
  rcases Traced.outcome_bind_ok hall with ⟨routes, hroutes, hall⟩
  cases hall
  exact ⟨hconfig, files, routes, hfiles, hroutes, rfl⟩

end Workspace

theorem Workspace.ofText_ok {text : String} {config : Config} {workspace : Workspace}
    (h : Workspace.ofText text config = .ok workspace) :
    workspace.config = config ∧ ∃ kinds, workspace.IsSound kinds := by
  obtain ⟨hgraph, hvalid, hregistry, rfl⟩ := Workspace.ofText_parts h
  obtain ⟨found, kinds, hfound, hsound, _⟩ := Workspace.ofText_isSound hgraph hvalid
  cases hregistry.symm.trans hfound
  exact ⟨rfl, kinds, hsound workspace.config⟩

namespace Sample
open Draft Markup Text

end Sample

end SchemaGuards

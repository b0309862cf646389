import Mathlib.Data.List.Nodup
import SchemaGuards.Proofs.Files
import SchemaGuards.Proofs.Linking.Segments
import SchemaGuards.Proofs.Storage

/-!
# The paths of generated files

Namespaces never share a file. Apart from them only three meetings are possible: of roots that become one
when their dots are written as underscores, of a namespace that is called like a route file, and of a
namespace that is called like the helpers. Files whose paths are apart are all found and all stored.
-/
namespace SchemaGuards
open Emission

namespace Emission

/-- The dots of a root are underscores in the name of its file. -/
def rootAlias (root : String) : String := Scope.alias (Text.splitText '.' root)

def routeStem (root : String) : String := "routedTypemap_" ++ rootAlias root

def routePath (root : String) : String := routeStem root ++ ".ts"

def helperStem : String := "lifecycle"

theorem lifecycleFileName_eq : lifecycleFileName = helperStem ++ ".ts" := rfl

theorem append_ending_inj {first second : String} : first ++ ".ts" = second ++ ".ts" ↔ first = second := by
  rw [← String.toList_inj, String.toList_append, String.toList_append, List.append_left_inj, String.toList_inj]

end Emission

namespace Text

theorem not_mem_intercalate {c : Char} {joint : List Char} {pieces : List (List Char)} (hjoint : c ∉ joint)
    (hpieces : ∀ piece ∈ pieces, c ∉ piece) : c ∉ joint.intercalate pieces := by
  induction pieces with
  | nil => simp [List.intercalate]
  | cons piece rest ih =>
    have hrest := ih (fun other hother => hpieces other (List.mem_cons_of_mem _ hother))
    cases rest with
    | nil =>
      rw [List.intercalate_singleton]
      exact hpieces piece List.mem_cons_self
    | cons next others =>
      rw [List.intercalate_cons_cons, List.mem_append, List.mem_append, not_or, not_or]
      exact ⟨⟨hpieces piece List.mem_cons_self, hjoint⟩, hrest⟩

end Text

namespace Emission

theorem not_mem_rootAlias (root : String) : '.' ∉ (rootAlias root).toList := by
  rw [rootAlias, Scope.alias, String.toList_intercalate]
  refine Text.not_mem_intercalate (by decide) (fun piece hpiece => ?_)
  rcases List.mem_map.1 hpiece with ⟨segment, hsegment, rfl⟩
  exact (Scope.isWritten_splitText root).segmented segment hsegment

theorem toList_routeStem (root : String) :
    (routeStem root).toList = "routedTypemap_".toList ++ (rootAlias root).toList := String.toList_append

theorem not_mem_routeStem (root : String) : '.' ∉ (routeStem root).toList := by
  rw [toList_routeStem, List.mem_append, not_or]
  exact ⟨by decide, not_mem_rootAlias root⟩

theorem routeStem_inj {root other : String} : routeStem root = routeStem other ↔ rootAlias root = rootAlias other := by
  rw [← String.toList_inj, toList_routeStem, toList_routeStem, List.append_right_inj, String.toList_inj]

theorem routePath_inj {root other : String} : routePath root = routePath other ↔ rootAlias root = rootAlias other :=
  append_ending_inj.trans routeStem_inj

theorem routeStem_ne_helperStem (root : String) : routeStem root ≠ helperStem := by
  intro heq
  have hchars : (routeStem root).toList = helperStem.toList := congrArg String.toList heq
  rw [toList_routeStem] at hchars
  cases hchars

end Emission

namespace Scope
variable {scope other : Scope}

theorem fileName_inj (h : scope.IsWritten) (h' : other.IsWritten) :
    scope.fileName = other.fileName ↔ scope = other := by
  rw [fileName, fileName, append_ending_inj, dotted_inj h h']

/-- A name without dots is that of the file of one namespace. -/
theorem fileName_eq_iff (h : scope.IsWritten) {stem : String} (hstem : '.' ∉ stem.toList) :
    scope.fileName = stem ++ ".ts" ↔ scope = [stem] := by
  have hsingle : IsWritten [stem] := ⟨by simpa [IsSegmented] using hstem, List.cons_ne_nil stem []⟩
  have hdotted : Text.dotted [stem] = stem := String.intercalate_singleton
  rw [fileName, append_ending_inj, ← dotted_inj h hsingle, hdotted]

end Scope

namespace Workspace
variable {workspace : Workspace}

/-- Whether a run emits the helpers: for a declaration from which a restriction can be reached, and for every
route file. -/
def NeedsHelpers (workspace : Workspace) : Prop :=
  (workspace.config.emitTypes = true ∧
    ∃ entry ∈ workspace.registry, workspace.graph.reachesRestriction entry.node = true) ∨
  workspace.routedRoots ≠ []

instance (workspace : Workspace) : Decidable workspace.NeedsHelpers :=
  inferInstanceAs (Decidable ((_ ∧ ∃ entry ∈ workspace.registry, _) ∨ _))

/-- No two files of a run have one name. -/
structure NamesApart (workspace : Workspace) : Prop where
  roots : (workspace.routedRoots.map rootAlias).Nodup
  routes : ∀ root ∈ workspace.routedRoots, [routeStem root] ∉ workspace.emittedScopes
  helpers : workspace.NeedsHelpers → [helperStem] ∉ workspace.emittedScopes

theorem usesLifecycle_iff {files : List NamespaceFile} (h : workspace.namespaceFiles.outcome = .ok files) :
    files.any NamespaceFile.usesLifecycle = true ↔ workspace.config.emitTypes = true ∧
      ∃ entry ∈ workspace.registry, workspace.graph.reachesRestriction entry.node = true := by
  obtain ⟨hholds, hscopes⟩ := namespaceFiles_ok h
  have hgeneric : ∀ {scope : Scope} {entry : Entry} {item : Export}, workspace.Exports scope entry item →
      item.isGeneric = workspace.graph.reachesRestriction entry.node := by
    rintro scope entry item ⟨_, ⟨type, expansion, _, _, hresolution⟩, _⟩
    rw [Export.isGeneric, hresolution]
    rfl
  simp only [List.any_eq_true, NamespaceFile.usesLifecycle]
  constructor
  · rintro ⟨file, hfile, item, hitem, huses⟩
    obtain ⟨hentry, _, hexports⟩ := (hholds file hfile).registered item hitem
    refine ⟨?_, item.entry, hentry, hgeneric hexports ▸ huses⟩
    by_contra hnot
    rw [namespaceFiles, namespaceFilesBy, if_neg hnot] at h
    cases h
    cases hfile
  · rintro ⟨htypes, entry, hentry, hreaches⟩
    obtain ⟨file, hfile, hscope⟩ := hscopes htypes entry hentry
    obtain ⟨item, hitem, hexports⟩ := (hholds file hfile).exported entry hentry hscope.symm
    exact ⟨file, hfile, item, hitem, (hgeneric hexports).trans hreaches⟩

/-- The names of a run's files: those of the namespaces, of the roots and of the helpers. -/
theorem paths_eq {output : Output} (h : workspace.generate = .ok output) :
    output.files.map File.path = workspace.emittedScopes.map Scope.fileName ++
      workspace.routedRoots.map routePath ++
      if workspace.NeedsHelpers then [lifecycleFileName] else [] := by
  obtain ⟨_, files, routes, hfiles, hroutes, houtput⟩ := generate_ok h
  have hscopes : files.map NamespaceFile.fileName = workspace.emittedScopes.map Scope.fileName := by
    rw [← namespaceFiles_scopes hfiles, List.map_map]
    rfl
  have hroots := routeFiles_roots hroutes
  have hrouteNames : routes.map RouteFile.fileName = workspace.routedRoots.map routePath := by
    have hnames := congrArg (List.map (fun segments => "routedTypemap_" ++ Scope.alias segments ++ ".ts")) hroots
    rw [List.map_map, List.map_map] at hnames
    exact hnames
  have hneeds : (files.any NamespaceFile.usesLifecycle || !routes.isEmpty) = true ↔ workspace.NeedsHelpers := by
    have hempty : routes = [] ↔ workspace.routedRoots = [] := by
      rw [← List.map_eq_nil_iff (f := RouteFile.root), hroots, List.map_eq_nil_iff]
    rw [Bool.or_eq_true, usesLifecycle_iff hfiles, NeedsHelpers, Bool.not_eq_true', List.isEmpty_eq_false_iff, Ne,
      hempty]
  rw [houtput, List.map_append, List.map_append, List.map_map, List.map_map, ← hscopes, ← hrouteNames,
    apply_ite (List.map File.path), if_congr hneeds rfl rfl]
  rfl

theorem nodup_routePaths_iff :
    (workspace.routedRoots.map routePath).Nodup ↔ (workspace.routedRoots.map rootAlias).Nodup := by
  simp only [List.Nodup, List.pairwise_map, ne_eq, routePath_inj]

section Document
variable {text : String} {config : Config} (htext : Workspace.ofText text config = .ok workspace)
include htext

theorem emittedScopes_isWritten {scope : Scope} (hscope : scope ∈ workspace.emittedScopes) : scope.IsWritten := by
  rw [emittedScopes] at hscope
  split at hscope
  · obtain ⟨entry, hentry, rfl⟩ := List.mem_map.1 (mem_distinct.1 hscope)
    exact ofText_isWritten htext hentry
  · cases hscope

theorem nodup_scopePaths : (workspace.emittedScopes.map Scope.fileName).Nodup := by
  refine List.Nodup.map_on ?_ ?_
  · intro scope hscope other hother
    exact (Scope.fileName_inj (emittedScopes_isWritten htext hscope) (emittedScopes_isWritten htext hother)).1
  · rw [emittedScopes]
    split
    · exact nodup_distinct _
    · exact List.nodup_nil

theorem mem_scopePaths_iff {stem : String} (hstem : '.' ∉ stem.toList) :
    stem ++ ".ts" ∈ workspace.emittedScopes.map Scope.fileName ↔ [stem] ∈ workspace.emittedScopes := by
  constructor
  · intro hmem
    obtain ⟨scope, hscope, hname⟩ := List.mem_map.1 hmem
    exact (Scope.fileName_eq_iff (emittedScopes_isWritten htext hscope) hstem).1 hname ▸ hscope
  · intro hmem
    exact List.mem_map.2 ⟨[stem], hmem, (Scope.fileName_eq_iff (emittedScopes_isWritten htext hmem) hstem).2 rfl⟩

theorem routePaths_apart_iff : (∀ path ∈ workspace.emittedScopes.map Scope.fileName,
    ∀ other ∈ workspace.routedRoots.map routePath, path ≠ other) ↔
      ∀ root ∈ workspace.routedRoots, [routeStem root] ∉ workspace.emittedScopes := by
  constructor
  · intro hapart root hroot hmem
    exact hapart _ ((mem_scopePaths_iff htext (not_mem_routeStem root)).2 hmem) _ (List.mem_map_of_mem hroot) rfl
  · rintro hapart path hpath other hother rfl
    obtain ⟨root, hroot, rfl⟩ := List.mem_map.1 hother
    exact hapart root hroot ((mem_scopePaths_iff htext (not_mem_routeStem root)).1 hpath)

theorem helperPath_apart_iff : (∀ path ∈ workspace.emittedScopes.map Scope.fileName ++
    workspace.routedRoots.map routePath, path ≠ lifecycleFileName) ↔ [helperStem] ∉ workspace.emittedScopes := by
  rw [← mem_scopePaths_iff htext (by decide), ← lifecycleFileName_eq]
  constructor
  · exact fun hapart hmem => hapart _ (List.mem_append_left _ hmem) rfl
  · rintro hnot path hpath rfl
    rcases List.mem_append.1 hpath with hpath | hpath
    · exact hnot hpath
    · obtain ⟨root, _, hname⟩ := List.mem_map.1 hpath
      exact routeStem_ne_helperStem root (append_ending_inj.1 (hname.trans lifecycleFileName_eq))

/-- The names of a run's files are different exactly when its namespaces and roots keep them apart. -/
theorem nodup_paths_iff {output : Output} (h : workspace.generate = .ok output) :
    (output.files.map File.path).Nodup ↔ workspace.NamesApart := by
  rw [paths_eq h, List.nodup_append, List.nodup_append, nodup_routePaths_iff, routePaths_apart_iff htext]
  constructor
  · rintro ⟨⟨_, hroots, hroutes⟩, _, hapart⟩
    refine ⟨hroots, hroutes, fun hneeds => (helperPath_apart_iff htext).1 ?_⟩
    intro path hpath
    exact hapart path hpath _ (by rw [if_pos hneeds, List.mem_singleton])
  · rintro ⟨hroots, hroutes, hneeded⟩
    refine ⟨⟨nodup_scopePaths htext, hroots, hroutes⟩, ?_, ?_⟩
    · split <;> simp
    · intro path hpath other hother
      split at hother
      · next hneeds => exact List.mem_singleton.1 hother ▸ (helperPath_apart_iff htext).2 (hneeded hneeds) path hpath
      · cases hother

end Document
end Workspace

/-- The paths of a run's files are different exactly when its namespaces and roots keep them apart. Files with
different plain names are found, and they are all stored when their names are regular and short enough. -/
theorem generate_paths {text : String} {config : Config} {output : Output} (h : generate text config = .ok output) :
    ∃ workspace, Workspace.ofText text config = .ok workspace ∧
      ((output.files.map File.path).Nodup ↔ workspace.NamesApart) ∧
      (workspace.NamesApart → (∀ file ∈ output.files, '/' ∉ file.path.toList) →
        ∀ file ∈ output.files, output.file? file.path = some file) ∧
      (workspace.NamesApart → ∀ location, (∀ file ∈ output.files, file.Fits location) →
        output.store location = (⟨location, output.files⟩, .ok ())) := by
  rw [generate] at h
  obtain ⟨workspace, htext, hrun⟩ := except_bind_ok h
  have hnodup := Workspace.nodup_paths_iff htext hrun
  refine ⟨workspace, htext, hnodup, ?_, ?_⟩
  · exact fun hapart hplain file hfile => Output.file?_path hplain (hnodup.2 hapart) hfile
  · exact fun hapart location hfits => Output.store_ok hfits (hnodup.2 hapart)

/-- A namespace, its root and the helpers. -/
theorem generate_paths_restrictedText : ∃ output,
    generate Sample.restrictedText { emitRoutes := true } = .ok output ∧ (output.files.map File.path).Nodup ∧
      (∀ file ∈ output.files, output.file? file.path = some file) ∧
      output.store "/out" = (⟨"/out", output.files⟩, .ok ()) := by
  have hrun := generate_eq Sample.ofText_restrictedText Sample.validate_restrictedGraph
    Sample.ofGraph_restrictedGraph { emitRoutes := true }
  have hok : (Workspace.mk Sample.restrictedGraph Sample.restrictedRegistry
      { emitRoutes := true }).generate.isOk = true := by decide +kernel
  obtain ⟨output, houtput⟩ := exists_ok_of_isOk hok
  obtain ⟨workspace, htext, hnodup, hfound, hstored⟩ := generate_paths (hrun.trans houtput)
  cases htext.symm.trans (Workspace.ofText_eq Sample.ofText_restrictedText Sample.validate_restrictedGraph
    Sample.ofGraph_restrictedGraph _)
  have hapart : (Workspace.mk Sample.restrictedGraph Sample.restrictedRegistry { emitRoutes := true }).NamesApart :=
    ⟨by decide, by decide, fun _ => by decide⟩
  have hpaths : ∀ file ∈ output.files, file.path ∈ ["A.ts", "routedTypemap_A.ts", "lifecycle.ts"] := by
    intro file hfile
    have hpath : file.path ∈ output.files.map File.path := List.mem_map_of_mem hfile
    rw [Workspace.paths_eq houtput, if_pos (.inr (by decide))] at hpath
    exact hpath
  have hfits : ∀ path ∈ ["A.ts", "routedTypemap_A.ts", "lifecycle.ts"], '/' ∉ path.toList ∧ '\x00' ∉ path.toList ∧
      path.utf8ByteSize ≤ nameLimit ∧ ("/out" ++ "/" ++ path).utf8ByteSize ≤ pathLimit := by decide
  refine ⟨output, hrun.trans houtput, hnodup.2 hapart, ?_, ?_⟩
  · exact hfound hapart (fun file hfile => (hfits _ (hpaths file hfile)).1)
  · refine hstored hapart "/out" (fun file hfile => ?_)
    obtain ⟨hplain, hregular, hname, hlong⟩ := hfits _ (hpaths file hfile)
    exact ⟨hplain, hregular, hname, hlong⟩

namespace Sample
open Text

/-- Two roots that are one when dots are underscores, each with an operation. -/
def joinedRootsText : String :=
  "<schema rootNamespaces=\"A.B,A_B\"><namespace name=\"A_B\"><operation name=\"f\" verb=\"get\" path=\"/f\"/>" ++
    "</namespace><namespace name=\"A.B\"><operation name=\"g\" verb=\"get\" path=\"/g\"/></namespace></schema>"

def joinedRootsGraph : Graph where
  roots := ["A.B", "A_B"]
  operations := [{ name := "f", scope := ["A_B"], path := "/f", verb := .get },
                 { name := "g", scope := ["A", "B"], path := "/g", verb := .get }]

theorem ofText_joinedRootsText : Graph.ofText joinedRootsText = .ok joinedRootsGraph :=
  (Graph.ofText_eq (toList_append (toList_literal rfl) (toList_literal rfl)) (by decide)).trans (by decide +kernel)

end Sample

/-- Of the two route files only one is left, although both were written. -/
theorem generate_joinedRootsText : ∃ output,
    generate Sample.joinedRootsText { emitRoutes := true } = .ok output ∧
      output.files.map File.path = ["routedTypemap_A_B.ts", "routedTypemap_A_B.ts", "lifecycle.ts"] ∧
      (output.files.map File.content).Nodup ∧ (∃ file ∈ output.files, output.file? file.path ≠ some file) ∧
      (output.store "/out").2.isOk = true ∧
      (output.store "/out").1.files.map File.path = ["routedTypemap_A_B.ts", "lifecycle.ts"] := by
  have hrun := generate_eq Sample.ofText_joinedRootsText (by decide)
    (by decide : Registry.ofGraph Sample.joinedRootsGraph = .ok []) { emitRoutes := true }
  have hfiles : (Workspace.mk Sample.joinedRootsGraph [] { emitRoutes := true }).generate.toOption.any
      (fun output => output.files.map File.path = ["routedTypemap_A_B.ts", "routedTypemap_A_B.ts", "lifecycle.ts"] ∧
        (output.files.map File.content).Nodup ∧ (∃ file ∈ output.files, output.file? file.path ≠ some file) ∧
        (output.store "/out").2.isOk = true ∧
        (output.store "/out").1.files.map File.path = ["routedTypemap_A_B.ts", "lifecycle.ts"]) = true := by
    decide +kernel
  obtain ⟨output, houtput, hfiles⟩ := exists_ok_of_any hfiles
  exact ⟨output, hrun.trans houtput, hfiles⟩

end SchemaGuards

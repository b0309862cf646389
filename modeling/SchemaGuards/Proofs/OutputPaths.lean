import SchemaGuards.Proofs.FilePaths
import SchemaGuards.Proofs.Linking.Valid

/-!
# Where the files of a run lie

The path of a file is a namespace or a single name, written with dots and an ending. No segment of it is
empty, so it never leads to a directory above. It stays below the directory that it is joined to unless a
namespace begins with a slash: such a path is absolute, and joining it leaves the directory behind.
-/
namespace SchemaGuards
open Emission

namespace Text
variable {separator : Char}

theorem splitText_append_cons (text rest : String) {joint : String} (hjoint : joint.toList = [separator]) :
    splitText separator (text ++ joint ++ rest) = splitText separator text ++ splitText separator rest := by
  simp only [splitText, String.toList_append, hjoint, List.append_assoc, List.singleton_append,
    List.splitOn_append_cons_self, List.map_append]

theorem empty_mem_splitText {text before behind joint : String} (hjoint : joint.toList = [separator])
    (h : text = before ++ joint ++ (joint ++ behind)) : "" ∈ splitText separator text := by
  have hbehind : splitText separator ("" ++ joint ++ behind) = [""] ++ splitText separator behind :=
    splitText_append_cons "" behind hjoint
  rw [String.empty_append] at hbehind
  rw [h, splitText_append_cons _ _ hjoint, hbehind]
  simp

theorem contains_of_mem_splitText {text piece : String} (joint : String) (hjoint : joint.toList = [separator])
    (h : piece ∈ splitText separator text) : Contains text piece := by
  have hpieces := Contains.intercalate joint h
  rwa [intercalate_splitText hjoint] at hpieces

end Text

namespace Emission

theorem isAbsolute_append {first : String} (h : first ≠ "") (rest : String) :
    isAbsolute (first ++ rest) = isAbsolute first := by
  have hne : first.toList ≠ [] := fun hnil => h (String.toList_eq_nil_iff.1 hnil)
  rw [isAbsolute, isAbsolute, String.toList_append, List.head?_append_of_ne_nil _ hne]

/-- A path leads to a place below a location: it goes on from there, and never to a directory above. -/
def IsBelow (location path : String) : Prop :=
  ∃ names, names ≠ [] ∧ ".." ∉ names ∧ Text.splitText '/' path = Text.splitText '/' location ++ names

namespace Directory
variable {directory next : Directory} {file : File} {path : String} {segments : List String} {found : Option String}

theorem fullPath_absolute (h : isAbsolute path = true) : directory.fullPath path = path := if_pos h

theorem fullPath_relative (h : isAbsolute path = false) :
    directory.fullPath path = directory.location ++ "/" ++ path := by
  rw [fullPath, h, if_neg Bool.false_ne_true]

/-- An absolute path does not lie below a directory other than the root. -/
theorem not_isBelow_of_absolute (h : isAbsolute path = true) : ¬ IsBelow "out" path := by
  rintro ⟨names, _, _, hsplit⟩
  rw [isAbsolute, decide_eq_true_eq] at h
  obtain ⟨rest, hrest⟩ := List.head?_eq_some_iff.1 h
  have hchars : path.toList.splitOn '/' = [] :: rest.splitOn '/' := by
    have hpath := List.splitOn_append_cons_self (a := '/') [] rest
    rwa [List.nil_append, ← hrest] at hpath
  have hout : Text.splitText '/' "out" = ["out"] := Text.splitText_eq_singleton (by decide)
  rw [hout, Text.splitText, hchars, List.map_cons, List.singleton_append, List.cons.injEq] at hsplit
  exact absurd hsplit.1 (by decide)

theorem isBelow_fullPath (h : isAbsolute path = false) (hparent : ".." ∉ Text.splitText '/' path) :
    IsBelow directory.location (directory.fullPath path) := by
  refine ⟨Text.splitText '/' path, Text.splitText_ne_nil path, hparent, ?_⟩
  rw [fullPath_relative h, Text.splitText_append_cons _ _ rfl]

/-- A path from the directory itself that never leads above it ends in the directory. -/
theorem follow_inside (hparent : ".." ∉ segments) (hne : segments ≠ [])
    (h : directory.follow true segments = .ok found) : ∃ name ∈ segments, found = some name := by
  induction segments with
  | nil => exact absurd rfl hne
  | cons segment rest ih =>
    rw [List.mem_cons, not_or] at hparent
    cases rest with
    | nil =>
      rw [follow] at h
      split at h
      · cases h
      · cases h
        exact ⟨segment, List.mem_singleton_self segment, rfl⟩
    | cons other others =>
      rw [follow] at h
      · split at h
        · obtain ⟨name, hname, hfound⟩ := ih hparent.2 (List.cons_ne_nil other others) h
          exact ⟨name, List.mem_cons_of_mem _ hname, hfound⟩
        · rw [if_neg (Ne.symm hparent.1)] at h
          split at h
          · cases h
          · split at h <;> cases h
      · simp

/-- A path from elsewhere never leads into the directory. -/
theorem follow_outside (h : directory.follow false segments = .ok found) : found = none := by
  induction segments with
  | nil =>
    cases h
    rfl
  | cons segment rest ih =>
    cases rest with
    | nil =>
      rw [follow] at h
      split at h
      · cases h
      · cases h
        rfl
    | cons other others =>
      rw [follow] at h
      · split at h
        · exact ih h
        · split at h
          · exact ih h
          · split at h
            · cases h
            · split at h <;> cases h
      · simp

theorem store_ok_follow (h : directory.store file = .ok next) : ∃ found,
    directory.follow (!isAbsolute file.path) (Text.splitText '/' file.path) = .ok found ∧
      next = match found with
        | some name => directory.put ⟨name, file.content⟩
        | none => directory := by
  rw [store] at h
  split at h
  · cases h
  · split at h
    · cases h
    · exact except_map_ok h

/-- A relative path that never leads above the directory is stored into it. -/
theorem store_relative (h : directory.store file = .ok next) (hrelative : isAbsolute file.path = false)
    (hparent : ".." ∉ Text.splitText '/' file.path) :
    ∃ name ∈ Text.splitText '/' file.path, next = directory.put ⟨name, file.content⟩ := by
  obtain ⟨found, hfollow, rfl⟩ := store_ok_follow h
  rw [hrelative] at hfollow
  obtain ⟨name, hname, rfl⟩ := follow_inside hparent (Text.splitText_ne_nil file.path) hfollow
  exact ⟨name, hname, rfl⟩

/-- An absolute path leaves the directory as it was. -/
theorem store_absolute (h : directory.store file = .ok next) (habsolute : isAbsolute file.path = true) :
    next = directory := by
  obtain ⟨found, hfollow, rfl⟩ := store_ok_follow h
  rw [habsolute] at hfollow
  rw [follow_outside hfollow]

end Directory
end Emission

namespace Scope
variable {scope : Scope}

/-- A namespace as valid documents have it: without empty segments. -/
structure IsFull (scope : Scope) : Prop extends IsWritten scope where
  full : "" ∉ scope

/-- Whether the file of a namespace has an absolute path. -/
def beginsWithSlash (scope : Scope) : Bool := scope.head?.any isAbsolute

theorem isFull_singleton {name : String} (hname : '.' ∉ name.toList) (hne : name ≠ "") : IsFull [name] where
  segmented := by simpa [IsSegmented] using hname
  nonempty := List.cons_ne_nil name []
  full := by simpa using Ne.symm hne

theorem dotted_append_singleton (hne : scope ≠ []) (last : String) :
    Text.dotted (scope ++ [last]) = Text.dotted scope ++ "." ++ last := by
  induction scope with
  | nil => exact absurd rfl hne
  | cons first rest ih =>
    cases rest with
    | nil => simp [Text.dotted]
    | cons next others =>
      have hrest := ih (List.cons_ne_nil next others)
      rw [Text.dotted] at hrest ⊢
      rw [List.cons_append, List.cons_append, String.intercalate_cons_cons, ← List.cons_append, hrest, Text.dotted,
        Text.dotted, String.intercalate_cons_cons]
      simp only [String.append_assoc]

theorem fileName_eq_dotted (hne : scope ≠ []) : scope.fileName = Text.dotted (scope ++ ["ts"]) := by
  rw [dotted_append_singleton hne, fileName, String.append_assoc]
  rfl

/-- No part of a file's path leads to a directory above: two dots would have an empty segment between them. -/
theorem IsFull.parent_not_mem (h : scope.IsFull) : ".." ∉ Text.splitText '/' scope.fileName := by
  intro hparent
  have hending : IsFull ["ts"] := isFull_singleton (by decide) (by decide)
  have hwritten : IsWritten (scope ++ ["ts"]) := isWritten_append h.segmented hending.toIsWritten
  obtain ⟨before, behind, hsplit⟩ := Text.contains_of_mem_splitText "/" rfl hparent
  have hdots : scope.fileName = before ++ "." ++ ("." ++ behind) := by
    have hpair : ".." = "." ++ "." := rfl
    rw [hsplit, hpair]
    simp only [String.append_assoc]
  have hempty : "" ∈ Text.splitText '.' scope.fileName := Text.empty_mem_splitText rfl hdots
  rw [fileName_eq_dotted h.nonempty, splitText_dotted hwritten, List.mem_append] at hempty
  exact hempty.elim h.full hending.full

theorem IsFull.isAbsolute_fileName (h : scope.IsFull) : isAbsolute scope.fileName = scope.beginsWithSlash := by
  obtain ⟨⟨_, hne⟩, hfull⟩ := h
  cases scope with
  | nil => exact absurd rfl hne
  | cons first rest =>
    have hfirst : first ≠ "" := fun hempty => hfull (hempty ▸ List.mem_cons_self)
    rw [beginsWithSlash, List.head?_cons, Option.any_some, fileName, Text.dotted]
    cases rest with
    | nil => rw [String.intercalate_singleton, isAbsolute_append hfirst]
    | cons next others =>
      rw [String.intercalate_cons_cons, String.append_assoc, String.append_assoc, isAbsolute_append hfirst]

end Scope

namespace Workspace
variable {workspace : Workspace}

/-- The namespaces whose files a run writes; a route file and the helpers are files of a single name. -/
def outputScopes (workspace : Workspace) : List Scope :=
  workspace.emittedScopes ++ workspace.routedRoots.map (fun root => [routeStem root]) ++
    if workspace.NeedsHelpers then [[helperStem]] else []

theorem paths_eq_fileNames {output : Output} (h : workspace.generate = .ok output) :
    output.files.map File.path = workspace.outputScopes.map Scope.fileName := by
  have hsingle : ∀ stem : String, Scope.fileName [stem] = stem ++ ".ts" := by
    intro stem
    rw [Scope.fileName, Text.dotted, String.intercalate_singleton]
  rw [paths_eq h, outputScopes, List.map_append, List.map_append, List.map_map, apply_ite (List.map Scope.fileName)]
  simp only [Function.comp_def, hsingle, List.map_cons, List.map_nil]
  rfl

section Document
variable {text : String} {config : Config} (htext : Workspace.ofText text config = .ok workspace)
include htext

theorem emittedScopes_isFull {scope : Scope} (hscope : scope ∈ workspace.emittedScopes) : scope.IsFull := by
  refine ⟨emittedScopes_isWritten htext hscope, ?_⟩
  rw [emittedScopes] at hscope
  split at hscope
  · obtain ⟨entry, hentry, rfl⟩ := List.mem_map.1 (mem_distinct.1 hscope)
    obtain ⟨_, kinds, hsound⟩ := ofText_ok htext
    obtain ⟨_, node, hnode, hidentity, _⟩ := hsound.lists.sound entry hentry
    rw [(Node.scope_of_identity? hidentity).1]
    exact (Node.validate_eq_ok.1 (Graph.validate_node hsound.valid hnode)).1
  · cases hscope

theorem mem_outputScopes {scope : Scope} (h : scope ∈ workspace.outputScopes) :
    scope.IsFull ∧ (scope.beginsWithSlash = true → scope ∈ workspace.emittedScopes) := by
  rcases List.mem_append.1 h with h | hhelper
  · rcases List.mem_append.1 h with hscope | hroute
    · exact ⟨emittedScopes_isFull htext hscope, fun _ => hscope⟩
    · obtain ⟨root, _, rfl⟩ := List.mem_map.1 hroute
      have hne : routeStem root ≠ "" := by
        intro hempty
        have hchars := toList_routeStem root
        rw [hempty] at hchars
        cases hchars
      refine ⟨Scope.isFull_singleton (not_mem_routeStem root) hne, fun hslash => ?_⟩
      have hplain : isAbsolute (routeStem root) = false := isAbsolute_append (by decide) _
      rw [Scope.beginsWithSlash, List.head?_cons, Option.any_some, hplain] at hslash
      cases hslash
  · split at hhelper
    · cases List.mem_singleton.1 hhelper
      exact ⟨Scope.isFull_singleton (by decide) (by decide), fun hslash => absurd hslash (by decide)⟩
    · cases hhelper

/-- No path of a run leads to a directory above. -/
theorem parent_not_mem_path {output : Output} (hrun : workspace.generate = .ok output) {file : File}
    (hfile : file ∈ output.files) : ".." ∉ Text.splitText '/' file.path := by
  have hpath : file.path ∈ output.files.map File.path := List.mem_map_of_mem hfile
  rw [paths_eq_fileNames hrun] at hpath
  obtain ⟨scope, hscope, hname⟩ := List.mem_map.1 hpath
  exact hname ▸ (mem_outputScopes htext hscope).1.parent_not_mem

/-- The absolute paths of a run are those of the namespaces that begin with a slash. -/
theorem absolute_path_iff {output : Output} (hrun : workspace.generate = .ok output) (path : String) :
    path ∈ output.files.map File.path ∧ isAbsolute path = true ↔
      ∃ scope ∈ workspace.emittedScopes, scope.beginsWithSlash = true ∧ scope.fileName = path := by
  rw [paths_eq_fileNames hrun, List.mem_map]
  constructor
  · rintro ⟨⟨scope, hscope, rfl⟩, hslash⟩
    obtain ⟨hfull, hemitted⟩ := mem_outputScopes htext hscope
    rw [hfull.isAbsolute_fileName] at hslash
    exact ⟨scope, hemitted hslash, hslash, rfl⟩
  · rintro ⟨scope, hscope, hslash, rfl⟩
    refine ⟨⟨scope, List.mem_append_left _ (List.mem_append_left _ hscope), rfl⟩, ?_⟩
    rw [(emittedScopes_isFull htext hscope).isAbsolute_fileName, hslash]

/-- All files of a run lie below whatever directory they are written to unless a namespace begins with a slash. -/
theorem isBelow_iff {output : Output} (hrun : workspace.generate = .ok output) :
    (∀ file ∈ output.files, ∀ directory : Directory, IsBelow directory.location (directory.fullPath file.path)) ↔
      ∀ scope ∈ workspace.emittedScopes, scope.beginsWithSlash = false := by
  constructor
  · intro hbelow scope hscope
    by_contra hslash
    rw [Bool.not_eq_false] at hslash
    obtain ⟨hpath, hroot⟩ := (absolute_path_iff htext hrun scope.fileName).2 ⟨scope, hscope, hslash, rfl⟩
    obtain ⟨file, hfile, hname⟩ := List.mem_map.1 hpath
    have hout := hbelow file hfile ⟨"out", []⟩
    rw [hname, Directory.fullPath_absolute hroot] at hout
    exact Directory.not_isBelow_of_absolute hroot hout
  · intro hplain file hfile directory
    refine Directory.isBelow_fullPath ?_ (parent_not_mem_path htext hrun hfile)
    by_contra hroot
    rw [Bool.not_eq_false] at hroot
    obtain ⟨scope, hscope, hslash, _⟩ :=
      (absolute_path_iff htext hrun file.path).1 ⟨List.mem_map_of_mem hfile, hroot⟩
    rw [hplain scope hscope] at hslash
    cases hslash

end Document
end Workspace

/-- No path of a run leads to a directory above. It is absolute exactly when it is that of a namespace that begins
with a slash. Every other path, joined to a directory, lies below it, and a file that is stored under it lies in
the directory; an absolute path stays the same and leaves the directory as it was. -/
theorem generate_below {text : String} {config : Config} {output : Output} (h : generate text config = .ok output) :
    ∃ workspace, Workspace.ofText text config = .ok workspace ∧
      (∀ file ∈ output.files, ".." ∉ Text.splitText '/' file.path) ∧
      (∀ path, path ∈ output.files.map File.path ∧ isAbsolute path = true ↔
        ∃ scope ∈ workspace.emittedScopes, scope.beginsWithSlash = true ∧ scope.fileName = path) ∧
      ((∀ file ∈ output.files, ∀ directory : Directory,
          IsBelow directory.location (directory.fullPath file.path)) ↔
        ∀ scope ∈ workspace.emittedScopes, scope.beginsWithSlash = false) ∧
      ∀ file ∈ output.files, ∀ directory : Directory,
        (isAbsolute file.path = false → IsBelow directory.location (directory.fullPath file.path) ∧
          ∀ next, directory.store file = .ok next →
            ∃ name ∈ Text.splitText '/' file.path, next = directory.put ⟨name, file.content⟩) ∧
        (isAbsolute file.path = true → directory.fullPath file.path = file.path ∧
          ∀ next, directory.store file = .ok next → next = directory) := by
  obtain ⟨workspace, htext, hrun⟩ := except_bind_ok h
  have hparent : ∀ file ∈ output.files, ".." ∉ Text.splitText '/' file.path :=
    fun file hfile => Workspace.parent_not_mem_path htext hrun hfile
  refine ⟨workspace, htext, hparent, Workspace.absolute_path_iff htext hrun, Workspace.isBelow_iff htext hrun, ?_⟩
  intro file hfile directory
  constructor
  · intro hrelative
    refine ⟨Directory.isBelow_fullPath hrelative (hparent file hfile), ?_⟩
    exact fun next hstore => Directory.store_relative hstore hrelative (hparent file hfile)
  · intro hroot
    exact ⟨Directory.fullPath_absolute hroot, fun next hstore => Directory.store_absolute hstore hroot⟩

/-- A namespace, its root and the helpers lie below their directory. -/
theorem generate_below_restrictedText : ∃ output,
    generate Sample.restrictedText { emitRoutes := true } = .ok output ∧
      (∀ file ∈ output.files, ".." ∉ Text.splitText '/' file.path) ∧
      ∀ file ∈ output.files, IsBelow "/out" (Directory.fullPath ⟨"/out", []⟩ file.path) := by
  have hrun := generate_eq Sample.ofText_restrictedText Sample.validate_restrictedGraph
    Sample.ofGraph_restrictedGraph { emitRoutes := true }
  have hok : (Workspace.mk Sample.restrictedGraph Sample.restrictedRegistry
      { emitRoutes := true }).generate.isOk = true := by decide +kernel
  obtain ⟨output, houtput⟩ := exists_ok_of_isOk hok
  obtain ⟨workspace, htext, hparent, _, hbelow, _⟩ := generate_below (hrun.trans houtput)
  cases htext.symm.trans (Workspace.ofText_eq Sample.ofText_restrictedText Sample.validate_restrictedGraph
    Sample.ofGraph_restrictedGraph _)
  refine ⟨output, hrun.trans houtput, hparent, fun file hfile => ?_⟩
  exact hbelow.2 (by decide) file hfile ⟨"/out", []⟩

namespace Sample
open Text

def slashedText : String := "<schema><namespace name=\"/A\"><model name=\"M\"/></namespace></schema>"

def slashedGraph : Graph where
  nodes := #[.model { decl := { name := some "M", scope := ["/A"] } }]
  declarations := [0]
  names := [("/A.M", 0)]

theorem ofText_slashedText : Graph.ofText slashedText = .ok slashedGraph :=
  (Graph.ofText_eq (toList_literal rfl) (by decide)).trans (by decide +kernel)

end Sample

/-- The only file of the run leaves the directory that it is joined to, and nothing is stored there. -/
theorem generate_slashedText : ∃ output, generate Sample.slashedText {} = .ok output ∧
    output.files.map File.path = ["/A.ts"] ∧ isAbsolute "/A.ts" = true ∧
      Directory.fullPath ⟨"/out", []⟩ "/A.ts" = "/A.ts" ∧ ¬ IsBelow "/out" "/A.ts" ∧
      output.store "/out" = (⟨"/out", []⟩, .ok ()) := by
  have hrun := generate_eq Sample.ofText_slashedText (by decide)
    (by decide : Registry.ofGraph Sample.slashedGraph = .ok [⟨⟨.model, "M", ["/A"]⟩, 0⟩]) {}
  have hok : (Workspace.mk Sample.slashedGraph [⟨⟨.model, "M", ["/A"]⟩, 0⟩] {}).generate.isOk = true := by
    decide +kernel
  obtain ⟨output, houtput⟩ := exists_ok_of_isOk hok
  have hplain : ¬ (Workspace.mk Sample.slashedGraph [⟨⟨.model, "M", ["/A"]⟩, 0⟩] {}).NeedsHelpers := by
    rintro (⟨_, entry, hentry, hreaches⟩ | hroots)
    · cases List.mem_singleton.1 hentry
      rw [Graph.reachesRestriction_eq_false rfl rfl rfl] at hreaches
      cases hreaches
    · exact hroots rfl
  have hpaths : output.files.map File.path = ["/A.ts"] := by
    rw [Workspace.paths_eq houtput, if_neg hplain]
    decide
  obtain ⟨⟨path, content⟩, hfiles, hpath⟩ := List.map_eq_singleton_iff.1 hpaths
  cases hpath
  have hpieces : Text.splitText '/' "/A.ts" = ["", "A.ts"] := by decide
  refine ⟨output, hrun.trans houtput, hpaths, by decide, by decide, ?_, ?_⟩
  · rintro ⟨names, _, _, hsplit⟩
    have hlocation : Text.splitText '/' "/out" = ["", "out"] := by decide
    rw [hpieces, hlocation] at hsplit
    simp at hsplit
  · have hsegments : ("/A.ts".toList.splitOn '/').map String.ofList = ["", "A.ts"] := hpieces
    have hfollow : Directory.follow ⟨"/out", []⟩ (!isAbsolute "/A.ts") ["", "A.ts"] = .ok none := by rfl
    have hstore : Directory.store ⟨"/out", []⟩ ⟨"/A.ts", content⟩ = .ok ⟨"/out", []⟩ := by
      have hregular : '\x00' ∉ "/A.ts".toList := by decide
      have hshort : ¬ pathLimit < (Directory.fullPath ⟨"/out", []⟩ "/A.ts").utf8ByteSize := by decide
      rw [Directory.store, if_neg hregular, if_neg hshort]
      dsimp only
      rw [hsegments, hfollow]
      rfl
    rw [Output.store, hfiles, Directory.storeAll, hstore]
    rfl

end SchemaGuards

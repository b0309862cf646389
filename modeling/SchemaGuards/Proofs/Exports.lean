import Mathlib.Data.List.Nodup
import SchemaGuards.Proofs.Files
import SchemaGuards.Proofs.Grouping

/-!
# What the namespace files export

The namespace files divide the registry: each registered declaration is exported once, by the file of its own
namespace, and its guard behind it, if it has one. The files stand in the order in which the registry comes to
their namespaces.
-/
namespace SchemaGuards
open Emission

namespace Emission

structure Statement where
  entry : Entry
  isGuard : Bool
  /-- What an exported statement begins with. -/
  head : String
  text : String

def Statement.subject (statement : Statement) : Entry × Bool := (statement.entry, statement.isGuard)

def Export.declarationText (item : Export) : String :=
  (match item.type.doc with
    | some doc => Text.docComment doc ++ "\n"
    | none => "") ++ item.typeText

def Export.guardStatement (item : Export) (guard : Resolution) : Statement :=
  ⟨item.entry, true, item.guardHead, item.guardText guard⟩

/-- The statements of an exported declaration, in their order. -/
def Export.statements (item : Export) : List Statement :=
  ⟨item.entry, false, item.typeHead, item.declarationText⟩ :: item.guard.toList.map item.guardStatement

theorem Export.text_eq (item : Export) : item.text = String.join (item.statements.map Statement.text) := by
  have hstatements : String.join (item.statements.map Statement.text) = item.declarationText ++
      String.join (item.guard.toList.map item.guardText) := by
    rw [statements, List.map_cons, String.join_cons, List.map_map]
    rfl
  rw [hstatements, text, declarationText]
  congr 1
  cases item.guard with
  | none => rfl
  | some guard => simp

theorem Export.contains_head (item : Export) {statement : Statement} (h : statement ∈ item.statements) :
    Text.Contains statement.text statement.head := by
  rcases List.mem_cons.1 h with rfl | hguard
  · exact item.typeText_contains.append_left _
  · obtain ⟨guard, _, rfl⟩ := List.mem_map.1 hguard
    exact item.guardText_contains guard

namespace NamespaceFile

def entries (file : NamespaceFile) : List Entry := file.exports.map Export.entry

def statements (file : NamespaceFile) : List Statement := file.exports.flatMap Export.statements

/-- What a file has before its statements: the header and the imports. -/
def preamble (file : NamespaceFile) : String :=
  header ++ "\n" ++ (if file.usesLifecycle then lifecycleImport file.extensions else "") ++
    scopeImports file.extensions file.imports ++
    (if file.usesLifecycle || !file.imports.isEmpty then "\n" else "")

theorem content_eq_preamble (file : NamespaceFile) : file.content = file.preamble ++
    String.intercalate "\n" (file.exports.map fun item => String.join (item.statements.map Statement.text)) := by
  simp only [← Export.text_eq]
  rfl

theorem contains_head (file : NamespaceFile) {statement : Statement} (h : statement ∈ file.statements) :
    Text.Contains statement.text statement.head := by
  obtain ⟨item, _, hstatement⟩ := List.mem_flatMap.1 h
  exact item.contains_head hstatement

end NamespaceFile
end Emission

namespace Workspace
variable {workspace : Workspace}

def hasGuard (workspace : Workspace) (entry : Entry) : Bool :=
  workspace.config.emitGuards &&
    !(workspace.graph.node? entry.node).any (fun node => node.kind = .enumeration)

/-- What is exported for a registered declaration: itself, followed by its guard if it has one. -/
def subjects (workspace : Workspace) (entry : Entry) : List (Entry × Bool) :=
  (entry, false) :: if workspace.hasGuard entry then [(entry, true)] else []

/-- The registered declarations of a namespace, in the order of the registry. -/
def entriesOf (workspace : Workspace) (scope : Scope) : Registry :=
  workspace.registry.filter (fun entry => entry.identity.scope = scope)

theorem Exports.subjects_eq {scope : Scope} {entry : Entry} {item : Export} (h : workspace.Exports scope entry item) :
    item.statements.map Statement.subject = workspace.subjects entry := by
  have hguard : item.guard.isSome = workspace.hasGuard entry := by
    rw [h.guard_isSome, hasGuard, h.isEnumeration_eq]
  rw [subjects, ← hguard, ← h.entry_eq, Export.statements]
  cases item.guard with
  | none => rfl
  | some guard => rfl

/-- A traversal of entries exports each of them, followed by its guard if it has one. -/
theorem entries_of_forall₂ {scope : Scope} {entries : List Entry} {exports : List Export}
    (h : List.Forall₂ (workspace.Exports scope) entries exports) :
    exports.map Export.entry = entries ∧
      (exports.flatMap Export.statements).map Statement.subject = entries.flatMap workspace.subjects := by
  induction h with
  | nil => simp
  | cons hfirst _ ih =>
    constructor
    · rw [List.map_cons, hfirst.entry_eq, ih.1]
    · rw [List.flatMap_cons, List.map_append, hfirst.subjects_eq, ih.2, List.flatMap_cons]

/-- The exports of a file are the entries of its namespace, in their order. -/
theorem namespaceFile_entries {scope : Scope} {file : NamespaceFile}
    (h : (workspace.namespaceFile scope).outcome = .ok file) :
    file.entries = workspace.entriesOf file.scope ∧
      file.statements.map Statement.subject = file.entries.flatMap workspace.subjects := by
  rw [namespaceFile, namespaceFileBy] at h
  obtain ⟨exports, hexports, h⟩ := Traced.outcome_bind_ok h
  cases h
  obtain ⟨hentries, hstatements⟩ :=
    entries_of_forall₂ ((Traced.outcome_mapM_ok hexports).imp (fun _ _ => exportEntry_ok))
  refine ⟨hentries, ?_⟩
  rw [NamespaceFile.statements, hstatements, NamespaceFile.entries, hentries]

theorem mem_entriesOf {scope : Scope} {entry : Entry} :
    entry ∈ workspace.entriesOf scope ↔ entry ∈ workspace.registry ∧ entry.identity.scope = scope := by
  simp [entriesOf]

/-- Files divide the registry by namespaces, in the order in which it comes to them. -/
structure Divides (workspace : Workspace) (files : List NamespaceFile) : Prop where
  scopes : ListsFirst (files.map NamespaceFile.scope) (workspace.registry.map fun entry => entry.identity.scope)
  /-- File by file, the entries are those of the registry, grouped by their namespaces. -/
  grouped : files.map NamespaceFile.entries = (files.map NamespaceFile.scope).map workspace.entriesOf
  /-- The entries of all files are those of the registry, each as often as there. -/
  all : (files.flatMap NamespaceFile.entries).Perm workspace.registry
  /-- An entry is exported by the file of its namespace and by no other. -/
  single : ∀ entry ∈ workspace.registry, ∃ file ∈ files, file.scope = entry.identity.scope ∧
    entry ∈ file.entries ∧ ∀ other ∈ files, entry ∈ other.entries → other = file
  /-- Every entry is followed by its guard, if it has one, and no other guard is there. -/
  statements : (files.flatMap NamespaceFile.statements).map Statement.subject =
    (files.flatMap NamespaceFile.entries).flatMap workspace.subjects

/-- Files with different namespaces that have the entries of these divide the registry. -/
theorem divides_of_scopes {files : List NamespaceFile}
    (hscopes : files.map NamespaceFile.scope = workspace.registry.scopes)
    (hfiles : ∀ file ∈ files, file.entries = workspace.entriesOf file.scope ∧
      file.statements.map Statement.subject = file.entries.flatMap workspace.subjects) : workspace.Divides files := by
  have hfirst : ListsFirst (files.map NamespaceFile.scope) (workspace.registry.map fun entry => entry.identity.scope) :=
    hscopes ▸ listsFirst_distinct _
  have hgroups : files.map NamespaceFile.entries = (files.map NamespaceFile.scope).map workspace.entriesOf := by
    rw [List.map_map]
    exact List.map_congr_left fun file hfile => (hfiles file hfile).1
  refine ⟨hfirst, hgroups, ?_, ?_, ?_⟩
  · rw [List.flatMap_def, hgroups, ← List.flatMap_def]
    refine groups_perm _ hfirst.nodup (fun entry hentry => ?_)
    exact (hfirst.mem_iff _).2 (List.mem_map_of_mem hentry)
  · intro entry hentry
    obtain ⟨file, hfile, hscope⟩ := List.mem_map.1 ((hfirst.mem_iff _).2 (List.mem_map_of_mem hentry))
    refine ⟨file, hfile, hscope, ?_, ?_⟩
    · rw [(hfiles file hfile).1]
      exact mem_entriesOf.2 ⟨hentry, hscope.symm⟩
    · intro other hother hmem
      rw [(hfiles other hother).1] at hmem
      exact List.inj_on_of_nodup_map hfirst.nodup hother hfile ((mem_entriesOf.1 hmem).2.symm.trans hscope.symm)
  · rw [List.map_flatMap, List.flatMap_assoc]
    exact List.flatMap_congr fun file hfile => (hfiles file hfile).2

theorem namespaceFiles_divides (htypes : workspace.config.emitTypes = true) {files : List NamespaceFile}
    (h : workspace.namespaceFiles.outcome = .ok files) : workspace.Divides files := by
  have hscopes := namespaceFiles_scopes h
  rw [emittedScopes, if_pos htypes] at hscopes
  refine divides_of_scopes hscopes (fun file hfile => ?_)
  rw [namespaceFiles, namespaceFilesBy, if_pos htypes] at h
  obtain ⟨scope, _, hscope⟩ := (mem_of_forall₂ (Traced.outcome_mapM_ok h)).2 file hfile
  exact namespaceFile_entries hscope

end Workspace

/-- A run with types exports every registered declaration once: its namespace files divide the registry, and
every file has the texts of its statements in their order, each made from the node of its entry. -/
theorem generate_exports_each_once {workspace : Workspace} (htypes : workspace.config.emitTypes = true) {output : Output}
    (h : workspace.generate = .ok output) : ∃ files routes,
    workspace.namespaceFiles.outcome = .ok files ∧ workspace.routeFiles.outcome = .ok routes ∧
      output.files = files.map (fun file => ⟨file.fileName, file.content⟩) ++
        routes.map (fun route => ⟨route.fileName, route.content⟩) ++
        (if files.any NamespaceFile.usesLifecycle || !routes.isEmpty then [⟨lifecycleFileName, lifecycleModule⟩]
          else []) ∧
      workspace.Divides files ∧
      ∀ file ∈ files, (∀ item ∈ file.exports, workspace.Exports file.scope item.entry item) ∧
        file.content = file.preamble ++ String.intercalate "\n"
          (file.exports.map fun item => String.join (item.statements.map Statement.text)) ∧
        ∀ statement ∈ file.statements, Text.Contains statement.text statement.head := by
  obtain ⟨_, files, routes, hfiles, hroutes, houtput⟩ := Workspace.generate_ok h
  refine ⟨files, routes, hfiles, hroutes, houtput, Workspace.namespaceFiles_divides htypes hfiles, ?_⟩
  intro file hfile
  have hholds := (Workspace.namespaceFiles_ok hfiles).1 file hfile
  refine ⟨fun item hitem => (hholds.registered item hitem).2.2, file.content_eq_preamble, ?_⟩
  exact fun statement hstatement => file.contains_head hstatement

namespace Sample

/-- Two namespaces, of which the registry comes to the first one twice. -/
def interleavedWorkspace : Workspace where
  graph :=
    { nodes := #[.model { decl := { name := some "M", scope := ["A"] } },
                 .model { decl := { name := some "N", scope := ["B"] } },
                 .enumeration ⟨{ name := some "E", scope := ["A"] }, [{ name := "on" }]⟩] }
  registry := [⟨⟨.model, "M", ["A"]⟩, 0⟩, ⟨⟨.model, "N", ["B"]⟩, 1⟩, ⟨⟨.enumeration, "E", ["A"]⟩, 2⟩]
  config := { emitGuards := true }

end Sample

theorem generate_exports_each_once_interleavedWorkspace : ∃ output files, Sample.interleavedWorkspace.generate = .ok output ∧
    Sample.interleavedWorkspace.namespaceFiles.outcome = .ok files ∧
    files.map NamespaceFile.scope = [["A"], ["B"]] ∧
    (files.flatMap NamespaceFile.statements).map (fun statement => (statement.entry.identity.name, statement.isGuard)) =
      [("M", false), ("M", true), ("E", false), ("N", false), ("N", true)] := by
  have hok : Sample.interleavedWorkspace.generate.isOk = true := by decide +kernel
  obtain ⟨output, houtput⟩ := exists_ok_of_isOk hok
  obtain ⟨files, _, hfiles, _, _, hdivides, _⟩ := generate_exports_each_once rfl houtput
  have hscopes : files.map NamespaceFile.scope = [["A"], ["B"]] := Workspace.namespaceFiles_scopes hfiles
  refine ⟨output, files, houtput, hfiles, hscopes, ?_⟩
  have hsubjects : (files.flatMap NamespaceFile.statements).map Statement.subject =
      ([["A"], ["B"]].flatMap Sample.interleavedWorkspace.entriesOf).flatMap Sample.interleavedWorkspace.subjects := by
    rw [hdivides.statements, List.flatMap_def (f := NamespaceFile.entries), hdivides.grouped, hscopes]
    rfl
  have hnames := congrArg (List.map fun subject : Entry × Bool => (subject.1.identity.name, subject.2)) hsubjects
  rw [List.map_map] at hnames
  exact hnames

end SchemaGuards

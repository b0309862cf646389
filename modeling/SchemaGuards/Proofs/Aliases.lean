import Mathlib.Data.List.Nodup
import SchemaGuards.Proofs.Files
import SchemaGuards.Proofs.Linking.Segments

/-!
# Aliases of imported namespaces

The alias of a namespace is one name of its file among others: those of other aliases, of the helpers and of
the exports. Segments are joined with underscores, so two names meet exactly when they fall into the same
pieces at underscores. In a file where no alias meets another name, every qualified reference is to a
declaration of the namespace that it was written for.
-/
namespace SchemaGuards
open Emission

/-- The aliases of imported namespaces are different from one another and from other names. -/
def AreUnambiguous (imports : List Scope) (names : List String) : Prop :=
  (imports.map Scope.alias).Nodup ∧ ∀ scope ∈ imports, scope.alias ∉ names

/-- Imported namespaces fall into different pieces than one another and than other names. -/
def ArePiecewiseApart (imports : List Scope) (names : List String) : Prop :=
  (imports.map Scope.pieces).Nodup ∧ ∀ scope ∈ imports, ∀ name ∈ names, scope.pieces ≠ Text.splitText '_' name

/-- The names that stand at the top of a file, those of imported namespaces with what they stand for. -/
def topLevel (imports : List Scope) (names : List String) : List (String × Option Scope) :=
  names.map (fun name => (name, none)) ++ imports.map (fun scope => (scope.alias, some scope))

section Names
variable {imports : List Scope} {names : List String}

theorem areUnambiguous_iff (hne : ∀ scope ∈ imports, scope ≠ []) :
    AreUnambiguous imports names ↔ ArePiecewiseApart imports names := by
  refine and_congr ?_ (forall₂_congr fun scope hscope => ?_)
  · simp only [List.Nodup, List.pairwise_map]
    refine List.Pairwise.iff_of_mem (fun {scope other} hscope hother => ?_)
    rw [ne_eq, ne_eq, Scope.alias_eq_iff (hne scope hscope) (hne other hother)]
  · constructor
    · intro hnot name hname heq
      exact hnot ((Scope.alias_eq_name_iff (hne scope hscope)).2 heq ▸ hname)
    · intro hall hmem
      exact hall _ hmem ((Scope.alias_eq_name_iff (hne scope hscope)).1 rfl)

/-- Without underscores different namespaces have different aliases. -/
theorem nodup_alias_of_plain (hne : ∀ scope ∈ imports, scope ≠ []) (hnodup : imports.Nodup)
    (h : ∀ scope ∈ imports, ∀ segment ∈ scope, '_' ∉ segment.toList) : (imports.map Scope.alias).Nodup := by
  refine List.Nodup.map_on (fun scope hscope other hother heq => ?_) hnodup
  rw [Scope.alias_eq_iff (hne scope hscope) (hne other hother), Scope.pieces_eq_self (h scope hscope),
    Scope.pieces_eq_self (h other hother)] at heq
  exact heq

theorem filter_alias (hnodup : (imports.map Scope.alias).Nodup) {scope : Scope} (hscope : scope ∈ imports) :
    imports.filter (fun other => other.alias = scope.alias) = [scope] := by
  induction imports with
  | nil => cases hscope
  | cons first rest ih =>
    rw [List.map_cons, List.nodup_cons] at hnodup
    rcases List.mem_cons.1 hscope with rfl | hrest
    · rw [List.filter_cons, if_pos (decide_eq_true rfl), List.filter_eq_nil_iff.2 ?_]
      intro other hother heq
      exact hnodup.1 (of_decide_eq_true heq ▸ List.mem_map_of_mem hother)
    · have hne : first.alias ≠ scope.alias := fun heq => hnodup.1 (heq ▸ List.mem_map_of_mem hrest)
      rw [List.filter_cons, if_neg (by simpa using hne), ih hnodup.2 hrest]

/-- An alias that is unambiguous stands once at the top, for its namespace. -/
theorem filter_topLevel (h : AreUnambiguous imports names) {scope : Scope} (hscope : scope ∈ imports) :
    (topLevel imports names).filter (fun binding => binding.1 = scope.alias) = [(scope.alias, some scope)] := by
  have hnames : names.filter (fun name => name = scope.alias) = [] := by
    refine List.filter_eq_nil_iff.2 (fun name hname heq => ?_)
    exact h.2 scope hscope (of_decide_eq_true heq ▸ hname)
  rw [topLevel, List.filter_append, List.filter_map, List.filter_map]
  have himports := filter_alias h.1 hscope
  simp only [Function.comp_def, hnames, himports, List.map_nil, List.nil_append, List.map_singleton]

end Names

namespace Emission

def helperNames : List String := ["Lifecycle", "FilterLifecycle"]

def guardParameters : List String := ["t", "vis", "e"]

def Export.names (item : Export) : List String :=
  item.name :: if item.guard.isSome then ["is" ++ item.name] else []

namespace NamespaceFile

def exportedNames (file : NamespaceFile) : List String := file.exports.flatMap Export.names

def names (file : NamespaceFile) : List String :=
  (if file.usesLifecycle then helperNames else []) ++ file.exportedNames

end NamespaceFile

namespace RouteFile

def exportedNames (file : RouteFile) : List String := ["types_" ++ Scope.alias file.root]

def names (file : RouteFile) : List String := helperNames ++ file.exportedNames

end RouteFile
end Emission

/-- What a qualified reference stands for: its alias stands once at the top of the file, for a namespace whose
file exports what is referred to. -/
def Use.Denotes (use : Use) (bindings : List (String × Option Scope)) (files : List NamespaceFile)
    (scope : Scope) : Prop :=
  bindings.filter (fun binding => binding.1 = scope.alias) = [(scope.alias, some scope)] ∧
    ∃ file ∈ files, file.scope = scope ∧ ∃ item ∈ file.exports, item.entry.identity.scope = scope ∧
      item.name = use.target.name ∧ Text.Contains file.content item.typeHead ∧
      (use.isCall = true → Text.Contains file.content item.guardHead)

theorem Reference.scope_of_imported {target : Option Scope} {entry : Entry} {scope : Scope}
    (h : (ofEntry target entry).imported = some scope) : entry.identity.scope = scope ∧ target ≠ some scope := by
  rw [ofEntry] at h
  dsimp only at h
  split at h
  · cases h
  · next hother =>
    cases h
    exact ⟨rfl, hother⟩

/-- A linked reference whose alias is unambiguous stands for what it was written for. -/
theorem Use.IsLinked.denotes {use : Use} {own : Option Scope} {imports : List Scope} {names : List String}
    {files : List NamespaceFile} (h : use.IsLinked own imports files) (hunambiguous : AreUnambiguous imports names)
    {scope : Scope} (hscope : use.target.imported = some scope) :
    use.Denotes (topLevel imports names) files scope := by
  obtain ⟨file, hfile, item, hitem, hitemScope, htarget, himported, _, hhead, hcall⟩ := h
  rw [htarget] at hscope
  obtain ⟨hentry, hown⟩ := Reference.scope_of_imported hscope
  have hfileScope : file.scope = scope := hitemScope.symm.trans hentry
  rw [hfileScope] at himported
  refine ⟨filter_topLevel hunambiguous (himported.resolve_left hown), file, hfile, hfileScope, item, hitem, hentry, ?_,
    hhead, hcall⟩
  rw [htarget]
  rfl

namespace Workspace
variable {workspace : Workspace} {kinds : List String} {context : Context} {id : NodeId} {resolution : Resolution}
  {scope : Scope}

def HasScope (workspace : Workspace) (scope : Scope) : Prop :=
  ∃ entry ∈ workspace.registry, entry.identity.scope = scope

theorem WritesType.hasScope (hsound : workspace.IsSound kinds) {type : TypeExpr}
    (h : workspace.WritesType context id resolution type) (hscope : scope ∈ resolution.imports) :
    workspace.HasScope scope := by
  have huses := h.uses hsound
  obtain ⟨expansion, _, rfl, rfl⟩ := h
  have himported := mem_distinct.1 hscope
  rw [TypeExpr.importedScopes_eq] at himported
  obtain ⟨use, huse, himported⟩ := List.mem_filterMap.1 himported
  obtain ⟨⟨entry, hentry, rfl⟩, _⟩ := huses use huse
  exact ⟨entry, hentry, (Reference.scope_of_imported himported).1⟩

theorem WritesGuard.hasScope (hsound : workspace.IsSound kinds) {guard : Guard}
    (h : workspace.WritesGuard context id resolution guard) (hscope : scope ∈ resolution.imports) :
    workspace.HasScope scope := by
  have huses := h.uses hsound
  obtain ⟨expansion, _, rfl, rfl⟩ := h
  have himported := mem_distinct.1 hscope
  rw [Guard.importedScopes_eq] at himported
  obtain ⟨use, huse, himported⟩ := List.mem_filterMap.1 himported
  obtain ⟨⟨entry, hentry, _, rfl⟩, _⟩ := huses use huse
  exact ⟨entry, hentry, (Reference.scope_of_imported himported).1⟩

theorem Holds.hasScope (hsound : workspace.IsSound kinds) {file : NamespaceFile} (h : workspace.Holds file)
    (hscope : scope ∈ file.imports) : workspace.HasScope scope := by
  obtain ⟨hscope, _⟩ := List.mem_filter.1 (mem_distinct.1 hscope)
  obtain ⟨item, hitem, hscope⟩ := List.mem_flatMap.1 hscope
  obtain ⟨_, _, hexports⟩ := h.registered item hitem
  rcases List.mem_append.1 hscope with hscope | hscope
  · obtain ⟨type, htype⟩ := hexports.type
    exact htype.hasScope hsound hscope
  · cases hresolution : item.guard with
    | none =>
      rw [hresolution] at hscope
      cases hscope
    | some resolution =>
      rw [hresolution] at hscope
      obtain ⟨guard, hguard⟩ := hexports.guard resolution hresolution
      exact hguard.hasScope hsound hscope

theorem hasScope_of_route (hsound : workspace.IsSound kinds) {routes : List RouteFile}
    (h : workspace.routeFiles.outcome = .ok routes) {route : RouteFile} (hroute : route ∈ routes)
    (hscope : scope ∈ route.imports) : workspace.HasScope scope := by
  obtain ⟨entry, hentry, hscope⟩ := List.mem_flatMap.1 (mem_distinct.1 hscope)
  obtain ⟨resolution, hresolution, hscope⟩ := List.mem_flatMap.1 hscope
  obtain ⟨type, _, _, htype⟩ := (routeFiles_ok h).2 route hroute entry hentry resolution hresolution
  exact htype.hasScope hsound hscope

theorem HasScope.ne_nil {text : String} {config : Config} (htext : Workspace.ofText text config = .ok workspace)
    (h : workspace.HasScope scope) : scope ≠ [] := by
  obtain ⟨entry, hentry, rfl⟩ := h
  exact (ofText_isWritten htext hentry).nonempty

end Workspace

/-- In every file of a run the aliases are different from one another and from the exported names exactly when the
pieces of their segments are, and different from one another when no segment has an underscore. When they are
different from all names at the top, every qualified reference stands for what it was written for; in guards,
when they also differ from the parameters. -/
theorem generate_unambiguous {text : String} {config : Config} {output : Output}
    (h : generate text config = .ok output) :
    ∃ workspace files routes, IsRun text config output workspace files routes ∧
      (∀ file ∈ files,
        (AreUnambiguous file.imports file.exportedNames ↔ ArePiecewiseApart file.imports file.exportedNames) ∧
        ((∀ scope ∈ file.imports, ∀ segment ∈ scope, '_' ∉ segment.toList) → (file.imports.map Scope.alias).Nodup) ∧
        (AreUnambiguous file.imports file.names → ∀ item ∈ file.exports,
          ∃ type, workspace.WritesType (.ofScope file.scope) item.entry.node item.type type ∧
            ∀ use ∈ type.uses, ∀ scope, use.target.imported = some scope →
              use.Denotes (topLevel file.imports file.names) files scope) ∧
        (AreUnambiguous file.imports (file.names ++ guardParameters) → ∀ item ∈ file.exports,
          ∀ resolution, item.guard = some resolution →
            ∃ guard, workspace.WritesGuard (.ofScope file.scope) item.entry.node resolution guard ∧
              ∀ use ∈ guard.uses, ∀ scope, use.target.imported = some scope →
                use.Denotes (topLevel file.imports (file.names ++ guardParameters)) files scope)) ∧
      ∀ route ∈ routes,
        (AreUnambiguous route.imports route.exportedNames ↔ ArePiecewiseApart route.imports route.exportedNames) ∧
        ((∀ scope ∈ route.imports, ∀ segment ∈ scope, '_' ∉ segment.toList) → (route.imports.map Scope.alias).Nodup) ∧
        (AreUnambiguous route.imports route.names → ∀ entry ∈ route.entries, ∀ resolution ∈ entry.bodies,
          ∃ type, workspace.WritesBody resolution type ∧
            ∀ use ∈ type.uses, ∀ scope, use.target.imported = some scope →
              use.Denotes (topLevel route.imports route.names) files scope) := by
  obtain ⟨workspace, files, routes, hrun⟩ := exists_isRun h
  obtain ⟨_, kinds, hsound⟩ := Workspace.ofText_ok hrun.workspace_eq
  obtain ⟨hholds, _⟩ := Workspace.namespaceFiles_ok hrun.files_eq
  obtain ⟨_, hbodies⟩ := Workspace.routeFiles_ok hrun.routes_eq
  refine ⟨workspace, files, routes, hrun, fun file hfile => ?_, fun route hroute => ?_⟩
  · have hne : ∀ scope ∈ file.imports, scope ≠ [] := fun scope hscope =>
      ((hholds file hfile).hasScope hsound hscope).ne_nil hrun.workspace_eq
    have htypes := Workspace.emitTypes_of_file hrun.files_eq hfile
    refine ⟨areUnambiguous_iff hne, nodup_alias_of_plain hne (nodup_distinct _), ?_, ?_⟩
    · intro hunambiguous item hitem
      obtain ⟨_, _, hexports⟩ := (hholds file hfile).registered item hitem
      obtain ⟨type, htype⟩ := hexports.type
      refine ⟨type, htype, fun use huse scope hscope => ?_⟩
      exact (Workspace.isLinked_type hsound hrun.files_eq htypes hitem htype use huse).denotes hunambiguous hscope
    · intro hunambiguous item hitem resolution hresolution
      obtain ⟨_, _, hexports⟩ := (hholds file hfile).registered item hitem
      obtain ⟨guard, hguard⟩ := hexports.guard resolution hresolution
      have hguards := hexports.emitGuards hresolution
      refine ⟨guard, hguard, fun use huse scope hscope => ?_⟩
      exact (Workspace.isLinked_guard hsound hrun.files_eq htypes hguards hitem hresolution hguard use huse).denotes
        hunambiguous hscope
  · have hne : ∀ scope ∈ route.imports, scope ≠ [] := fun scope hscope =>
      (Workspace.hasScope_of_route hsound hrun.routes_eq hroute hscope).ne_nil hrun.workspace_eq
    refine ⟨areUnambiguous_iff hne, nodup_alias_of_plain hne (nodup_distinct _), ?_⟩
    intro hunambiguous entry hentry resolution hresolution
    obtain ⟨type, htype⟩ := hbodies route hroute entry hentry resolution hresolution
    refine ⟨type, htype, fun use huse scope hscope => ?_⟩
    exact (Workspace.isLinked_body hsound hrun.files_eq (hrun.emitTypes_of_route hroute) hentry hresolution htype use
      huse).denotes hunambiguous hscope

namespace Sample
open Text

/-- A union that refers to a model of another namespace. -/
def referringText : String :=
  "<schema><namespace name=\"A.B\"><model name=\"M\"/></namespace><namespace name=\"X\"><union name=\"U\">" ++
    "<variant type=\"A.B.M\"/><variant type=\"null\"/></union></namespace></schema>"

def referringGraph : Graph where
  nodes := #[.model { decl := { name := some "M", scope := ["A", "B"] }, properties := [] },
             .union ⟨{ name := some "U", scope := ["X"] }, [0, 2]⟩,
             .primitive (.intrinsic .null)]
  declarations := [0, 1]
  names := [("X.U", 1), ("A.B.M", 0)]

def referringRegistry : Registry := [⟨⟨.model, "M", ["A", "B"]⟩, 0⟩, ⟨⟨.union, "U", ["X"]⟩, 1⟩]

theorem ofText_referringText : Graph.ofText referringText = .ok referringGraph :=
  (Graph.ofText_eq (toList_append (toList_literal rfl) (toList_literal rfl)) (by decide)).trans (by decide +kernel)

theorem validate_referringGraph : referringGraph.validate = .ok () := by decide

theorem ofGraph_referringGraph : Registry.ofGraph referringGraph = .ok referringRegistry := by decide

end Sample

/-- What the union refers to is the model that it was written for. -/
theorem generate_unambiguous_referringText : ∃ output workspace files routes,
    IsRun Sample.referringText {} output workspace files routes ∧
      ∃ file ∈ files, file.imports = [["A", "B"]] ∧ ∃ item ∈ file.exports, item.name = "U" ∧
        ∃ type, workspace.WritesType (.ofScope file.scope) item.entry.node item.type type ∧
          ∀ use ∈ type.uses, ∀ scope, use.target.imported = some scope →
            use.Denotes (topLevel file.imports file.names) files scope := by
  have hok : (Workspace.mk Sample.referringGraph Sample.referringRegistry {}).generate.isOk = true := by decide +kernel
  obtain ⟨output, houtput⟩ := exists_generate Sample.ofText_referringText Sample.validate_referringGraph
    Sample.ofGraph_referringGraph hok
  obtain ⟨workspace, files, routes, hrun, hfiles, _⟩ := generate_unambiguous houtput
  cases hrun.workspace_eq.symm.trans (Workspace.ofText_eq Sample.ofText_referringText Sample.validate_referringGraph
    Sample.ofGraph_referringGraph _)
  have hany : (Workspace.mk Sample.referringGraph Sample.referringRegistry {}).namespaceFiles.outcome.toOption.any
      (fun files => files.any (fun file => file.imports = [["A", "B"]] ∧ file.exports.map Export.name = ["U"] ∧
        file.exportedNames = ["U"])) = true := by
    decide +kernel
  rw [hrun.files_eq] at hany
  obtain ⟨file, hfile, hmatches⟩ := List.any_eq_true.1 hany
  obtain ⟨himports, hnames, hexported⟩ := of_decide_eq_true hmatches
  obtain ⟨item, hitem, hname⟩ := List.mem_map.1 (hnames ▸ List.mem_singleton_self "U")
  have hunambiguous : AreUnambiguous file.imports file.names := by
    rw [AreUnambiguous, NamespaceFile.names, himports, hexported]
    cases file.usesLifecycle <;> exact ⟨by decide, by decide⟩
  obtain ⟨type, htype, hdenotes⟩ := (hfiles file hfile).2.2.1 hunambiguous item hitem
  exact ⟨output, _, files, routes, hrun, file, hfile, himports, item, hitem, hname, type, htype, hdenotes⟩

namespace Sample
open Text

/-- A union of two models with one name, in two namespaces with one alias. -/
def joinedAliasesText : String :=
  String.join
    ["<schema><namespace name=\"A.B\"><model name=\"M\"/></namespace>",
      "<namespace name=\"A_B\"><model name=\"M\"><property name=\"x\" type=\"string\"/></model></namespace>",
      "<namespace name=\"X\"><union name=\"U\"><variant type=\"A.B.M\"/><variant type=\"A_B.M\"/></union></namespace>",
      "</schema>"]

def joinedAliasesGraph : Graph where
  nodes := #[.model { decl := { name := some "M", scope := ["A", "B"] }, properties := [] },
             .model { decl := { name := some "M", scope := ["A_B"] }, properties := [{ name := "x", type := 3 }] },
             .union ⟨{ name := some "U", scope := ["X"] }, [0, 1]⟩,
             .scalar ⟨{ name := some "string", scope := builtinScope }, none⟩]
  declarations := [0, 1, 2]
  names := [("X.U", 2), ("A_B.M", 1), ("A.B.M", 0)]

def joinedAliasesRegistry : Registry :=
  [⟨⟨.model, "M", ["A", "B"]⟩, 0⟩, ⟨⟨.model, "M", ["A_B"]⟩, 1⟩, ⟨⟨.union, "U", ["X"]⟩, 2⟩]

theorem ofText_joinedAliasesText : Graph.ofText joinedAliasesText = .ok joinedAliasesGraph :=
  (Graph.ofText_eq (toList_join [_, _, _, _] rfl) (by decide)).trans (by decide +kernel)

end Sample

/-- Both import lines of the union's file bind one alias, under which it refers to both models. -/
theorem generate_joinedAliasesText : ∃ output workspace files routes,
    IsRun Sample.joinedAliasesText {} output workspace files routes ∧
      ∃ file ∈ files, file.imports = [["A", "B"], ["A_B"]] ∧ ¬ (file.imports.map Scope.alias).Nodup ∧
        (topLevel file.imports file.exportedNames).filter (fun binding => binding.1 = "A_B") =
          [("A_B", some ["A", "B"]), ("A_B", some ["A_B"])] := by
  have hvalid : Sample.joinedAliasesGraph.validate = .ok () := by decide
  have hregistry : Registry.ofGraph Sample.joinedAliasesGraph = .ok Sample.joinedAliasesRegistry := by decide
  have hok : (Workspace.mk Sample.joinedAliasesGraph Sample.joinedAliasesRegistry {}).generate.isOk = true := by
    decide +kernel
  obtain ⟨output, houtput⟩ := exists_generate Sample.ofText_joinedAliasesText hvalid hregistry hok
  obtain ⟨workspace, files, routes, hrun⟩ := exists_isRun houtput
  cases hrun.workspace_eq.symm.trans (Workspace.ofText_eq Sample.ofText_joinedAliasesText hvalid hregistry _)
  have hany : (Workspace.mk Sample.joinedAliasesGraph Sample.joinedAliasesRegistry
      {}).namespaceFiles.outcome.toOption.any
        (fun files => files.any (fun file => file.imports = [["A", "B"], ["A_B"]] ∧ file.exportedNames = ["U"])) =
      true := by
    decide +kernel
  rw [hrun.files_eq] at hany
  obtain ⟨file, hfile, hmatches⟩ := List.any_eq_true.1 hany
  obtain ⟨himports, hexported⟩ := of_decide_eq_true hmatches
  refine ⟨output, _, files, routes, hrun, file, hfile, himports, ?_, ?_⟩
  · rw [himports]
    decide
  · rw [himports, hexported]
    decide

end SchemaGuards

import Mathlib.Data.List.Perm.Basic
import SchemaGuards.Generator
import SchemaGuards.Proofs.Order.Expansion

/-!
# Alike workspaces write the same texts

Workspaces that hold the same schema at related places write the same text for every declaration. Their
registries may list the declarations in different orders. Then their namespace files come, and export, in
different orders; the operations have one order, and so the route files are the same.
-/
namespace SchemaGuards

/-- The values of two lists are related one to one, in whatever order. -/
def Matched {α β : Type} (related : α → β → Prop) (values : List α) (others : List β) : Prop :=
  ∃ reordered, values.Perm reordered ∧ List.Forall₂ related reordered others

namespace Matched
variable {α β γ δ : Type} {related : α → β → Prop} {values : List α} {others : List β}

theorem of_perm {others : List α} (h : values.Perm others) : Matched Eq values others :=
  ⟨others, h, List.forall₂_same.2 (fun _ _ => rfl)⟩

theorem imp {related' : α → β → Prop} (h : Matched related values others)
    (himp : ∀ value other, related value other → related' value other) : Matched related' values others := by
  rcases h with ⟨reordered, hperm, hrelated⟩
  exact ⟨reordered, hperm, hrelated.imp himp⟩

theorem exists_left (h : Matched related values others) {other : β} (hother : other ∈ others) :
    ∃ value ∈ values, related value other := by
  rcases h with ⟨reordered, hperm, hrelated⟩
  rcases (mem_of_forall₂ hrelated).2 other hother with ⟨value, hvalue, h⟩
  exact ⟨value, hperm.mem_iff.2 hvalue, h⟩

theorem exists_right (h : Matched related values others) {value : α} (hvalue : value ∈ values) :
    ∃ other ∈ others, related value other := by
  rcases h with ⟨reordered, hperm, hrelated⟩
  exact (mem_of_forall₂ hrelated).1 value (hperm.mem_iff.1 hvalue)

theorem filter (h : Matched related values others) (keep : α → Bool) (keep' : β → Bool)
    (hkeep : ∀ value other, related value other → (keep value ↔ keep' other)) :
    Matched related (values.filter keep) (others.filter keep') := by
  rcases h with ⟨reordered, hperm, hrelated⟩
  exact ⟨reordered.filter keep, hperm.filter keep, List.rel_filter (fun _ _ h => hkeep _ _ h) hrelated⟩

theorem filterMap {related' : γ → δ → Prop} {pick : α → Option γ} {pick' : β → Option δ}
    (h : Matched related values others)
    (hpick : ∀ value other, related value other → Option.Rel related' (pick value) (pick' other)) :
    Matched related' (values.filterMap pick) (others.filterMap pick') := by
  rcases h with ⟨reordered, hperm, hrelated⟩
  exact ⟨reordered.filterMap pick, hperm.filterMap pick, List.rel_filterMap (fun _ _ h => hpick _ _ h) hrelated⟩

theorem map_perm {pick : α → γ} {pick' : β → γ} (h : Matched related values others)
    (hpick : ∀ value other, related value other → pick' other = pick value) :
    (values.map pick).Perm (others.map pick') := by
  rcases h with ⟨reordered, hperm, hrelated⟩
  have hsame : reordered.map pick = others.map pick' := by
    induction hrelated generalizing values with
    | nil => rfl
    | cons hfirst _ ih => rw [List.map_cons, List.map_cons, hpick _ _ hfirst, ih (.refl _)]
  exact hsame ▸ hperm.map pick

end Matched

namespace Traced
variable {α β α' β' : Type}

theorem outcome_mapM_of_forall₂ {step : α → Traced β} {values : List α} {results : List β}
    (h : List.Forall₂ (fun value result => (step value).outcome = .ok result) values results) :
    (values.mapM step).outcome = .ok results := by
  induction h with
  | nil => rfl
  | cons hfirst _ ih =>
    rw [List.mapM_cons, bind_ok hfirst]
    dsimp only
    rw [bind_ok ih]
    rfl

theorem SimulatedBy.mapM_eq {step : α → Traced β} {step' : α' → Traced β} {values : List α} {values' : List α'}
    (h : List.Forall₂ (fun value value' => (step value).SimulatedBy Eq (step' value')) values values') :
    (values.mapM step).SimulatedBy Eq (values'.mapM step') := by
  intro results hresults
  rcases SimulatedBy.mapM h results hresults with ⟨results', hresults', hsame⟩
  exact ⟨results', hresults', by rwa [List.forall₂_eq_eq_eq] at hsame⟩

theorem SimulatedBy.mapM_matched {step : α → Traced β} {step' : α' → Traced β'} {related : α → α' → Prop}
    {related' : β → β' → Prop} {values : List α} {values' : List α'} (h : Matched related values values')
    (hstep : ∀ value value', related value value' → (step value).SimulatedBy related' (step' value')) :
    (values.mapM step).SimulatedBy (Matched related') (values'.mapM step') := by
  intro results hresults
  rcases h with ⟨reordered, hperm, hrelated⟩
  rcases List.perm_comp_forall₂ hperm.symm (outcome_mapM_ok hresults) with ⟨reresults, hreresults, hperm'⟩
  rcases SimulatedBy.mapM (hrelated.imp hstep) reresults (outcome_mapM_of_forall₂ hreresults) with
    ⟨results', hresults', hrelated'⟩
  exact ⟨results', hresults', reresults, hperm'.symm, hrelated'⟩

end Traced

/-- Operations that differ in the places of their bodies only, which are related. -/
structure Operation.Alike {α β : Type} (related : α → β → Prop) (operation : Operation α) (other : Operation β) :
    Prop where
  name_eq : other.name = operation.name
  scope_eq : other.scope = operation.scope
  path_eq : other.path = operation.path
  verb_eq : other.verb = operation.verb
  doc_eq : other.doc = operation.doc
  request : Option.Rel related operation.request other.request
  responses : List.Forall₂ (fun response response' : Response _ =>
    response'.status = response.status ∧ Option.Rel related response.body response'.body)
    operation.responses other.responses

open Emission

structure Emission.Export.Same (item other : Export) : Prop where
  identity_eq : other.entry.identity = item.entry.identity
  isEnumeration_eq : other.isEnumeration = item.isEnumeration
  type_eq : other.type = item.type
  guard_eq : other.guard = item.guard

/-- Files of one namespace that export the same texts in whatever order. -/
structure Emission.NamespaceFile.Same (file other : NamespaceFile) : Prop where
  scope_eq : other.scope = file.scope
  extensions_eq : other.extensions = file.extensions
  exports : Matched Export.Same file.exports other.exports

namespace Workspace
variable {workspace other : Workspace} {related : NodeId → NodeId → Prop}

/-- A workspace that mirrors another one as a whole: entries in whatever order, operations in the same one. -/
structure Reorders (workspace other : Workspace) (related : NodeId → NodeId → Prop) : Prop extends
    workspace.Mirrors other related where
  roots_eq : other.graph.roots = workspace.graph.roots
  operations : List.Forall₂ (Operation.Alike related) workspace.graph.operations other.graph.operations
  entries : Matched (fun entry entry' => entry'.identity = entry.identity ∧ related entry.node entry'.node)
    workspace.registry other.registry

theorem write_same (h : workspace.Mirrors other related) (mode : Mode) {id id' : NodeId} (hid : related id id')
    {context : Context} (hcontext : context.ancestry = []) {expansion expansion' : Expansion}
    (hsame : expansion.Same expansion') :
    other.write mode id' context expansion' = workspace.write mode id context expansion := by
  have hparent : context.parent? = none := by simp [Context.parent?, hcontext]
  cases mode with
  | type =>
    have htype : other.typeOf context expansion' = workspace.typeOf context expansion := by
      simp only [typeOf, typeStyle, isInModel, hparent, h.config_eq]
      rw [← TypeExpr.ofExpansion_unplaced _ _ expansion', ← hsame, TypeExpr.ofExpansion_unplaced]
      rfl
    have hrestrictions : expansion'.restrictions = expansion.restrictions := by
      rw [← Expansion.restrictions_unplaced expansion', ← hsame, Expansion.restrictions_unplaced]
    have hdoc : other.rootDoc context id' = workspace.rootDoc context id := by
      have hnodes := h.nodes id id' hid
      simp only [rootDoc, h.config_eq]
      generalize workspace.graph.node? id = found at hnodes
      generalize other.graph.node? id' = found' at hnodes
      cases hnodes with
      | none => rfl
      | some halike => rw [Option.bind_some, Option.bind_some, halike.doc_eq]
    simp only [write, htype, hrestrictions, hdoc, h.nodes.reaches_eq hid]
  | guard =>
    have hguard : guardOf context expansion' = guardOf context expansion := by
      rw [guardOf, guardOf, ← Guard.ofExpansion_unplaced _ _ expansion', ← hsame, Guard.ofExpansion_unplaced]
    simp only [write, hguard, h.nodes.reaches_eq hid]

theorem resolve_simulated (h : workspace.Mirrors other related) (mode : Mode) {id id' : NodeId}
    (hid : related id id') {context : Context} (hcontext : context.ancestry = []) :
    (workspace.resolve mode id context).SimulatedBy Eq (other.resolve mode id' context) := by
  rw [resolve, resolve, hcontext]
  refine (expand_simulated h mode context.locked hid).bind (fun expansion expansion' hsame => .pure ?_)
  exact (write_same h mode hid hcontext hsame).symm

theorem exportEntry_simulated (h : workspace.Mirrors other related) (scope : Scope) {entry entry' : Entry}
    (hidentity : entry'.identity = entry.identity) (hnode : related entry.node entry'.node) :
    (workspace.exportEntry scope entry).SimulatedBy Export.Same (other.exportEntry scope entry') := by
  have hkind : (other.graph.node? entry'.node).any (fun node => node.kind = .enumeration) =
      (workspace.graph.node? entry.node).any (fun node => node.kind = .enumeration) := by
    have hnodes := h.nodes _ _ hnode
    generalize workspace.graph.node? entry.node = found at hnodes
    generalize other.graph.node? entry'.node = found' at hnodes
    cases hnodes with
    | none => rfl
    | some halike => rw [Option.any_some, Option.any_some, halike.kind_eq]
  have hresolve := fun mode => resolve_simulated h mode hnode (rfl : (Context.ofScope scope).ancestry = [])
  rw [exportEntry, exportEntry, exportEntryBy, exportEntryBy, hkind, h.config_eq]
  refine (hresolve .type).bind (fun type _ htype => ?_)
  cases htype
  dsimp only
  split
  · refine Traced.SimulatedBy.bind ((hresolve .guard).map (fun _ _ => congrArg some)) (fun guard _ hguard => ?_)
    exact .pure ⟨hidentity, rfl, rfl, hguard.symm⟩
  · have hnone : (pure none : Traced (Option Resolution)).SimulatedBy Eq (pure none) := .pure rfl
    exact hnone.bind (fun guard _ hguard => .pure ⟨hidentity, rfl, rfl, hguard.symm⟩)

theorem namespaceFile_simulated (h : workspace.Reorders other related) (scope : Scope) :
    (workspace.namespaceFile scope).SimulatedBy NamespaceFile.Same (other.namespaceFile scope) := by
  have hentries := h.entries.filter (fun entry => entry.identity.scope = scope)
    (fun entry => entry.identity.scope = scope) (fun entry entry' hentry => by rw [hentry.1])
  rw [namespaceFile, namespaceFile, namespaceFileBy, namespaceFileBy, h.config_eq]
  refine (Traced.SimulatedBy.mapM_matched hentries
    (fun entry entry' hentry => exportEntry_simulated h.toMirrors scope hentry.1 hentry.2)).bind ?_
  exact fun exports exports' hexports => .pure ⟨rfl, rfl, hexports⟩

theorem scopes_perm (h : workspace.Reorders other related) :
    workspace.registry.scopes.Perm other.registry.scopes := by
  refine (List.perm_ext_iff_of_nodup (nodup_distinct _) (nodup_distinct _)).2 (fun scope => ?_)
  simp only [mem_distinct, List.mem_map]
  constructor
  · rintro ⟨entry, hentry, rfl⟩
    rcases h.entries.exists_right hentry with ⟨entry', hentry', hidentity, _⟩
    exact ⟨entry', hentry', by rw [hidentity]⟩
  · rintro ⟨entry', hentry', rfl⟩
    rcases h.entries.exists_left hentry' with ⟨entry, hentry, hidentity, _⟩
    exact ⟨entry, hentry, by rw [hidentity]⟩

theorem namespaceFiles_simulated (h : workspace.Reorders other related) :
    workspace.namespaceFiles.SimulatedBy (Matched NamespaceFile.Same) other.namespaceFiles := by
  rw [namespaceFiles, namespaceFiles, namespaceFilesBy, namespaceFilesBy, h.config_eq]
  split
  · refine Traced.SimulatedBy.mapM_matched (.of_perm (scopes_perm h)) ?_
    rintro scope _ rfl
    exact namespaceFile_simulated h scope
  · exact .pure ⟨[], .refl _, .nil⟩

theorem resolveBody_simulated (h : workspace.Mirrors other related) (argument : String)
    {body body' : Option NodeId} (hbody : Option.Rel related body body') :
    (workspace.resolveBody argument body).SimulatedBy Eq (other.resolveBody argument body') := by
  cases hbody with
  | none => exact .pure rfl
  | some hid =>
    rw [resolveBody, resolveBody, resolveBodyBy, resolveBodyBy, Option.mapM_some, Option.mapM_some]
    exact (resolve_simulated h .type hid rfl).map (fun _ _ => congrArg some)

theorem requestArgument_simulated (h : workspace.Mirrors other related) {operation operation' : Operation NodeId}
    (hoperation : operation.Alike related operation') :
    (workspace.requestArgument operation).SimulatedBy Eq (other.requestArgument operation') := by
  rw [requestArgument, requestArgument, h.config_eq, hoperation.verb_eq]
  split
  · exact .pure rfl
  · rintro _ ⟨⟩
    exact ⟨_, rfl, rfl⟩

theorem routeEntry_simulated (h : workspace.Mirrors other related) {operation operation' : Operation NodeId}
    (hoperation : operation.Alike related operation') :
    (workspace.routeEntry operation).SimulatedBy Eq (other.routeEntry operation') := by
  rw [routeEntry, routeEntry, routeEntryBy, routeEntryBy, h.config_eq, hoperation.path_eq, hoperation.verb_eq,
    hoperation.doc_eq]
  refine (requestArgument_simulated h hoperation).bind (fun argument _ hargument => ?_)
  cases hargument
  refine (resolveBody_simulated h argument hoperation.request).bind (fun request _ hrequest => ?_)
  cases hrequest
  have hresponses : List.Forall₂ (fun response response' : Response NodeId =>
      Traced.SimulatedBy (do
        let body ← workspace.resolveBody (lifecycleArgument workspace.config.lifecycle.response) response.body
        pure (response.status.getD defaultStatus, body)) Eq (do
        let body ← other.resolveBody (lifecycleArgument workspace.config.lifecycle.response) response'.body
        pure (response'.status.getD defaultStatus, body))) operation.responses operation'.responses := by
    refine hoperation.responses.imp (fun response response' hresponse => ?_)
    rw [hresponse.1]
    exact (resolveBody_simulated h _ hresponse.2).bind (fun body _ hbody => .pure (congrArg (Prod.mk _) hbody))
  refine (Traced.SimulatedBy.mapM_eq hresponses).bind (fun responses _ hsame => ?_)
  cases hsame
  exact .pure rfl

theorem routeEntries_simulated (h : workspace.Mirrors other related) (earlier : List (String × Verb))
    {operations operations' : List (Operation NodeId)}
    (hoperations : List.Forall₂ (Operation.Alike related) operations operations') :
    (workspace.routeEntries earlier operations).SimulatedBy Eq (other.routeEntries earlier operations') := by
  induction hoperations generalizing earlier with
  | nil => exact .pure rfl
  | @cons operation operation' _ _ hoperation _ ih =>
    rw [routeEntries, routeEntries, routeEntriesBy, routeEntriesBy, hoperation.path_eq, hoperation.verb_eq,
      hoperation.name_eq]
    split
    · intro entries hentries
      rcases Traced.outcome_bind_ok hentries with ⟨_, _, hentries⟩
      rcases ih earlier entries hentries with ⟨entries', hentries', hsame⟩
      exact ⟨entries', hentries', hsame⟩
    · refine (routeEntry_simulated h hoperation).bind (fun entry _ hentry => ?_)
      cases hentry
      exact (ih _).bind (fun entries _ hentries => .pure (congrArg (List.cons entry) hentries))

theorem routeFile_simulated (h : workspace.Reorders other related) (root : String) :
    (workspace.routeFile root).SimulatedBy Eq (other.routeFile root) := by
  have hoperations : List.Forall₂ (Operation.Alike related)
      (workspace.graph.operations.filter (fun operation => (Text.splitText '.' root).isPrefixOf operation.scope))
      (other.graph.operations.filter (fun operation => (Text.splitText '.' root).isPrefixOf operation.scope)) :=
    List.rel_filter (fun _ _ hoperation => by simp only [hoperation.scope_eq]) h.operations
  rw [routeFile, routeFile, routeFileBy, routeFileBy, h.config_eq]
  refine (routeEntries_simulated h.toMirrors [] hoperations).bind (fun entries _ hentries => ?_)
  cases hentries
  exact .pure rfl

theorem routeFiles_simulated (h : workspace.Reorders other related) :
    workspace.routeFiles.SimulatedBy Eq other.routeFiles := by
  have hroots : RouteFile.roots other.graph.operations other.graph.roots =
      RouteFile.roots workspace.graph.operations workspace.graph.roots := by
    have hscopes : other.graph.operations.filterMap (fun operation => operation.scope.head?) =
        workspace.graph.operations.filterMap (fun operation => operation.scope.head?) := by
      have hoperations := h.operations
      generalize workspace.graph.operations = operations at hoperations
      generalize other.graph.operations = operations' at hoperations
      induction hoperations with
      | nil => rfl
      | cons hfirst _ ih => rw [List.filterMap_cons, List.filterMap_cons, ih, hfirst.scope_eq]
    rw [RouteFile.roots, RouteFile.roots, hscopes, h.roots_eq]
  rw [routeFiles, routeFiles, routeFilesBy, routeFilesBy, h.config_eq, hroots]
  split
  · exact .mapM_eq (List.forall₂_same.2 (fun root _ => routeFile_simulated h root))
  · exact .pure rfl

end Workspace
end SchemaGuards

import SchemaGuards.Generator
import SchemaGuards.Proofs.Expansion.Correspondence

/-!
# Emission in corresponding computations

Files are emitted by one traversal, whatever kind of computation resolves the nodes. So they are emitted
alike where nodes are resolved alike.
-/
namespace SchemaGuards
open Emission

/-- A verb without phases is the only thing about a request that is reported. -/
theorem Workspace.requestArgument_reports (workspace : Workspace) (operation : Operation NodeId) :
    (workspace.requestArgument operation).Reports := by
  unfold requestArgument
  split
  · exact Traced.reports_pure _
  · exact .value lifecycleParameter _ (Traced.reports_warn _ _).isWarning

namespace Correspondence
variable {m n : Type → Type} [Monad m] [Monad n] [MonadLiftT Traced m] [MonadLiftT Traced n]
  [LawfulMonad m] [LawfulMonad n] (correspondence : Correspondence m n) {workspace : Workspace}
  {resolve : Resolver m} {resolveOther : Resolver n}
  (h : ∀ mode id context, correspondence.Holds (resolve mode id context) (resolveOther mode id context))
include h

theorem holds_exportEntry (scope : Scope) (entry : Entry) :
    correspondence.Holds (workspace.exportEntryBy resolve scope entry)
      (workspace.exportEntryBy resolveOther scope entry) := by
  unfold Workspace.exportEntryBy
  refine correspondence.holds_bind (h .type entry.node _) (fun type => ?_)
  dsimp only
  split
  · refine correspondence.holds_bind ?_ (fun guard => correspondence.holds_pure _)
    exact correspondence.holds_map (h .guard entry.node _) some
  · exact correspondence.holds_bind (correspondence.holds_pure none) (fun guard => correspondence.holds_pure _)

theorem holds_namespaceFile (scope : Scope) :
    correspondence.Holds (workspace.namespaceFileBy resolve scope)
      (workspace.namespaceFileBy resolveOther scope) := by
  unfold Workspace.namespaceFileBy
  refine correspondence.holds_bind ?_ (fun exports => correspondence.holds_pure _)
  exact correspondence.holds_mapM (correspondence.holds_exportEntry h scope) _

theorem holds_namespaceFiles :
    correspondence.Holds (workspace.namespaceFilesBy resolve) (workspace.namespaceFilesBy resolveOther) := by
  unfold Workspace.namespaceFilesBy
  split
  · exact correspondence.holds_mapM (correspondence.holds_namespaceFile h) _
  · exact correspondence.holds_pure []

theorem holds_resolveBody (argument : String) (body : Option NodeId) :
    correspondence.Holds (Workspace.resolveBodyBy resolve argument body)
      (Workspace.resolveBodyBy resolveOther argument body) :=
  correspondence.holds_optionMapM (fun id => h .type id _) body

theorem holds_routeEntry (operation : Operation NodeId) :
    correspondence.Holds (workspace.routeEntryBy resolve operation)
      (workspace.routeEntryBy resolveOther operation) := by
  unfold Workspace.routeEntryBy
  have hargument := correspondence.holds_lift _ (workspace.requestArgument_reports operation)
  refine correspondence.holds_bind hargument (fun argument => ?_)
  refine correspondence.holds_bind (correspondence.holds_resolveBody h argument _) (fun request => ?_)
  refine correspondence.holds_bind (correspondence.holds_mapM (fun response => ?_) _)
    (fun responses => correspondence.holds_pure _)
  exact correspondence.holds_bind (correspondence.holds_resolveBody h _ response.body)
    (fun body => correspondence.holds_pure _)

theorem holds_routeEntries (earlier : List (String × Verb)) (operations : List (Operation NodeId)) :
    correspondence.Holds (workspace.routeEntriesBy resolve earlier operations)
      (workspace.routeEntriesBy resolveOther earlier operations) := by
  induction operations generalizing earlier with
  | nil => exact correspondence.holds_pure []
  | cons operation rest ih =>
    unfold Workspace.routeEntriesBy
    split
    · exact correspondence.holds_bind (correspondence.holds_lift _ (Traced.reports_warn _ _)) (fun _ => ih earlier)
    · refine correspondence.holds_bind (correspondence.holds_routeEntry h operation) (fun entry => ?_)
      exact correspondence.holds_bind (ih _) (fun entries => correspondence.holds_pure (entry :: entries))

theorem holds_routeFile (root : String) :
    correspondence.Holds (workspace.routeFileBy resolve root) (workspace.routeFileBy resolveOther root) := by
  unfold Workspace.routeFileBy
  exact correspondence.holds_bind (correspondence.holds_routeEntries h [] _)
    (fun entries => correspondence.holds_pure _)

theorem holds_routeFiles :
    correspondence.Holds (workspace.routeFilesBy resolve) (workspace.routeFilesBy resolveOther) := by
  unfold Workspace.routeFilesBy
  split
  · exact correspondence.holds_mapM (correspondence.holds_routeFile h) _
  · exact correspondence.holds_pure []

/-- All files of a run correspond when the resolutions of nodes do. -/
theorem holds_files :
    correspondence.Holds (workspace.filesBy resolve) (workspace.filesBy resolveOther) := by
  unfold Workspace.filesBy
  refine correspondence.holds_bind (correspondence.holds_namespaceFiles h) (fun namespaceFiles => ?_)
  exact correspondence.holds_bind (correspondence.holds_routeFiles h) (fun routeFiles => correspondence.holds_pure _)

end Correspondence
end SchemaGuards

import SchemaGuards.Draft.Linking
import SchemaGuards.Emission.LifecycleFile
import SchemaGuards.Emission.NamespaceFile
import SchemaGuards.Emission.RouteFile
import SchemaGuards.Emission.Storage
import SchemaGuards.Schema.Validation

/-!
# The generator

A run emits the file of every namespace with registered declarations, then the route file of every
root, and last the lifecycle helpers, if a file needs them.
-/
namespace SchemaGuards

/-- The files of a run, in the order of their emission, and what it reported. -/
structure Output where
  files : List Emission.File
  diagnostics : Diagnostics

namespace Workspace
open Emission

section Computation
variable {m : Type → Type} [Monad m]

def namespaceFilesBy (workspace : Workspace) (resolve : Resolver m) : m (List NamespaceFile) :=
  if workspace.config.emitTypes then workspace.registry.scopes.mapM (workspace.namespaceFileBy resolve)
  else pure []

variable [MonadLiftT Traced m]

def routeFilesBy (workspace : Workspace) (resolve : Resolver m) : m (List RouteFile) :=
  if workspace.config.emitRoutes then
    (RouteFile.roots workspace.graph.operations workspace.graph.roots).mapM (workspace.routeFileBy resolve)
  else pure []

/-- The files of a run, given how nodes are resolved; every route file needs the lifecycle helpers. -/
def filesBy (workspace : Workspace) (resolve : Resolver m) : m (List File) := do
  let namespaceFiles ← workspace.namespaceFilesBy resolve
  let routeFiles ← workspace.routeFilesBy resolve
  let helpers :=
    if namespaceFiles.any NamespaceFile.usesLifecycle || !routeFiles.isEmpty then
      [⟨lifecycleFileName, lifecycleModule⟩]
    else []
  pure (namespaceFiles.map (fun file => ⟨file.fileName, file.content⟩) ++
    routeFiles.map (fun file => ⟨file.fileName, file.content⟩) ++ helpers)

end Computation

def namespaceFiles (workspace : Workspace) : Traced (List NamespaceFile) :=
  workspace.namespaceFilesBy workspace.resolve

def routeFiles (workspace : Workspace) : Traced (List RouteFile) := workspace.routeFilesBy workspace.resolve

/-- The files of a run. -/
def files (workspace : Workspace) : Traced (List File) := workspace.filesBy workspace.resolve

def generate (workspace : Workspace) : Except GenerationError Output := do
  workspace.config.validate
  let traced := workspace.files
  let files ← traced.outcome
  pure ⟨files, traced.log⟩

end Workspace

/-- The valid graph of a schema document and its registry. -/
def Workspace.ofText (text : String) (config : Config) : Except GenerationError Workspace := do
  let graph ← (Graph.ofText text).mapError .reading
  graph.validate.mapError .schema
  let registry ← (Registry.ofGraph graph).mapError .schema
  pure ⟨graph, registry, config⟩

def generate (text : String) (config : Config) : Except GenerationError Output := do
  let workspace ← Workspace.ofText text config
  workspace.generate

def Output.file? (output : Output) (path : String) : Option Emission.File :=
  output.files.find? (fun file => Emission.isSamePath file.path path)

def Output.store (output : Output) (location : String) :
    Emission.Directory × Except GenerationError Unit :=
  Emission.Directory.storeAll { location } output.files

def GenerationError.missingDocument : GenerationError := Emission.StorageFault.toError .missing

def ReadError.missingDocument : ReadError := .unavailable Emission.StorageFault.missing.message

end SchemaGuards

import SchemaGuards.Emission.LifecycleFile
import SchemaGuards.Resolution

/-!
# Route files

The route file of a root namespace maps every route and verb of the operations below the root to the
types of request and response. The first operation of a route and verb counts, later ones are
reported and left out. Bodies belong to no file, so they refer to declarations through aliases.
-/
namespace SchemaGuards.Emission

def defaultStatus : Nat := 200

def lifecycleParameter : String := "V"

structure RouteEntry where
  path : String
  verb : Verb
  doc : Option String
  /-- The request body, if there is one. -/
  request : Option Resolution
  responses : List (Nat × Option Resolution)

namespace RouteEntry

/-- The text of a body; without one, the null type. -/
def bodyText (body : Option Resolution) : String :=
  match body with
  | some resolution => Layout.prettyAt 3 resolution.text
  | none => "null"

def responseText (response : Nat × Option Resolution) : String :=
  "\x7bstatus: " ++ toString response.1 ++ ", body: " ++ bodyText response.2 ++ "\x7d"

def responsesText (entry : RouteEntry) : String :=
  if entry.responses.isEmpty then "void" else String.intercalate " | " (entry.responses.map responseText)

def importedScopes (entry : RouteEntry) : List Scope :=
  (entry.request.toList ++ entry.responses.filterMap Prod.snd).flatMap Resolution.imports

def docText (doc : String) : String :=
  String.ofList ((Text.lines (Text.docComment doc).toList).flatMap (fun line => "    ".toList ++ line ++ ['\n']))

def text (entry : RouteEntry) : String :=
  (match entry.doc with
    | some doc => docText doc
    | none => "") ++
    "    [" ++ Text.quote entry.verb.name ++ "]: \x7b\n      request: " ++ bodyText entry.request ++
    ";\n      response: " ++ entry.responsesText ++ ";\n    \x7d;\n"

end RouteEntry

structure RouteFile where
  root : Scope
  /-- The operations that count, in their order. -/
  entries : List RouteEntry
  extensions : Bool

namespace RouteFile

/-- The routes, each once, in the order of their first operation. -/
def paths (file : RouteFile) : List String :=
  distinct (file.entries.map RouteEntry.path)

def imports (file : RouteFile) : List Scope := distinct (file.entries.flatMap RouteEntry.importedScopes)

def pathText (file : RouteFile) (path : String) : String :=
  "  [" ++ Text.quote path ++ "]: \x7b\n" ++
    String.join ((file.entries.filter (fun entry => entry.path = path)).map RouteEntry.text) ++ "  \x7d;\n"

def content (file : RouteFile) : String :=
  header ++ "\n" ++ lifecycleImport file.extensions ++ scopeImports file.extensions file.imports ++ "\n" ++
    "export type types_" ++ Scope.alias file.root ++ genericParameters ++ " = \x7b" ++
    (if file.entries.isEmpty then "" else "\n" ++ String.join (file.paths.map file.pathText)) ++ "\x7d;\n"

def fileName (file : RouteFile) : String := "routedTypemap_" ++ Scope.alias file.root ++ ".ts"

/-- The roots that have a route file: the configured ones, or the outermost namespaces of operations. -/
def roots (operations : List (Operation NodeId)) (configured : List String) : List String :=
  if configured.isEmpty then
    distinct (operations.filterMap (fun operation => operation.scope.head?))
  else configured

end RouteFile
end SchemaGuards.Emission

namespace SchemaGuards.Workspace
open Emission

/-- The lifecycle argument for the given phases; without phases, the parameter itself. -/
def lifecycleArgument (states : LifecycleSet) : String :=
  if states.isEmpty then lifecycleParameter else boundLifecycle lifecycleParameter states

/-- The lifecycle argument of requests, reported when the verb has no phases. -/
def requestArgument (workspace : Workspace) (operation : Operation NodeId) : Traced String :=
  match workspace.config.lifecycle.request operation.verb with
  | some states => pure (lifecycleArgument states)
  | none => do
    Traced.warn "routed-typemap-unmapped-verb"
      ("no lifecycle is mapped to " ++ operation.verb.name ++ "; the request of '" ++ operation.name ++
        "' is left unfiltered")
    pure lifecycleParameter

section Computation
variable {m : Type → Type} [Monad m]

def resolveBodyBy (resolve : Resolver m) (argument : String) (body : Option NodeId) : m (Option Resolution) :=
  body.mapM (fun id => resolve .type id (Context.detached.withLifecycle argument))

variable [MonadLiftT Traced m]

/-- What a route file says about an operation that counts, given how nodes are resolved. -/
def routeEntryBy (workspace : Workspace) (resolve : Resolver m) (operation : Operation NodeId) : m RouteEntry := do
  let requestArgument ← workspace.requestArgument operation
  let request ← resolveBodyBy resolve requestArgument operation.request
  let responseArgument := lifecycleArgument workspace.config.lifecycle.response
  let responses ← operation.responses.mapM (fun response => do
    let body ← resolveBodyBy resolve responseArgument response.body
    pure (response.status.getD defaultStatus, body))
  let doc := if workspace.config.emitDocs then operation.doc else none
  pure ⟨operation.path, operation.verb, doc, request, responses⟩

/-- The entries of operations, of which each route and verb has at most one. -/
def routeEntriesBy (workspace : Workspace) (resolve : Resolver m) (earlier : List (String × Verb)) :
    List (Operation NodeId) → m (List RouteEntry)
  | [] => pure []
  | operation :: rest =>
    if (operation.path, operation.verb) ∈ earlier then do
      Traced.warn "routed-typemap-duplicate-route"
        ("operation '" ++ operation.name ++ "' repeats route " ++ operation.verb.name ++ " " ++
          operation.path ++ "; keeping the first")
      workspace.routeEntriesBy resolve earlier rest
    else do
      let entry ← workspace.routeEntryBy resolve operation
      let entries ← workspace.routeEntriesBy resolve ((operation.path, operation.verb) :: earlier) rest
      pure (entry :: entries)

def routeFileBy (workspace : Workspace) (resolve : Resolver m) (root : String) : m RouteFile := do
  let segments := Text.splitText '.' root
  let operations := workspace.graph.operations.filter (fun operation => segments.isPrefixOf operation.scope)
  let entries ← workspace.routeEntriesBy resolve [] operations
  pure ⟨segments, entries, workspace.config.importExtensions⟩

end Computation

def resolveBody (workspace : Workspace) (argument : String) (body : Option NodeId) :
    Traced (Option Resolution) :=
  resolveBodyBy workspace.resolve argument body

def routeEntry (workspace : Workspace) (operation : Operation NodeId) : Traced RouteEntry :=
  workspace.routeEntryBy workspace.resolve operation

def routeEntries (workspace : Workspace) (earlier : List (String × Verb)) (operations : List (Operation NodeId)) :
    Traced (List RouteEntry) :=
  workspace.routeEntriesBy workspace.resolve earlier operations

def routeFile (workspace : Workspace) (root : String) : Traced RouteFile :=
  workspace.routeFileBy workspace.resolve root

end SchemaGuards.Workspace

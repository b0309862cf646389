import SchemaGuards.Emission.LifecycleFile
import SchemaGuards.Resolution

/-!
# Namespace files

The file of a namespace exports the type of each of its registered declarations, in their order, and
behind it the guard, if guards are asked for; an enumeration has none. The file imports what these
refer to outside of it.
-/
namespace SchemaGuards.Emission

structure Export where
  entry : Entry
  isEnumeration : Bool
  type : Resolution
  guard : Option Resolution

namespace Export

def isGeneric (item : Export) : Bool := item.type.isGeneric

def name (item : Export) : String := item.entry.identity.name

def parameters (item : Export) : String := if item.isGeneric then genericParameters else ""

/-- The namespaces that the declaration and its guard refer to. -/
def importedScopes (item : Export) : List Scope :=
  item.type.imports ++ (item.guard.map Resolution.imports).getD []

def typeText (item : Export) : String :=
  if item.isEnumeration then "export enum " ++ item.name ++ " " ++ Layout.pretty item.type.text ++ "\n"
  else
    "export type " ++ item.name ++ item.parameters ++ " = " ++ Layout.pretty item.type.text ++ ";\n"

def guardText (item : Export) (guard : Resolution) : String :=
  let signature :=
    if item.isGeneric then
      genericParameters ++ "(t: any, vis: V = Lifecycle.All as V): t is " ++ item.name ++ "<V>"
    else "(t: any): t is " ++ item.name
  "\nexport function is" ++ item.name ++ signature ++ " \x7b\n  return " ++
    Layout.prettyAt 2 guard.text ++ ";\n\x7d\n"

def text (item : Export) : String :=
  let doc :=
    match item.type.doc with
    | some doc => Text.docComment doc ++ "\n"
    | none => ""
  let guard :=
    match item.guard with
    | some guard => item.guardText guard
    | none => ""
  doc ++ item.typeText ++ guard

end Export

structure NamespaceFile where
  scope : Scope
  exports : List Export
  /-- Whether imported files are named with their extension. -/
  extensions : Bool

namespace NamespaceFile

/-- Whether the lifecycle helpers are needed. -/
def usesLifecycle (file : NamespaceFile) : Bool := file.exports.any Export.isGeneric

/-- The imported namespaces: those of the exports, without the file's own. -/
def imports (file : NamespaceFile) : List Scope :=
  distinct ((file.exports.flatMap Export.importedScopes).filter (fun scope => scope ≠ file.scope))

def content (file : NamespaceFile) : String :=
  header ++ "\n" ++ (if file.usesLifecycle then lifecycleImport file.extensions else "") ++
    scopeImports file.extensions file.imports ++
    (if file.usesLifecycle || !file.imports.isEmpty then "\n" else "") ++
    String.intercalate "\n" (file.exports.map Export.text)

def fileName (file : NamespaceFile) : String := Scope.fileName file.scope

end NamespaceFile
end SchemaGuards.Emission

namespace SchemaGuards.Workspace
open Emission

section Computation
variable {m : Type → Type} [Monad m]

/-- Exports a registered declaration, given how nodes are resolved. -/
def exportEntryBy (workspace : Workspace) (resolve : Resolver m) (scope : Scope) (entry : Entry) : m Export := do
  let isEnumeration := (workspace.graph.node? entry.node).any (fun node => node.kind = .enumeration)
  let context := Context.ofScope scope
  let type ← resolve .type entry.node context
  let guard ←
    if workspace.config.emitGuards && !isEnumeration then
      some <$> resolve .guard entry.node context
    else pure none
  pure ⟨entry, isEnumeration, type, guard⟩

/-- The file of a namespace, given how nodes are resolved. -/
def namespaceFileBy (workspace : Workspace) (resolve : Resolver m) (scope : Scope) : m NamespaceFile := do
  let entries := workspace.registry.filter (fun entry => entry.identity.scope = scope)
  let exports ← entries.mapM (workspace.exportEntryBy resolve scope)
  pure ⟨scope, exports, workspace.config.importExtensions⟩

end Computation

def exportEntry (workspace : Workspace) (scope : Scope) (entry : Entry) : Traced Export :=
  workspace.exportEntryBy workspace.resolve scope entry

def namespaceFile (workspace : Workspace) (scope : Scope) : Traced NamespaceFile :=
  workspace.namespaceFileBy workspace.resolve scope

end SchemaGuards.Workspace

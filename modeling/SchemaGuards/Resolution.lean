import SchemaGuards.Context
import SchemaGuards.Written.Guard

/-!
# Resolutions

Resolving a node expands it in a context and writes the expansion as a type or as a guard. The result
holds the text with all that its surroundings need to know: the namespaces to import, whether a
restriction can be reached, the restrictions written in place, and the documentation of the root.
-/
namespace SchemaGuards

structure Resolution where
  text : Layout := []
  imports : List Scope := []
  /-- Whether a restriction can be reached from the node. -/
  isGeneric : Bool := false
  /-- The restrictions written in place; none when empty. -/
  restrictions : VisibilityMap := []
  doc : Option String := none

namespace Resolution

def ofText (text : String) : Resolution := { text := Layout.text text }

def addImport (resolution : Resolution) (scope : Scope) : Resolution :=
  { resolution with imports := insertNew resolution.imports scope }

def mergeImports (resolution part : Resolution) : Resolution :=
  { resolution with imports := insertAllNew resolution.imports part.imports }

/-- The restrictions on a single line; empty when there are none. -/
def restrictionsText (resolution : Resolution) : String :=
  if resolution.restrictions.isEmpty then "" else Layout.flat (VisibilityMap.layout resolution.restrictions)

end Resolution

/-- How nodes are resolved in contexts, by some kind of computation. -/
abbrev Resolver (m : Type → Type) := Mode → NodeId → Context → m Resolution

namespace Workspace

def isInModel (workspace : Workspace) (context : Context) : Bool :=
  (context.parent?.bind workspace.graph.node?).any (fun node => node.kind = .model)

def typeStyle (workspace : Workspace) (context : Context) : TypeStyle where
  target := context.target
  argument := context.lifecycle
  emitDocs := workspace.config.emitDocs
  nominalEnums := workspace.config.nominalEnums

/-- The documentation that a node brings to the place where it is declared. -/
def rootDoc (workspace : Workspace) (context : Context) (id : NodeId) : Option String :=
  if context.locked || !workspace.config.emitDocs then none
  else (workspace.graph.node? id).bind Node.doc?

def typeOf (workspace : Workspace) (context : Context) (expansion : Expansion) : TypeExpr :=
  TypeExpr.ofExpansion (workspace.typeStyle context) (workspace.isInModel context) expansion

def guardOf (context : Context) (expansion : Expansion) : Guard :=
  Guard.ofExpansion context.target (.named context.accessor) expansion

/-- What an expansion of a node is written as. -/
def write (workspace : Workspace) (mode : Mode) (id : NodeId) (context : Context) (expansion : Expansion) :
    Resolution :=
  match mode with
  | .type =>
    let type := workspace.typeOf context expansion
    { text := type.layout
      imports := distinct type.importedScopes
      isGeneric := workspace.graph.reachesRestriction id
      restrictions := expansion.restrictions
      doc := workspace.rootDoc context id }
  | .guard =>
    let guard := guardOf context expansion
    { text := guard.layout
      imports := distinct guard.importedScopes
      isGeneric := workspace.graph.reachesRestriction id }

/-- Resolves a node in a context. -/
def resolve (workspace : Workspace) (mode : Mode) (id : NodeId) (context : Context) : Traced Resolution := do
  let expansion ← workspace.expand mode context.locked context.ancestry id
  pure (workspace.write mode id context expansion)

theorem resolve_log (workspace : Workspace) (mode : Mode) (id : NodeId) (context : Context) :
    (workspace.resolve mode id context).log =
      (workspace.expand mode context.locked context.ancestry id).log := by
  unfold resolve
  cases h : (workspace.expand mode context.locked context.ancestry id).outcome with
  | error error => rw [Traced.bind_error h]
  | ok expansion => rw [Traced.bind_ok h]; simp

end Workspace
end SchemaGuards

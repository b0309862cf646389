import SchemaGuards.Draft.Basic
import SchemaGuards.Draft.Reading
import SchemaGuards.Schema.Error

/-!
# From documents to graphs

A schema document is read into a draft and the draft is linked into a graph. Every declaration first
gets a place, in document order, and then its body, so that names may refer forward and in circles. A
name stands for the intrinsic of that name; else for the declaration with that name in the innermost
enclosing namespace; else for the built-in scalar, whose place is made on first use after those of its
bases; else, split at its last dot, for a member of an enumeration.
-/
namespace SchemaGuards.Draft

/-- The built-in scalars that a built-in scalar extends, the nearest first. -/
def builtinBases? (name : String) : Option (List String) :=
  [("boolean", []), ("bytes", []), ("duration", []), ("numeric", []), ("plainTime", []),
    ("string", []), ("url", []), ("offsetDateTime", []), ("plainDate", []), ("utcDateTime", []),
    ("unixTimestamp32", []), ("integer", ["numeric"]), ("int8", ["integer", "numeric"]),
    ("int16", ["integer", "numeric"]), ("int32", ["integer", "numeric"]),
    ("int64", ["integer", "numeric"]), ("uint8", ["integer", "numeric"]),
    ("uint16", ["integer", "numeric"]), ("uint32", ["integer", "numeric"]),
    ("uint64", ["integer", "numeric"]), ("safeint", ["integer", "numeric"]), ("float", ["numeric"]),
    ("float32", ["float", "numeric"]), ("float64", ["float", "numeric"]), ("decimal", ["numeric"]),
    ("decimal128", ["decimal", "numeric"])].lookup name

def withoutBuiltinScope (name : String) : String :=
  let lead := (Text.dotted builtinScope ++ ".").toList
  if lead.isPrefixOf name.toList then String.ofList (name.toList.drop lead.length) else name

def splitLastDot? (name : String) : Option (String × String) :=
  let pieces := Text.splitText '.' name
  match pieces.getLast? with
  | some last => if pieces.length ≤ 1 then none else some (Text.dotted pieces.dropLast, last)
  | none => none

/-- The qualified names that a name may stand for inside a namespace, the innermost first. -/
def candidates (scope : Scope) (name : String) : List String :=
  (List.range (scope.length + 1)).reverse.map (fun n => Text.dotted (scope.take n ++ [name]))

/-- The declaration that a name stands for inside a namespace. -/
def lookupDeclaration? (graph : Graph) (scope : Scope) (name : String) : Option NodeId :=
  (candidates scope name).findSome? graph.declared?

/-- A graph that is being built, with the places of its built-in scalars. -/
structure Linker where
  graph : Graph
  builtins : List (String × NodeId) := []

abbrev Linking := StateT Linker (Except ReadError)

namespace Linking

def addNode (node : Node) : Linking NodeId :=
  modifyGet (fun linker =>
    let (id, graph) := linker.graph.add node
    (id, { linker with graph }))

/-- The place of a built-in scalar after those of its bases, each of them made on first use. -/
def builtin : List String → Linking (Option NodeId)
  | [] => pure none
  | name :: bases => do
    match (← get).builtins.lookup name with
    | some id => pure (some id)
    | none => do
      let base ← builtin bases
      let id ← addNode (.scalar ⟨{ name := some name, scope := builtinScope }, base⟩)
      modify (fun linker => { linker with builtins := (name, id) :: linker.builtins })
      pure (some id)

def memberNamed? (graph : Graph) (scope : Scope) (name : String) : Option (NodeId × String) := do
  let (owner, member) ← splitLastDot? name
  let id ← lookupDeclaration? graph scope owner
  match graph.node? id with
  | some (.enumeration content) => if member ∈ content.members.map Member.name then some (id, member) else none
  | _ => none

/-- What a type name stands for inside a namespace. -/
def resolveName (scope : Scope) (referrer name : String) : Linking NodeId := do
  match Intrinsic.ofName? name with
  | some intrinsic => addNode (.primitive (.intrinsic intrinsic))
  | none => do
    let graph := (← get).graph
    match lookupDeclaration? graph scope name with
    | some id => pure id
    | none => do
      let scalar := withoutBuiltinScope name
      match builtinBases? scalar with
      | some bases => do
        match ← builtin (scalar :: bases) with
        | some id => pure id
        | none => throw (.unknownType name referrer)
      | none =>
        match memberNamed? graph scope name with
        | some (owner, member) => addNode (.member owner member)
        | none => throw (.unknownType name referrer)

mutual
/-- Links a type; the parts of a type come before it. -/
def linkForm (scope : Scope) (referrer : String) : Form → Linking NodeId
  | .named name => resolveName scope referrer name
  | .indexed kind element => do
    let element ← linkForm scope referrer element
    addNode (.model (Model.ofElement kind element))
  | .tuple elements => do
    let elements ← linkForms scope referrer elements
    addNode (.tuple elements)
  | .union variants => do
    let variants ← linkForms scope referrer variants
    addNode (.union ⟨{}, variants⟩)
  | .model properties => do
    let properties ← linkProperties scope referrer properties
    addNode (.model { decl := {}, properties })
  | .literal value => addNode (.primitive value)
  | .unsupported kind => addNode (.unsupported kind)
termination_by structural form => form

def linkForms (scope : Scope) (referrer : String) : List Form → Linking (List NodeId)
  | [] => pure []
  | form :: rest => do
    let id ← linkForm scope referrer form
    let ids ← linkForms scope referrer rest
    pure (id :: ids)

def linkProperty (scope : Scope) (referrer : String) : Property Form → Linking (Property NodeId)
  | ⟨name, type, optional, visibility, doc⟩ => do
    let type ← linkForm scope (referrer ++ "." ++ name) type
    pure ⟨name, type, optional, visibility, doc⟩

def linkProperties (scope : Scope) (referrer : String) :
    List (Property Form) → Linking (List (Property NodeId))
  | [] => pure []
  | property :: rest => do
    let first ← linkProperty scope referrer property
    let others ← linkProperties scope referrer rest
    pure (first :: others)
end

/-- The node that holds a declaration's place until its body is linked. -/
def placeholder (declaration : Declaration) : Node :=
  match declaration.body with
  | .model .. => .model { decl := declaration.decl }
  | .enumeration members => .enumeration ⟨declaration.decl, members⟩
  | .union _ => .union ⟨declaration.decl, []⟩
  | .scalar _ => .scalar ⟨declaration.decl, none⟩

/-- Makes a declaration's place; a qualified name can be declared once. -/
def declare (declaration : Declaration) : Linking NodeId := do
  let linker ← get
  if (linker.graph.declared? declaration.qualified).isSome then
    throw (.duplicate declaration.body.kindName declaration.qualified)
  else do
    let (id, graph) := linker.graph.declare (placeholder declaration)
    set { linker with graph }
    pure id

/-- A base, which has to be of the declaration's own kind. -/
def linkBase (declaration : Declaration) (kind : Kind) (base : Option String) : Linking (Option NodeId) :=
  match base with
  | none => pure none
  | some name => do
    let id ← resolveName declaration.scope declaration.qualified name
    if ((← get).graph.node? id).map Node.kind = some kind then pure (some id)
    else
      let word := declaration.body.kindName
      throw (.malformed ("base '" ++ name ++ "' of " ++ word ++ " '" ++ declaration.qualified ++
        "' is not a " ++ word))

/-- Links a declaration's body and puts it into the declaration's place. -/
def define (declaration : Declaration) (id : NodeId) : Linking Unit := do
  let replace := fun (node : Node) =>
    modify (fun linker : Linker => { linker with graph := linker.graph.replace id node })
  match declaration.body with
  | .enumeration _ => pure ()
  | .model base properties => do
    let base ← linkBase declaration .model base
    let properties ← linkProperties declaration.scope declaration.qualified properties
    replace (.model { decl := declaration.decl, properties, base })
  | .union variants => do
    let variants ← linkForms declaration.scope declaration.qualified variants
    replace (.union ⟨declaration.decl, variants⟩)
  | .scalar base => do
    let base ← linkBase declaration .scalar base
    replace (.scalar ⟨declaration.decl, base⟩)

def linkResponse (scope : Scope) (referrer : String) (response : Response Form) :
    Linking (Response NodeId) := do
  let body ← response.body.mapM (linkForm scope referrer)
  pure ⟨response.status, body⟩

def linkOperation (operation : Operation Form) : Linking Unit := do
  let referrer := Text.dotted operation.scope ++ "." ++ operation.name
  let request ← operation.request.mapM (linkForm operation.scope referrer)
  let responses ← operation.responses.mapM (linkResponse operation.scope referrer)
  modify (fun linker =>
    { linker with graph := linker.graph.addOperation { operation with request, responses } })

def link (contents : Contents) : Linking Unit := do
  let ids ← contents.declarations.mapM declare
  (contents.declarations.zip ids).forM (fun (declaration, id) => define declaration id)
  contents.operations.forM linkOperation

end Linking
end SchemaGuards.Draft

namespace SchemaGuards

/-- The graph of a draft, with every type name replaced by the node that it stands for. -/
def Draft.link (draft : Draft) : Except ReadError Graph :=
  (Draft.Linking.link draft.contents { graph := { roots := draft.roots } }).map
    (fun (_, linker) => linker.graph)

def Draft.ofText (text : String) : Except ReadError Draft := Draft.ofDocument (Markup.Document.ofText text)

def Graph.ofText (text : String) : Except ReadError Graph := do
  let draft ← Draft.ofText text
  draft.link

end SchemaGuards

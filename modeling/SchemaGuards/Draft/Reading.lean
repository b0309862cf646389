import SchemaGuards.Decimal.Binary64
import SchemaGuards.Draft.Basic
import SchemaGuards.Markup.Element
import SchemaGuards.Schema.Error

/-!
# From elements to drafts

Each element of a schema document has its attributes and the children that it may hold. Elements are
read in document order and the first fault is reported: an element's own attributes come before its
children, and the way in which it ends comes after them.
-/
namespace SchemaGuards.Draft
open Markup

/-- The attributes of an element, once they are all well formed. -/
def readKeys (attributes : Attributes) : Except ReadError (List Attribute) :=
  attributes.mapError .attributes

def key? (keys : List Attribute) (key : String) : Option String :=
  (keys.find? (fun attr => attr.key = key)).map Attribute.value

def requireKey (keys : List Attribute) (element key : String) : Except ReadError String :=
  match key? keys key with
  | some value => .ok value
  | none => .error (.missingAttribute element key)

/-- A key that is true or false, and false when it is absent. -/
def readFlag (keys : List Attribute) (element key : String) : Except ReadError Bool :=
  match key? keys key with
  | none => .ok false
  | some value =>
    if value = "true" then .ok true
    else if value = "false" then .ok false
    else .error (.invalidAttribute element key value)

def readEnding (element : String) : Ending → Except ReadError Unit
  | .closed => .ok ()
  | .unfinished => .error (.unfinished element)
  | .broken error => .error (.markup error)

def readLeaf (element : String) (children : List Element) (ending : Ending) : Except ReadError Unit :=
  match children with
  | [] => readEnding element ending
  | child :: _ => .error (.unknownElement child.name element)

def commaParts (s : String) : List String :=
  (Text.splitText ',' s).filter (fun part => Text.trim part ≠ "")

def readVisibility (value : String) : Except ReadError LifecycleSet :=
  ((commaParts value).mapM (fun part =>
    match Lifecycle.ofName? part with
    | some state => Except.ok state
    | none => .error (ReadError.invalidAttribute "property" "visibility" value))).map LifecycleSet.ofList

def readNumber (element key value : String) : Except ReadError String :=
  let trimmed := Text.trim value
  if Decimal.isFiniteLiteral trimmed.toList then .ok trimmed
  else .error (.invalidAttribute element key value)

/-- A number of sixteen bits, with an optional plus sign and blanks around it. -/
def readStatus? (value : String) : Option Nat :=
  let (_, digits) := Decimal.readSign ['+'] (Text.trim value).toList
  if digits.isEmpty || !digits.all Char.isDigit then none
  else if 65535 < Decimal.digitValue digits then none
  else some (Decimal.digitValue digits)

inductive FormElement where
  | reference
  | string
  | number
  | boolean
  | unsupported
  | indexed (kind : Indexed)
  | tuple
  | union
  | model
deriving DecidableEq, Repr

def FormElement.ofName? (name : String) : Option FormElement :=
  [("ref", .reference), ("variant", .reference), ("string", .string), ("number", .number),
    ("boolean", .boolean), ("opaque", .unsupported), ("array", .indexed .array),
    ("record", .indexed .record), ("tuple", .tuple), ("union", .union),
    ("model", .model)].lookup name

/-- The forms without children: a name, a literal or an unsupported kind. -/
def readLeafForm? (element : String) (keys : List Attribute) :
    FormElement → Option (Except ReadError Form)
  | .reference => some ((requireKey keys element "type").map .named)
  | .string => some ((requireKey keys element "value").map (fun value => .literal (.string value)))
  | .number =>
    some (do
      let number ← readNumber element "value" (← requireKey keys element "value")
      pure (.literal (.number number)))
  | .boolean =>
    some (do
      let value ← requireKey keys element "value"
      if value = "true" then pure (.literal (.boolean true))
      else if value = "false" then pure (.literal (.boolean false))
      else .error (.invalidAttribute element "value" value))
  | .unsupported => some ((requireKey keys element "kind").map .unsupported)
  | _ => none

def requireForm (element : String) : Option Form → Except ReadError Form
  | some form => .ok form
  | none => .error (.missingAttribute element "type")

mutual
def readForm : Element → Except ReadError Form
  | ⟨name, attributes, children, ending⟩ => do
    let keys ← readKeys attributes
    match FormElement.ofName? name with
    | none => .error (.unknownElement name "type")
    | some kind =>
      match readLeafForm? name keys kind, kind with
      | some leaf, _ => do
        let form ← leaf
        readLeaf name children ending
        pure form
      | none, .indexed indexed => do
        let element ←
          match key? keys "type" with
          | some type => do
            readLeaf name children ending
            pure (some (Form.named type))
          | none => do
            let found ← readSingle name none children
            readEnding name ending
            pure found
        (requireForm name element).map (.indexed indexed)
      | none, .tuple => do
        let elements ← readForms children
        readEnding name ending
        pure (.tuple elements)
      | none, .union => do
        let variants ← readForms children
        readEnding name ending
        pure (.union variants)
      | none, _ => do
        let properties ← readProperties name children
        readEnding name ending
        pure (.model properties)
termination_by structural element => element

def readForms : List Element → Except ReadError (List Form)
  | [] => .ok []
  | child :: rest => do
    let form ← readForm child
    let forms ← readForms rest
    pure (form :: forms)

def readSingle (element : String) (found : Option Form) : List Element → Except ReadError (Option Form)
  | [] => .ok found
  | child :: rest => do
    let form ← readForm child
    if found.isSome then .error (.malformed ("'" ++ element ++ "' takes exactly one type"))
    else readSingle element (some form) rest

def readProperties (element : String) : List Element → Except ReadError (List (Property Form))
  | [] => .ok []
  | child :: rest => do
    let property ← readProperty element child
    let properties ← readProperties element rest
    pure (property :: properties)

def readProperty (element : String) : Element → Except ReadError (Property Form)
  | ⟨childName, attributes, children, ending⟩ =>
    if childName = "property" then do
      let keys ← readKeys attributes
      let name ← requireKey keys "property" "name"
      let optional ← readFlag keys "property" "optional"
      let visibility ← (key? keys "visibility").mapM readVisibility
      let type ←
        match key? keys "type" with
        | some type => do
          readLeaf "property" children ending
          pure (some (Form.named type))
        | none => do
          let found ← readSingle "property" none children
          readEnding "property" ending
          pure found
      let type ← requireForm "property" type
      pure ⟨name, type, optional, visibility, key? keys "doc"⟩
    else .error (.unknownElement childName element)
end

/-- Reads the type of an element: a type name, or one child. -/
def readOptionalForm (keys : List Attribute) (element : Element) : Except ReadError (Option Form) :=
  match key? keys "type" with
  | some type => do
    readLeaf element.name element.children element.ending
    pure (some (.named type))
  | none => do
    let found ← readSingle element.name none element.children
    readEnding element.name element.ending
    pure found

def readMember (element : Element) : Except ReadError Member :=
  if element.name = "member" then do
    let keys ← readKeys element.attributes
    let name ← requireKey keys "member" "name"
    let value ←
      match key? keys "number" with
      | some number => (readNumber "member" "number" number).map (fun text => some (MemberValue.number text))
      | none => pure ((key? keys "value").map .string)
    readLeaf "member" element.children element.ending
    pure ⟨name, value, key? keys "doc"⟩
  else .error (.unknownElement element.name "enum")

def readBody (keys : List Attribute) (element : Element) : Except ReadError Body :=
  match element.name with
  | "model" => do
    let properties ← readProperties element.name element.children
    readEnding element.name element.ending
    pure (.model (key? keys "base") properties)
  | "enum" => do
    let members ← element.children.mapM readMember
    readEnding element.name element.ending
    pure (.enumeration members)
  | "union" => do
    let variants ← readForms element.children
    readEnding element.name element.ending
    pure (.union variants)
  | "scalar" => do
    readLeaf element.name element.children element.ending
    pure (.scalar (key? keys "base"))
  | name => .error (.unknownElement name "namespace")

def readDeclaration (scope : Scope) (element : Element) : Except ReadError Declaration := do
  let keys ← readKeys element.attributes
  let name ← requireKey keys element.name "name"
  let body ← readBody keys element
  pure ⟨name, scope, key? keys "doc", body⟩

/-- Reads one child of an operation: its request, of which there is at most one, or a response. -/
def readExchange (operation : Operation Form) (element : Element) : Except ReadError (Operation Form) := do
  let keys ← readKeys element.attributes
  match element.name with
  | "request" =>
    if operation.request.isSome then .error (.duplicate "request" operation.name)
    else do
      let request ← requireForm element.name (← readOptionalForm keys element)
      pure { operation with request := some request }
  | "response" => do
    let status ←
      match key? keys "status" with
      | some value =>
        match readStatus? value with
        | some status => pure (some status)
        | none => .error (.invalidAttribute "response" "status" value)
      | none => pure none
    let body ← readOptionalForm keys element
    pure { operation with responses := operation.responses ++ [⟨status, body⟩] }
  | name => .error (.unknownElement name "operation")

def readOperation (scope : Scope) (element : Element) : Except ReadError (Operation Form) := do
  let keys ← readKeys element.attributes
  let name ← requireKey keys "operation" "name"
  let verbName ← requireKey keys "operation" "verb"
  match Verb.ofName? verbName with
  | none => .error (.invalidAttribute "operation" "verb" verbName)
  | some verb => do
    let path ← requireKey keys "operation" "path"
    let bare : Operation Form := ⟨name, scope, path, verb, none, [], key? keys "doc"⟩
    let operation ← element.children.foldlM readExchange bare
    readEnding "operation" element.ending
    pure operation

/-- Namespaces write the segments of a path with dots between them. -/
def readScope (outer : Scope) (keys : List Attribute) : Except ReadError Scope :=
  (requireKey keys "namespace" "name").map (fun name => outer ++ Text.splitText '.' name)

mutual
/-- Reads one child of a namespace: an inner namespace, an operation or a declaration. -/
def readNamespaceItem (outer : Scope) : Element → Except ReadError Contents
  | ⟨name, attributes, children, ending⟩ =>
    if name = "namespace" then do
      let keys ← readKeys attributes
      let scope ← readScope outer keys
      let contents ← readNamespaceItems scope children
      readEnding "namespace" ending
      pure contents
    else if name = "operation" then do
      let operation ← readOperation outer ⟨name, attributes, children, ending⟩
      pure ⟨[], [operation]⟩
    else do
      let declaration ← readDeclaration outer ⟨name, attributes, children, ending⟩
      pure ⟨[declaration], []⟩
termination_by structural element => element

def readNamespaceItems (scope : Scope) : List Element → Except ReadError Contents
  | [] => .ok {}
  | child :: rest => do
    let first ← readNamespaceItem scope child
    let others ← readNamespaceItems scope rest
    pure (first ++ others)
termination_by structural children => children
end

def readSchemaItems : List Element → Except ReadError Contents
  | [] => .ok {}
  | child :: rest => do
    let first ←
      if child.name = "namespace" then readNamespaceItem [] child
      else .error (.unknownElement child.name "schema")
    let others ← readSchemaItems rest
    pure (first ++ others)

def readRoots (keys : List Attribute) : List String :=
  match key? keys "rootNamespaces" with
  | some value => (commaParts value).map Text.trim
  | none => []

def readSchema (element : Element) : Except ReadError Draft :=
  if element.name = "schema" then do
    let keys ← readKeys element.attributes
    let contents ← readSchemaItems element.children
    readEnding "schema" element.ending
    pure ⟨readRoots keys, contents⟩
  else .error (.unknownElement element.name "document")

/-- Reads a document; of several schema elements the last one counts. -/
def ofDocument (document : Document) : Except ReadError Draft := do
  let drafts ← document.elements.mapM readSchema
  match document.ending with
  | .broken error => .error (.markup error)
  | _ =>
    match drafts.getLast? with
    | some draft => pure draft
    | none => .error (.malformed "No schema element found")

end SchemaGuards.Draft

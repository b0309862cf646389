import SchemaGuards.Expansion.Basic
import SchemaGuards.Text.Comment
import SchemaGuards.Visibility
import SchemaGuards.Written.Reference

/-!
# Written types

An expansion is written as a type expression. The restrictions inside a model are collected on the
way up, through properties, bases, arrays and records, and stop at references, tuples and unions. The
outermost model that they reach is filtered by them, once.
-/
namespace SchemaGuards

def Primitive.text : Primitive → String
  | .boolean value => if value then "true" else "false"
  | .number text => text
  | .string value => Text.quote value
  | .intrinsic value => value.name

structure EnumItem where
  doc : Option String
  name : String
  initializer : Option String
deriving DecidableEq, Repr

inductive TypeExpr where
  /-- A literal or a keyword. -/
  | literal (value : Primitive)
  | terminal (type : Terminal)
  /-- A text that is written as it is: that of a mapped scalar, or the value of a member. -/
  | verbatim (text : String)
  /-- A declaration, with the lifecycle argument of a generic one. -/
  | reference (target : Reference) (argument : Option String)
  | member (owner : Reference) (name : String)
  /-- The body of an enumeration. -/
  | enumeration (items : List EnumItem)
  | indexed (kind : Indexed) (element : TypeExpr)
  | tuple (elements : List TypeExpr)
  | union (variants : List TypeExpr)
  /-- An object type, intersected with that of a base. -/
  | object (base : Option TypeExpr) (fields : List (Property TypeExpr))
  /-- A type without the properties that are not visible in a lifecycle. -/
  | filtered (shape : TypeExpr) (restrictions : VisibilityMap) (argument : String)

namespace Expansion

mutual
/-- The restrictions of what an expansion writes in place. -/
def restrictions : Expansion → VisibilityMap
  | .derived base => restrictions base
  | .indexed .array element => restrictions element
  | .indexed .record element => VisibilityMap.wildcard (restrictions element)
  | .model (some base) properties => restrictions base ++ propertyRestrictions properties
  | .model none properties => propertyRestrictions properties
  | _ => []
termination_by structural expansion => expansion

def propertyRestrictions : List (Property Expansion) → VisibilityMap
  | [] => []
  | ⟨name, type, _, visibility, _⟩ :: rest =>
    VisibilityMap.ofProperty name visibility (restrictions type) ++ propertyRestrictions rest
end

end Expansion

/-- How types are written: for which file, with which lifecycle argument, and whether with docs. -/
structure TypeStyle where
  target : Option Scope
  argument : String
  emitDocs : Bool
  nominalEnums : Bool

namespace TypeExpr

/-- Filters a type that is not inside a model. -/
def filter (style : TypeStyle) (inModel : Bool) (restrictions : VisibilityMap) (shape : TypeExpr) : TypeExpr :=
  if restrictions.isEmpty || inModel then shape else .filtered shape restrictions style.argument

def EnumItem.ofMember (style : TypeStyle) (member : Member) : EnumItem :=
  ⟨if style.emitDocs then member.doc else none, member.name, member.initializer? style.nominalEnums⟩

mutual
/-- The type that an expansion writes; inside a model its restrictions are left to the model. -/
def ofExpansion (style : TypeStyle) (inModel : Bool) : Expansion → TypeExpr
  | .reference entry generic =>
    .reference (Reference.ofEntry style.target entry) (if generic then some style.argument else none)
  | .primitive value => .literal value
  | .enumeration members => .enumeration (members.map (EnumItem.ofMember style))
  | .member (some owner) name _ => .member (Reference.ofEntry style.target owner) name
  | .member none _ written => .verbatim written
  | .mapped text => .verbatim text
  | .terminal type => .terminal type
  | .unresolved => .literal (.intrinsic .unknown)
  | .derived base => ofExpansion style false base
  | .indexed kind element =>
    filter style inModel (Expansion.indexed kind element).restrictions
      (.indexed kind (ofExpansion style true element))
  | .model (some base) properties =>
    filter style inModel (Expansion.model (some base) properties).restrictions
      (.object (some (ofExpansion style true base)) (fieldsOf style properties))
  | .model none properties =>
    filter style inModel (Expansion.model none properties).restrictions
      (.object none (fieldsOf style properties))
  | .tuple elements => .tuple (listOf style elements)
  | .union variants => .union (listOf style variants)
termination_by structural expansion => expansion

def fieldsOf (style : TypeStyle) : List (Property Expansion) → List (Property TypeExpr)
  | [] => []
  | ⟨name, type, optional, visibility, doc⟩ :: rest =>
    ⟨name, ofExpansion style true type, optional, visibility, if style.emitDocs then doc else none⟩ ::
      fieldsOf style rest

def listOf (style : TypeStyle) : List Expansion → List TypeExpr
  | [] => []
  | expansion :: rest => ofExpansion style false expansion :: listOf style rest
end

def docLayout (doc : Option String) : Layout :=
  match doc with
  | some doc => Layout.text (Text.docComment doc) ++ Layout.softLine " "
  | none => []

def EnumItem.layout (item : EnumItem) : Layout :=
  docLayout item.doc ++ Layout.text (Text.propertyKey item.name) ++
    match item.initializer with
    | some value => Layout.text (" = " ++ value)
    | none => []

mutual
/-- The text of a type. -/
def layout : TypeExpr → Layout
  | .literal value => Layout.text value.text
  | .terminal type => Layout.text type.typeName
  | .verbatim text => Layout.text text
  | .reference target argument =>
    match argument with
    | some argument => Layout.text (target.text ++ "<" ++ argument ++ ">")
    | none => Layout.text target.text
  | .member owner name => Layout.text (owner.memberText name)
  | .enumeration items => Layout.block (items.map EnumItem.layout)
  | .indexed .array element => Layout.wrapped "(" ")[]" (layout element)
  | .indexed .record element => Layout.wrapped "\x7b[key: string]: " "\x7d" (layout element)
  | .tuple elements => Layout.wrapped "[" "]" (Layout.separated ", " (layouts elements))
  | .union variants =>
    if variants.isEmpty then Layout.text "never" else Layout.separated " | " (layouts variants)
  | .object (some base) fields => layout base ++ Layout.text " & " ++ Layout.block (fieldLayouts fields)
  | .object none fields => Layout.block (fieldLayouts fields)
  | .filtered shape restrictions argument =>
    Layout.wrapped "FilterLifecycle<" ", " (layout shape) ++ VisibilityMap.layout restrictions ++
      Layout.text (", " ++ argument ++ ">")
termination_by structural type => type

def layouts : List TypeExpr → List Layout
  | [] => []
  | type :: rest => layout type :: layouts rest

def fieldLayouts : List (Property TypeExpr) → List Layout
  | [] => []
  | ⟨name, type, optional, _, doc⟩ :: rest =>
    (docLayout doc ++ Layout.text (Text.propertyKey name ++ (if optional then "?" else "") ++ ": ") ++
      layout type) :: fieldLayouts rest
end

mutual
def importedScopes : TypeExpr → List Scope
  | .reference target _ => target.imported.toList
  | .member owner _ => owner.imported.toList
  | .indexed _ element => importedScopes element
  | .tuple elements => listScopes elements
  | .union variants => listScopes variants
  | .object (some base) fields => importedScopes base ++ fieldScopes fields
  | .object none fields => fieldScopes fields
  | .filtered shape _ _ => importedScopes shape
  | _ => []
termination_by structural type => type

def listScopes : List TypeExpr → List Scope
  | [] => []
  | type :: rest => importedScopes type ++ listScopes rest

def fieldScopes : List (Property TypeExpr) → List Scope
  | [] => []
  | ⟨_, type, _, _, _⟩ :: rest => importedScopes type ++ fieldScopes rest
end

end TypeExpr
end SchemaGuards

import SchemaGuards.Text.Comment
import SchemaGuards.Text.Disjunction
import SchemaGuards.Written.TypeExpr

/-!
# Written guards

An expansion is written as a predicate over the value that an accessor reaches. A model's guard is a
conjunction of the guard of its base and of one clause for every property; a restricted property has
to be absent in the other phases. A part of a conjunction stands in parentheses when it would
otherwise fall apart.
-/
namespace SchemaGuards

inductive Accessor where
  | named (text : String)
  | property (owner : Accessor) (key : String)
  | position (owner : Accessor) (index : Nat)
  /-- The same value without its declared type. -/
  | untyped (owner : Accessor)
deriving DecidableEq, Repr

def Accessor.text : Accessor → String
  | .named text => text
  | .property owner key => Text.indexAccess owner.text key
  | .position owner index => owner.text ++ "[" ++ toString index ++ "]"
  | .untyped owner => "(" ++ owner.text ++ " as any)"

/-- The accessor of an element inside the test of all elements. -/
def Accessor.element : Indexed → Accessor
  | .array => .named "e"
  | .record => .position (.named "e") 1

inductive Guard where
  | constant (value : Bool)
  | isUndefined (value : Accessor)
  | equals (value : Accessor) (literal : Primitive)
  | hasType (value : Accessor) (type : Terminal)
  /-- The predicate that the configuration gives to a scalar. -/
  | custom (text : String)
  /-- The guard of a declaration, with the lifecycle when it is generic. -/
  | call (target : Reference) (value : Accessor) (generic : Bool)
  | every (kind : Indexed) (value : Accessor) (element : Guard)
  | tuple (value : Accessor) (elements : List Guard)
  | any (variants : List Guard)
  | all (clauses : List Guard)
  /-- An object does not have a property. -/
  | lacks (key : String) (owner : Accessor)
  /-- A property is absent and may be, or is present and passes. -/
  | present (optional : Bool) (value : Accessor) (content : Guard)
  /-- A property is absent in every other phase, and passes in the given ones. -/
  | restricted (states : LifecycleSet) (key : String) (owner : Accessor) (content : Guard)

namespace Guard

def ofPrimitive (value : Accessor) : Primitive → Guard
  | .intrinsic .unknown => .constant true
  | .intrinsic .never => .constant false
  | .intrinsic .void => .isUndefined value
  | literal => .equals value literal

def ofReference (target : Option Scope) (value : Accessor) (entry : Entry) (generic : Bool) : Guard :=
  if entry.identity.kind = .enumeration then .constant true
  else .call (Reference.ofEntry target entry) value generic

/-- Whether a property's type says by itself whether the property may be absent. -/
inductive Presence where
  /-- The property has to be absent. -/
  | forbidden
  /-- The type accepts an absent value. -/
  | free
  | tested

def Presence.ofExpansion : Expansion → Presence
  | .primitive (.intrinsic .never) => .forbidden
  | .primitive (.intrinsic .unknown) | .primitive (.intrinsic .void) => .free
  | _ => .tested

def clause (owner : Accessor) (name : String) (optional : Bool) (visibility : Option LifecycleSet)
    (presence : Presence) (content : Guard) : Guard :=
  let present :=
    match presence with
    | .forbidden => Guard.lacks name owner
    | .free => content
    | .tested => .present optional (.property owner name) content
  match visibility with
  | some states => .restricted states name owner present
  | none => present

mutual
/-- The guard that an expansion writes over a value. -/
def ofExpansion (target : Option Scope) (value : Accessor) : Expansion → Guard
  | .reference entry generic => ofReference target value entry generic
  | .primitive literal => ofPrimitive value literal
  | .enumeration _ => .constant true
  | .member .. => .constant true
  | .mapped text => .custom (Text.fillTemplate text value.text)
  | .terminal type => .hasType value type
  | .unresolved => .constant true
  | .derived base => ofExpansion target value base
  | .indexed kind element => .every kind value (ofExpansion target (Accessor.element kind) element)
  | .model (some base) properties =>
    .all (ofExpansion target value base :: clausesOf target (.untyped value) properties)
  | .model none properties => .all (clausesOf target value properties)
  | .tuple elements => .tuple value (positionsOf target value 0 elements)
  | .union variants => .any (variantsOf target value variants)
termination_by structural expansion => expansion

def clausesOf (target : Option Scope) (owner : Accessor) : List (Property Expansion) → List Guard
  | [] => []
  | ⟨name, type, optional, visibility, _⟩ :: rest =>
    clause owner name optional visibility (Presence.ofExpansion type)
      (ofExpansion target (.property owner name) type) :: clausesOf target owner rest

def positionsOf (target : Option Scope) (value : Accessor) (index : Nat) : List Expansion → List Guard
  | [] => []
  | element :: rest =>
    ofExpansion target (.position value index) element :: positionsOf target value (index + 1) rest

def variantsOf (target : Option Scope) (value : Accessor) : List Expansion → List Guard
  | [] => []
  | variant :: rest => ofExpansion target value variant :: variantsOf target value rest
end

def typeTest (value : Accessor) (type : Terminal) : String :=
  if type.isObject then value.text ++ " instanceof " ++ type.typeName
  else "typeof " ++ value.text ++ " === '" ++ type.typeName ++ "'"

def everyLead (value : Accessor) : Indexed → String
  | .array => "Array.isArray(" ++ value.text ++ ") && " ++ value.text ++ ".every((e) => "
  | .record =>
    "typeof " ++ value.text ++ " === 'object' && " ++ value.text ++ " !== null && Object.entries(" ++
      value.text ++ " as Record<string, any>).every((e) => "

/-- Clauses joined into a conjunction that each of them survives. -/
def conjunction : List Layout → Layout
  | [] => Layout.text "true"
  | [clause] => clause
  | clauses =>
    Layout.join " &&" " " (clauses.map (fun clause =>
      if Text.hasTopLevelOr (Layout.flat clause) then Layout.wrapped "(" ")" clause else clause))

mutual
/-- The text of a guard. -/
def layout : Guard → Layout
  | .constant value => Layout.text (if value then "true" else "false")
  | .isUndefined value => Layout.text (value.text ++ " === undefined")
  | .equals value literal => Layout.text (value.text ++ " === " ++ literal.text)
  | .hasType value type => Layout.text (typeTest value type)
  | .custom text => Layout.text text
  | .call target value generic =>
    Layout.text (target.guardName ++ "(" ++ value.text ++ (if generic then ", vis" else "") ++ ")")
  | .every kind value element => Layout.text (everyLead value kind) ++ layout element ++ Layout.text ")"
  | .tuple value elements =>
    Layout.text ("Array.isArray(" ++ value.text ++ ") && " ++ value.text ++ ".length === " ++
      toString elements.length) ++ (layouts elements).flatMap (Layout.wrapped " && (" ")")
  | .any variants =>
    if variants.isEmpty then Layout.text "false"
    else Layout.join " ||" " " ((layouts variants).map (Layout.wrapped "(" ")"))
  | .all clauses => conjunction (layouts clauses)
  | .lacks key owner => Layout.text ("!(" ++ Text.quote key ++ " in " ++ owner.text ++ ")")
  | .present optional value content =>
    Layout.wrapped (value.text ++ if optional then " === undefined || (" else " !== undefined && (") ")"
      (layout content)
  | .restricted states key owner content =>
    Layout.wrapped ("((vis as any) !== Lifecycle.All && ![" ++ states.references ++
      "].includes(vis) ? !(" ++ Text.quote key ++ " in " ++ owner.text ++ ") : (") "))" (layout content)
termination_by structural guard => guard

def layouts : List Guard → List Layout
  | [] => []
  | guard :: rest => layout guard :: layouts rest
end

mutual
def importedScopes : Guard → List Scope
  | .call target _ _ => target.imported.toList
  | .every _ _ element => importedScopes element
  | .tuple _ elements => listScopes elements
  | .any variants => listScopes variants
  | .all clauses => listScopes clauses
  | .present _ _ content => importedScopes content
  | .restricted _ _ _ content => importedScopes content
  | _ => []
termination_by structural guard => guard

def listScopes : List Guard → List Scope
  | [] => []
  | guard :: rest => importedScopes guard ++ listScopes rest
end

end Guard
end SchemaGuards

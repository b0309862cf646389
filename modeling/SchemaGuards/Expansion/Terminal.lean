import SchemaGuards.Schema.Node

/-!
# Built-in scalars

A built-in scalar is written as one of five types. Calendar and byte scalars have their own types,
whatever they extend, unless they are written as they are transported.
-/
namespace SchemaGuards

inductive Terminal where
  | boolean
  | number
  | string
  | date
  | bytes
deriving DecidableEq, Repr

namespace Terminal

def typeName : Terminal → String
  | .boolean => "boolean"
  | .number => "number"
  | .string => "string"
  | .date => "Date"
  | .bytes => "Uint8Array"

/-- Dates and bytes are objects, tested by their constructor. -/
def isObject : Terminal → Bool
  | .date | .bytes => true
  | _ => false

def calendarNames : List String := ["offsetDateTime", "plainDate", "utcDateTime", "unixTimestamp32"]

def isCalendarOrBytes (name : String) : Bool := name ∈ calendarNames || name = "bytes"

def ofName? (serializable : Bool) (name : String) : Option Terminal :=
  if name ∈ calendarNames then
    some (if !serializable then .date else if name = "unixTimestamp32" then .number else .string)
  else if name = "bytes" then some (if serializable then .string else .bytes)
  else
    [("boolean", .boolean), ("duration", .number), ("numeric", .number), ("plainTime", .string),
      ("string", .string), ("url", .string)].lookup name

end Terminal

def Scalar.isBuiltin (scalar : Scalar) : Bool := scalar.decl.scope = builtinScope

def Scalar.shownName (scalar : Scalar) : String := scalar.decl.name.getD ""

/-- The scalar that decides how this one is written, if it is not this one itself. -/
def Scalar.deferredTo? (scalar : Scalar) : Option NodeId :=
  if scalar.isBuiltin && Terminal.isCalendarOrBytes scalar.shownName then none else scalar.base

/-- The written type of a scalar that no other one decides on. -/
def Scalar.terminal? (serializable : Bool) (scalar : Scalar) : Option Terminal :=
  if scalar.isBuiltin then Terminal.ofName? serializable scalar.shownName else none

end SchemaGuards

import SchemaGuards.Expansion.Terminal
import SchemaGuards.Decimal.Binary64
import SchemaGuards.Visibility

/-!
# Script values

The values that guards are run on, in the state in which a run finds them. Objects are places, so that
an object may hold itself; what a place holds is given by a realm. Reading a property of null or of
undefined throws, and so does asking a value that is no object whether it has a property.
-/
namespace SchemaGuards.Script

def codeUnits (s : String) : List UInt16 :=
  s.toList.flatMap (fun c =>
    if c.toNat < 0x10000 then [c.toNat.toUInt16]
    else
      let rest := c.toNat - 0x10000
      [(0xD800 + rest / 0x400).toUInt16, (0xDC00 + rest % 0x400).toUInt16])

inductive Value (Object : Type) where
  | undefined
  | null
  | boolean (value : Bool)
  | number (value : Decimal.Binary64)
  /-- A text, which need not be well-formed. -/
  | string (units : List UInt16)
  | bigint (value : Int)
  | symbol (identity : Nat)
  | object (place : Object)
deriving DecidableEq, Repr

/-- What objects hold, and what written texts stand for that only the configuration or the body of an
enumeration decides on. -/
structure Realm (Object : Type) where
  /-- The length of an array; other objects have none. -/
  length? : Object → Option Nat
  isFunction : Object → Bool
  /-- Whether an object is an instance of the class of a built-in type. -/
  isInstance : Object → Terminal → Bool
  /-- A property of an object, its own or an inherited one. -/
  property? : Object → String → Option (Value Object)
  /-- The enumerable properties of an object itself. -/
  entries : Object → List (List UInt16 × Value Object)
  /-- A property that a value inherits that is neither an object nor null nor undefined. -/
  inherited? : Value Object → String → Option (Value Object)
  /-- The values of a type that is written as a text of its own. -/
  denotes : String → Value Object → Prop

/-- What running a guard comes to. -/
inductive Outcome where
  | returns (answer : Bool)
  | throws
  /-- Not known: calls go deeper than they are followed, or a text of the configuration decides. -/
  | unknown
deriving DecidableEq, Repr

namespace Outcome

/-- A conjunction only goes on behind a part that holds. -/
def and : Outcome → Outcome → Outcome
  | returns true, second => second
  | first, _ => first

/-- A disjunction only goes on behind a part that does not hold. -/
def or : Outcome → Outcome → Outcome
  | returns false, second => second
  | first, _ => first

def every {α : Type} (values : List α) (test : α → Outcome) : Outcome :=
  values.foldr (fun value rest => (test value).and rest) (returns true)

theorem and_eq_true {first second : Outcome} :
    first.and second = returns true ↔ first = returns true ∧ second = returns true := by
  cases first with
  | returns answer => cases answer <;> simp [and]
  | throws => simp [and]
  | unknown => simp [and]

theorem or_eq_true {first second : Outcome} :
    first.or second = returns true ↔ first = returns true ∨ first = returns false ∧ second = returns true := by
  cases first with
  | returns answer => cases answer <;> simp [or]
  | throws => simp [or]
  | unknown => simp [or]

theorem every_eq_true {α : Type} {values : List α} {test : α → Outcome} :
    every values test = returns true ↔ ∀ value ∈ values, test value = returns true := by
  induction values with
  | nil => simp [every]
  | cons value rest ih => simpa [every, and_eq_true] using fun _ => ih

end Outcome

namespace Value
variable {Object : Type}

def isUndefined : Value Object → Bool
  | undefined => true
  | _ => false

/-- Null and undefined have no properties. -/
def isNullish : Value Object → Bool
  | undefined | null => true
  | _ => false

def isObject : Value Object → Bool
  | object _ => true
  | _ => false

/-- Strict equality with a literal. Zeros are equal whatever their signs, and nothing equals what is no
number. -/
def equals : Value Object → Primitive → Bool
  | boolean value, .boolean literal => value = literal
  | number value, .number text =>
    match Decimal.Binary64.ofText? text, value with
    | some (.finite _ 0 _), .finite _ 0 _ => true
    | some (.finite negative significand exponent), value => value = .finite negative significand exponent
    | some (.infinite negative), value => value = .infinite negative
    | _, _ => false
  | string units, .string literal => units = codeUnits literal
  | null, .intrinsic .null => true
  | _, _ => false

def isOf (value : Value Object) : Primitive → Bool
  | .intrinsic .unknown => true
  | .intrinsic .never => false
  | .intrinsic .void => value.isUndefined
  | literal => value.equals literal

end Value

namespace Realm
variable {Object : Type} (realm : Realm Object)

def lookup? : Value Object → String → Option (Value Object)
  | .object place, key => realm.property? place key
  | .undefined, _ | .null, _ => none
  | value, key => realm.inherited? value key

def get (value : Value Object) (key : String) : Value Object := (realm.lookup? value key).getD .undefined

/-- Reads a property; nothing is read where reading throws. -/
def get? (value : Value Object) (key : String) : Option (Value Object) :=
  if value.isNullish then none else some (realm.get value key)

def lacks (value : Value Object) (key : String) : Outcome :=
  if value.isObject then .returns (realm.lookup? value key).isNone else .throws

def arrayLength? : Value Object → Option Nat
  | .object place => realm.length? place
  | _ => none

/-- The elements of an array, without the positions that it leaves out. -/
def elements (value : Value Object) : List (Value Object) :=
  (List.range ((realm.arrayLength? value).getD 0)).filterMap (fun index =>
    realm.lookup? value (toString index))

/-- The entries of a value that is an object but no function. -/
def entries? : Value Object → Option (List (List UInt16 × Value Object))
  | .object place => if realm.isFunction place then none else some (realm.entries place)
  | _ => none

def hasType (value : Value Object) (type : Terminal) : Bool :=
  match value, type with
  | .boolean _, .boolean | .number _, .number | .string _, .string => true
  | .object place, type => type.isObject && realm.isInstance place type
  | _, _ => false

theorem get?_eq_some {value : Value Object} (h : value.isNullish = false) (key : String) :
    realm.get? value key = some (realm.get value key) := by
  simp [get?, h]

theorem isNullish_of_arrayLength? {value : Value Object} {length : Nat}
    (h : realm.arrayLength? value = some length) : value.isNullish = false := by
  cases value with
  | object place => rfl
  | _ => cases h

theorem lacks_eq_true {value : Value Object} {key : String} :
    realm.lacks value key = .returns true ↔ value.isObject = true ∧ realm.lookup? value key = none := by
  rw [lacks]
  split
  · next h => simp [h]
  · next h => simp [h]

end Realm
end SchemaGuards.Script

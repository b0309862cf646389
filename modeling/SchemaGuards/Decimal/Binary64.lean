import SchemaGuards.Decimal.Literal

/-!
# Double-precision numbers

A finite double is a sign, a significand below 2^53 and an exponent of two from -1074 to 971; the
significand has 53 bits unless the exponent is the least. Quotients round to the nearest double, a
tie to the even significand, and magnitudes too large for the range become infinite. The arithmetic
is exact until that one rounding.
-/
namespace SchemaGuards.Decimal

inductive Binary64 where
  /-- No number. -/
  | nan
  | infinite (negative : Bool)
  /-- The significand times two to the exponent, with a sign. -/
  | finite (negative : Bool) (significand : Nat) (exponent : Int)
deriving DecidableEq, Repr

/-- A power as a factor above a fraction bar and one below it. -/
def ratioPower (base : Nat) (exponent : Int) : Nat × Nat :=
  if exponent < 0 then (1, Nat.pow base (-exponent).toNat) else (Nat.pow base exponent.toNat, 1)

/-- The quotient's nearest whole number; the even one of two equally near. -/
def roundQuotient (numerator denominator : Nat) : Nat :=
  let q := numerator / denominator
  let r := numerator % denominator
  if 2 * r < denominator then q
  else if 2 * r = denominator then q + q % 2
  else q + 1

def floorLog2 (numerator denominator : Nat) : Int :=
  let estimate : Int := (Nat.log2 numerator : Int) - Nat.log2 denominator
  let (up, down) := ratioPower 2 estimate
  if numerator * down < denominator * up then estimate - 1 else estimate

namespace Binary64

def minExponent : Int := -1074

def maxExponent : Int := 971

/-- The least significand of 53 bits. -/
def leastNormal : Nat := Nat.pow 2 52

def isFinite : Binary64 → Bool
  | .finite .. => true
  | _ => false

/-- The double nearest to a signed quotient. -/
def ofQuotient (negative : Bool) (numerator denominator : Nat) : Binary64 :=
  if numerator = 0 then .finite negative 0 minExponent
  else
    let exponent := max (floorLog2 numerator denominator - 52) minExponent
    let (up, down) := ratioPower 2 exponent
    let significand := roundQuotient (numerator * down) (denominator * up)
    let (significand, exponent) :=
      if significand = 2 * leastNormal then (leastNormal, exponent + 1) else (significand, exponent)
    if maxExponent < exponent then .infinite negative else .finite negative significand exponent

/-- Above this power of ten every number is infinite, and below the negative one every number is
zero; exponents beyond them need no arithmetic. -/
def decimalRange : Int := 400

def ofLiteral (literal : Literal) : Binary64 :=
  let significant := literal.whole ++ literal.fraction
  let value := digitValue significant
  let exponent := literal.exponent - literal.fraction.length
  let magnitude : Int := (toString value).length + exponent
  if value = 0 || magnitude < -decimalRange then .finite literal.negative 0 minExponent
  else if decimalRange < magnitude then .infinite literal.negative
  else
    let (up, down) := ratioPower 10 exponent
    ofQuotient literal.negative (value * up) down

/-- The double that a text of the loose grammar writes. -/
def ofText? (s : String) : Option Binary64 :=
  match readLoose? s.toList with
  | some literal => some (ofLiteral literal)
  | none =>
    let (negative, name) := readSign ['+', '-'] s.toList
    match String.ofList (name.map Char.toLower) with
    | "inf" | "infinity" => some (.infinite negative)
    | "nan" => some .nan
    | _ => none

def addOne : Binary64 → Binary64
  | .nan => .nan
  | .infinite negative => .infinite negative
  | .finite negative significand exponent =>
    let (up, down) := ratioPower 2 exponent
    let magnitude : Int := significand * up
    let sum := (if negative then -magnitude else magnitude) + down
    ofQuotient (sum < 0) sum.natAbs down

end Binary64

def isFiniteLiteral (cs : List Char) : Bool :=
  match readStrict? cs with
  | some literal => (Binary64.ofLiteral literal).isFinite
  | none => false

end SchemaGuards.Decimal

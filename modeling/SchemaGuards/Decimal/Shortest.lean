import SchemaGuards.Decimal.Binary64

/-!
# The shortest text of a double

Among the decimals with the fewest digits that lie in the interval of numbers that round to a double,
its text is the nearest; of two equally near, the greater. The text is positional and has no exponent.
-/
namespace SchemaGuards.Decimal

/-- A number of tenths, hundredths and so on: a whole number times a power of ten. -/
structure Scaled where
  coefficient : Nat
  exponent : Int
deriving DecidableEq, Repr

/-- Compares a scaled decimal with a number of quarters of a double's last place. -/
def compareQuarters (x : Scaled) (quarters : Nat) (exponent : Int) : Ordering :=
  let (up, down) := ratioPower 10 x.exponent
  let (scaleUp, scaleDown) := ratioPower 2 (exponent - 2)
  compare (x.coefficient * up * scaleDown) (quarters * scaleUp * down)

/-- Whether a decimal rounds to the positive double with this significand and exponent. -/
def roundsTo (significand : Nat) (exponent : Int) (x : Scaled) : Bool :=
  let gapBelow := if significand = Binary64.leastNormal && exponent != Binary64.minExponent then 1 else 2
  let below := compareQuarters x (4 * significand - gapBelow) exponent
  let above := compareQuarters x (4 * significand + 2) exponent
  if significand % 2 = 0 then below.isGE && above.isLE else below.isGT && above.isLT

/-- The least power of ten above a positive quotient. -/
def decimalPlaces (numerator denominator : Nat) : Int :=
  let whole := numerator / denominator
  if whole = 0 then
    let inverse := (denominator + numerator - 1) / numerator - 1
    1 - ((toString inverse).length : Int)
  else (toString whole).length

/-- The nearer of the two decimals with a given unit around a quotient that rounds to the double. -/
def nearestOnGrid? (significand : Nat) (exponent unit : Int) : Option Scaled :=
  let (up, down) := ratioPower 2 exponent
  let (unitUp, unitDown) := ratioPower 10 unit
  let numerator := significand * up * unitDown
  let denominator := down * unitUp
  let lower := numerator / denominator
  let remainder := numerator % denominator
  let candidates : List Scaled :=
    if 2 * remainder < denominator then [⟨lower, unit⟩, ⟨lower + 1, unit⟩]
    else [⟨lower + 1, unit⟩, ⟨lower, unit⟩]
  candidates.find? (roundsTo significand exponent)

/-- The fewest digits that read back as a positive double; seventeen always suffice. -/
def shortest (significand : Nat) (exponent : Int) : Scaled :=
  let (up, down) := ratioPower 2 exponent
  let places := decimalPlaces (significand * up) down
  ((List.range 17).findSome? (fun n : Nat => nearestOnGrid? significand exponent (places - 1 - n))).getD
    ⟨significand, 0⟩

def dropTrailingZeros (cs : List Char) : List Char := (cs.reverse.dropWhile (· == '0')).reverse

def positional (x : Scaled) : String :=
  let written := (toString x.coefficient).toList
  if 0 ≤ x.exponent then String.ofList (written ++ List.replicate x.exponent.toNat '0')
  else
    let places := (-x.exponent).toNat
    let padded := List.replicate (places + 1 - written.length) '0' ++ written
    let whole := padded.take (padded.length - places)
    let fraction := dropTrailingZeros (padded.drop (padded.length - places))
    String.ofList (if fraction.isEmpty then whole else whole ++ '.' :: fraction)

namespace Binary64

/-- Whole numbers below this bound are written as integers, so that zero has no sign. -/
def integerBound : Nat := Nat.pow 10 15

def smallInteger? : Binary64 → Option Int
  | .finite negative significand exponent =>
    let (up, down) := ratioPower 2 exponent
    let numerator := significand * up
    if numerator % down = 0 && numerator / down < integerBound then
      some (if negative then -(numerator / down : Nat) else (numerator / down : Nat))
    else none
  | _ => none

def text : Binary64 → String
  | .nan => "NaN"
  | .infinite negative => if negative then "-inf" else "inf"
  | .finite negative significand exponent =>
    match smallInteger? (.finite negative significand exponent) with
    | some n => toString n
    | none => (if negative then "-" else "") ++ positional (shortest significand exponent)

end Binary64
end SchemaGuards.Decimal

/-!
# Decimal literals

A literal is an optional minus sign, digits, an optional point with digits, and an optional exponent
with an optional sign; each group holds at least one ASCII digit. A looser spelling, read only when
a value is needed, also has a plus sign, lets one side of the point be empty and names the infinities
and the value that is no number.
-/
namespace SchemaGuards.Decimal

structure Literal where
  negative : Bool
  whole : List Char
  fraction : List Char
  exponent : Int
deriving DecidableEq, Repr

def digits (cs : List Char) : List Char := cs.takeWhile Char.isDigit

def afterDigits (cs : List Char) : List Char := cs.dropWhile Char.isDigit

def digitValue (cs : List Char) : Nat := cs.foldl (fun n c => 10 * n + (c.toNat - '0'.toNat)) 0

def readSign (accepted : List Char) : List Char → Bool × List Char
  | c :: rest => if c ∈ accepted then (c == '-', rest) else (false, c :: rest)
  | [] => (false, [])

/-- The exponent that ends a literal; zero when there is none, nothing when the rest is no exponent. -/
def readExponent? : List Char → Option Int
  | [] => some 0
  | mark :: rest =>
    if mark = 'e' || mark = 'E' then
      let (negative, body) := readSign ['+', '-'] rest
      if (digits body).isEmpty || !(afterDigits body).isEmpty then none
      else some (if negative then -(digitValue body : Int) else digitValue body)
    else none

/-- The digits before the point, those after it if there is a point, and the rest. -/
def readMantissa (cs : List Char) : List Char × Option (List Char) × List Char :=
  match afterDigits cs with
  | '.' :: rest => (digits cs, some (digits rest), afterDigits rest)
  | rest => (digits cs, none, rest)

/-- Reads the strict grammar: digits on both sides of a point, no plus sign in front. -/
def readStrict? (cs : List Char) : Option Literal :=
  let (negative, body) := readSign ['-'] cs
  let (whole, fraction, rest) := readMantissa body
  if whole.isEmpty || fraction = some [] then none
  else (readExponent? rest).map (fun exponent => ⟨negative, whole, fraction.getD [], exponent⟩)

def isLiteral (cs : List Char) : Bool := (readStrict? cs).isSome

/-- Reads the loose grammar: a digit on one side of the point is enough. -/
def readLoose? (cs : List Char) : Option Literal :=
  let (negative, body) := readSign ['+', '-'] cs
  let (whole, fraction, rest) := readMantissa body
  if whole.isEmpty && (fraction.getD []).isEmpty then none
  else (readExponent? rest).map (fun exponent => ⟨negative, whole, fraction.getD [], exponent⟩)

end SchemaGuards.Decimal

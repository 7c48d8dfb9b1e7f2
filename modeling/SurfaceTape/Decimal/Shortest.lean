import SurfaceTape.Decimal.Fixed

/-!
# Shortest decimal text

The fewest digits that read back as the same number. The numbers that round to a given
floating-point number form an interval around it. Of the grids of multiples of a power of ten, the
coarsest one with a point in that interval gives the fewest digits. Of two such points the nearer
one is taken, and of two equally near ones the larger.
-/

set_option autoImplicit false

namespace SurfaceTape.Decimal

/-- The numbers that round to a value, and the value itself, all as multiples of one unit. -/
structure RoundingInterval where
  low : Nat
  value : Nat
  high : Nat
  unit : Nat
  closed : Bool

namespace RoundingInterval

/-- The interval of a finite number that is not zero. It reaches half way to either neighbour; the
neighbour below a power of two is at half the distance, unless it is as near to zero as the
exponent allows. The ends belong to the interval when the mantissa is even. -/
def around (f : BinaryFormat) (mantissa : Nat) (exponent : Int) : RoundingInterval :=
  let scale := Nat.pow 2 exponent.toNat
  let below := if mantissa = Nat.pow 2 f.fractionBits ∧ f.leastExponent < exponent then 1 else 2
  { low := (4 * mantissa - below) * scale
    value := 4 * mantissa * scale
    high := (4 * mantissa + 2) * scale
    unit := 4 * Nat.pow 2 (-exponent).toNat
    closed := mantissa % 2 == 0 }

def rescale (i : RoundingInterval) (power : Int) : RoundingInterval :=
  let up := Nat.pow 10 (-power).toNat
  { i with
    low := i.low * up
    value := i.value * up
    high := i.high * up
    unit := i.unit * Nat.pow 10 power.toNat }

def contains (i : RoundingInterval) (count : Nat) : Bool :=
  let point := count * i.unit
  if i.closed then i.low ≤ point && point ≤ i.high else i.low < point && point < i.high

/-- The multiple of the unit in the interval that is nearest to the value. -/
def nearest? (i : RoundingInterval) : Option Nat :=
  let lower := i.value / i.unit
  let upper := lower + 1
  match decide (0 < lower) && i.contains lower, i.contains upper with
  | true, true =>
      some (if upper * i.unit - i.value ≤ i.value - lower * i.unit then upper else lower)
  | true, false => some lower
  | false, true => some upper
  | false, false => none

/-- The first hit among the grids with the given power of ten and the next finer ones. -/
def search (i : RoundingInterval) : Nat → Int → Option (Nat × Int)
  | 0, _ => none
  | grids + 1, power =>
      match (i.rescale power).nearest? with
      | some count => some (count, power)
      | none => search i grids (power - 1)

end RoundingInterval

/-- The shortest digits of a positive number and the power of ten of the last of them. The search
starts above the number and ends at a grid that is finer than the interval is wide. -/
def shortestDigits (f : BinaryFormat) (mantissa : Nat) (exponent : Int) : Nat × Int :=
  let i := RoundingInterval.around f mantissa exponent
  let top := (Nat.toDigits 10 (i.value / i.unit)).length
  (i.search (top + 1 + (-exponent).toNat) top).getD (0, 0)

def positionalText (digits : Nat) (power : Int) : String :=
  if 0 ≤ power then toString digits ++ String.ofList (List.replicate power.toNat '0')
  else placed (-power).toNat digits

/-- The number in its shortest form. An integer is written without a point. -/
def shortest (f : BinaryFormat) : Dyadic → String
  | .nan => "NaN"
  | .infinite negative => signText negative ++ "inf"
  | .finite negative 0 _ => signText negative ++ "0"
  | .finite negative mantissa exponent =>
      let (digits, power) := shortestDigits f mantissa exponent
      signText negative ++ positionalText digits power

def shortest32 (x : Float32) : String := shortest .binary32 (.ofBinary32 x)

end SurfaceTape.Decimal

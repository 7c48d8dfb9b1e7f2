/-!
# Decimal literals

How a number may be written, and the floating-point number that a literal denotes. A literal is
exact: an integer times a power of ten. It is rounded once, to the width that is asked for.

The sign of a NaN is read and dropped: each width has one NaN, and `-nan` denotes it as `nan` does.
-/

set_option autoImplicit false

namespace SurfaceTape.Decimal

/-- A number as it is written. A finite literal is `digits` times ten to the power `exponent`. -/
inductive Literal where
  | nan
  | infinite (negative : Bool)
  | finite (negative : Bool) (digits : Nat) (exponent : Int)
  deriving DecidableEq

def digitsValue (digits : List Char) : Nat :=
  digits.foldl (fun value c => 10 * value + (c.toNat - '0'.toNat)) 0

/-- A number that is written with digits only, at least one of them. -/
def digits? (cs : List Char) : Option Nat :=
  if cs ≠ [] ∧ cs.all Char.isDigit then some (digitsValue cs) else none

def signedDigits? : List Char → Option Int
  | '+' :: cs => (digits? cs).map Int.ofNat
  | '-' :: cs => (digits? cs).map fun n => -Int.ofNat n
  | cs => (digits? cs).map Int.ofNat

/-- What may follow the digits of a number: nothing, or a mark and an exponent. -/
def exponent? : List Char → Option Int
  | [] => some 0
  | c :: cs => if c = 'e' ∨ c = 'E' then signedDigits? cs else none

/-- Digits with an optional point among or beside them, and an optional exponent. -/
def positional? (negative : Bool) (cs : List Char) : Option Literal :=
  let whole := cs.takeWhile Char.isDigit
  let rest := cs.dropWhile Char.isDigit
  let (fraction, rest) := match rest with
    | '.' :: cs => (cs.takeWhile Char.isDigit, cs.dropWhile Char.isDigit)
    | _ => ([], rest)
  if whole.isEmpty && fraction.isEmpty then none
  else (exponent? rest).map fun exponent =>
    .finite negative (digitsValue (whole ++ fraction)) (exponent - fraction.length)

/-- A literal after its sign. The words are read in any mixture of upper and lower case. -/
def unsigned? (negative : Bool) (cs : List Char) : Option Literal :=
  let lower := cs.map Char.toLower
  if lower = "nan".toList then some .nan
  else if lower = "inf".toList ∨ lower = "infinity".toList then some (.infinite negative)
  else positional? negative cs

def literal? : List Char → Option Literal
  | '+' :: cs => unsigned? false cs
  | '-' :: cs => unsigned? true cs
  | cs => unsigned? false cs

namespace Literal

/-- The nearest binary64 number, ties to even. -/
def toBinary64 : Literal → Float
  | .nan => Float.ofBits 0x7ff8000000000000
  | .infinite negative => Float.ofBits (if negative then 0xfff0000000000000 else 0x7ff0000000000000)
  | .finite negative digits exponent =>
      let magnitude := Float.ofScientific digits (exponent < 0) exponent.natAbs
      if negative then -magnitude else magnitude

def toBinary32 : Literal → Float32
  | .nan => Float32.ofBits 0x7fc00000
  | .infinite negative => Float32.ofBits (if negative then 0xff800000 else 0x7f800000)
  | .finite negative digits exponent =>
      let magnitude := Float32.ofScientific digits (exponent < 0) exponent.natAbs
      if negative then -magnitude else magnitude

end Literal

def binary64? (cs : List Char) : Option Float := (literal? cs).map Literal.toBinary64

def binary32? (cs : List Char) : Option Float32 := (literal? cs).map Literal.toBinary32

end SurfaceTape.Decimal

/-!
# The exact value of a floating-point number

A finite floating-point number is an integer times a power of two. Printing starts from that exact
value, in integer arithmetic.
-/

set_option autoImplicit false

namespace SurfaceTape.Decimal

structure BinaryFormat where
  fractionBits : Nat
  exponentBits : Nat

namespace BinaryFormat

def binary64 : BinaryFormat := ⟨52, 11⟩

def binary32 : BinaryFormat := ⟨23, 8⟩

/-- The exponent of the smallest positive number. -/
def leastExponent (f : BinaryFormat) : Int := 2 - Nat.pow 2 (f.exponentBits - 1) - f.fractionBits

end BinaryFormat

/-- What a floating-point number stands for. A finite number is `mantissa` times two to the power
`exponent`; zero keeps its sign. -/
inductive Dyadic where
  | nan
  | infinite (negative : Bool)
  | finite (negative : Bool) (mantissa : Nat) (exponent : Int)
  deriving DecidableEq

namespace Dyadic

def ofBits (f : BinaryFormat) (bits : Nat) : Dyadic :=
  let fraction := bits % Nat.pow 2 f.fractionBits
  let field := bits / Nat.pow 2 f.fractionBits % Nat.pow 2 f.exponentBits
  let negative := bits / Nat.pow 2 (f.fractionBits + f.exponentBits) % 2 == 1
  if field + 1 = Nat.pow 2 f.exponentBits then
    if fraction = 0 then .infinite negative else .nan
  else if field = 0 then .finite negative fraction f.leastExponent
  else .finite negative (Nat.pow 2 f.fractionBits + fraction) (f.leastExponent + field - 1)

def ofBinary64 (x : Float) : Dyadic := ofBits .binary64 x.toBits.toNat

def ofBinary32 (x : Float32) : Dyadic := ofBits .binary32 x.toBits.toNat

end Dyadic

end SurfaceTape.Decimal

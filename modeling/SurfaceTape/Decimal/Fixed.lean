import SurfaceTape.Decimal.Dyadic

/-!
# Numbers with a fixed number of decimal places

The exact value is rounded to the given number of places and written without an exponent, however
large it is. A tie goes to the even neighbour, and the sign of a number that rounds to zero stays.
-/

set_option autoImplicit false

namespace SurfaceTape.Decimal

/-- The integer nearest to a quotient; a tie goes to the even one. -/
def roundDiv (numerator denominator : Nat) : Nat :=
  let quotient := numerator / denominator
  let rest := numerator % denominator
  if 2 * rest < denominator then quotient
  else if denominator < 2 * rest then quotient + 1
  else quotient + quotient % 2

/-- An integer count of the last place as decimal text. At least one digit stands before the
point. -/
def placed (places count : Nat) : String :=
  let digits := (Nat.toDigits 10 count).leftpad (places + 1) '0'
  let whole := digits.length - places
  String.ofList (digits.take whole ++ '.' :: digits.drop whole)

def signText (negative : Bool) : String := if negative then "-" else ""

def fixed (places : Nat) : Dyadic → String
  | .nan => "NaN"
  | .infinite negative => signText negative ++ "inf"
  | .finite negative mantissa exponent =>
      let numerator := mantissa * Nat.pow 2 exponent.toNat * Nat.pow 10 places
      let count := roundDiv numerator (Nat.pow 2 (-exponent).toNat)
      signText negative ++ placed places count

/-- Rounding a quotient is off by at most half a unit. -/
theorem roundDiv_near (numerator denominator : Nat) (positive : 0 < denominator) :
    2 * numerator ≤ 2 * (roundDiv numerator denominator * denominator) + denominator ∧
      2 * (roundDiv numerator denominator * denominator) ≤ 2 * numerator + denominator := by
  have split := Nat.div_add_mod numerator denominator
  have small := Nat.mod_lt numerator positive
  have parity : numerator / denominator % 2 = 0 ∨ numerator / denominator % 2 = 1 := by omega
  have commuted := Nat.mul_comm denominator (numerator / denominator)
  unfold roundDiv
  simp only
  split
  · omega
  · split
    · rw [Nat.add_mul]
      omega
    · rcases parity with even | odd
      · rw [even, Nat.add_zero]
        omega
      · rw [odd, Nat.add_mul]
        omega

end SurfaceTape.Decimal

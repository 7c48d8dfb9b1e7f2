import SurfaceTape.Scalar.Basic

/-!
# Binary floating point

Graph constants are binary64 numbers and tapes compute with binary32 numbers. Every operation
rounds once, in its own width.
-/

set_option autoImplicit false

namespace SurfaceTape

namespace Binary64

/-- The smaller number. Of a number and a NaN it is the number. -/
def minimum (a b : Float) : Float :=
  if a.isNaN then b else if b.isNaN then a else if b < a then b else a

/-- The larger number. Of a number and a NaN it is the number. -/
def maximum (a b : Float) : Float :=
  if a.isNaN then b else if b.isNaN then a else if a < b then b else a

def unary : UnaryOp → Float → Float
  | .sin, a => a.sin
  | .cos, a => a.cos
  | .exp, a => a.exp
  | .sqrt, a => a.sqrt
  | .neg, a => -a

def binary : BinaryOp → Float → Float → Float
  | .add, a, b => a + b
  | .sub, a, b => a - b
  | .mul, a, b => a * b
  | .div, a, b => a / b
  | .min, a, b => minimum a b
  | .max, a, b => maximum a b

end Binary64

namespace Binary32

def minimum (a b : Float32) : Float32 :=
  if a.isNaN then b else if b.isNaN then a else if b < a then b else a

def maximum (a b : Float32) : Float32 :=
  if a.isNaN then b else if b.isNaN then a else if a < b then b else a

def unary : UnaryOp → Float32 → Float32
  | .sin, a => a.sin
  | .cos, a => a.cos
  | .exp, a => a.exp
  | .sqrt, a => a.sqrt
  | .neg, a => -a

def binary : BinaryOp → Float32 → Float32 → Float32
  | .add, a, b => a + b
  | .sub, a, b => a - b
  | .mul, a, b => a * b
  | .div, a, b => a / b
  | .min, a, b => minimum a b
  | .max, a, b => maximum a b

end Binary32

/-- Constants compare as numbers: the two zeros are the same, and a NaN is not the same as any
value. -/
instance : Scalar Float where
  unary := Binary64.unary
  binary := Binary64.binary
  zero := 0.0
  one := 1.0
  negOne := -1.0
  same a b := a == b

private theorem Binary32.eq_of_toBits {a b : Float32} (same : a.toBits = b.toBits) : a = b := by
  obtain ⟨left⟩ := a
  obtain ⟨right⟩ := b
  obtain ⟨bits, valid⟩ := left
  cases same
  rfl

/-- Slots start out as NaN, and the two zeros have different bits. -/
instance : Sample Float32 where
  unary := Binary32.unary
  binary := Binary32.binary
  undefined := Float32.ofBits 0x7fc00000
  bits := Float32.toBits
  eq_of_bits := Binary32.eq_of_toBits

/-- Rounding to the nearest binary32 number, ties to even, overflow to infinity. -/
instance : Narrow Float Float32 where
  narrow := Float.toFloat32

end SurfaceTape

import SurfaceTape.Operator

/-!
# Scalars

What expressions compute with. The operators may denote any functions: no law of arithmetic is
part of these classes, so a statement made for every scalar type holds for floating-point numbers
of any width, for fields, and for symbolic values alike.
-/

set_option autoImplicit false

namespace SurfaceTape

class Arith (α : Type) where
  unary : UnaryOp → α → α
  binary : BinaryOp → α → α → α

/-- Values that can stand as constants in a graph. Simplification compares constants with three
distinguished values, by a comparison that need not be reflexive. -/
class Scalar (α : Type) extends Arith α where
  zero : α
  one : α
  negOne : α
  same : α → α → Bool

/-- Values that a tape computes with. A slot that was never written holds `undefined`, and two
constants share a place in the pool when they have the same bits. A value is no more than its
bits. -/
class Sample (β : Type) extends Arith β where
  undefined : β
  bits : β → UInt32
  eq_of_bits : ∀ {a b : β}, bits a = bits b → a = b

class Narrow (α β : Type) where
  narrow : α → β

end SurfaceTape

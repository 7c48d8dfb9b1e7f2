import SurfaceTape.Axis
import SurfaceTape.Scalar.Basic

/-!
# Terms

One step of an expression: a leaf, or an operator over inputs. The type of the inputs is a
parameter. A graph stores terms over nodes; putting a result in the place of each node gives a term
over results, which is what evaluation and the passes work on.
-/

set_option autoImplicit false

namespace SurfaceTape

inductive Term (α ν : Type) where
  | axis (a : Axis)
  | const (c : α)
  | unary (op : UnaryOp) (a : ν)
  | binary (op : BinaryOp) (a b : ν)
  deriving DecidableEq

namespace Term

variable {α ν μ : Type}

def inputs : Term α ν → List ν
  | .axis _ => []
  | .const _ => []
  | .unary _ a => [a]
  | .binary _ a b => [a, b]

def operator? : Term α ν → Option Operator
  | .axis _ => none
  | .const _ => none
  | .unary op _ => some (.unary op)
  | .binary op _ _ => some (.binary op)

def const? : Term α ν → Option α
  | .const c => some c
  | _ => none

def axis? : Term α ν → Option Axis
  | .axis a => some a
  | _ => none

def map (f : ν → μ) : Term α ν → Term α μ
  | .axis a => .axis a
  | .const c => .const c
  | .unary op a => .unary op (f a)
  | .binary op a b => .binary op (f a) (f b)

def map? (f : ν → Option μ) : Term α ν → Option (Term α μ)
  | .axis a => some (.axis a)
  | .const c => some (.const c)
  | .unary op a => (f a).map (.unary op)
  | .binary op a b => (f a).bind fun a => (f b).map (.binary op a)

/-- Equality of terms in which constants compare as numbers. -/
def same [Scalar α] [DecidableEq ν] : Term α ν → Term α ν → Bool
  | .const c, .const d => Scalar.same c d
  | .axis a, .axis b => a = b
  | .unary op a, .unary op' a' => op = op' ∧ a = a'
  | .binary op a b, .binary op' a' b' => op = op' ∧ a = a' ∧ b = b'
  | _, _ => false

@[simp] theorem inputs_map (f : ν → μ) (t : Term α ν) : (t.map f).inputs = t.inputs.map f := by
  cases t <;> rfl

end Term

/-- A meaning for every kind of term, in values of type `β`. -/
structure Interpretation (α β : Type) where
  axis : Axis → β
  const : α → β
  unary : UnaryOp → β → β
  binary : BinaryOp → β → β → β

namespace Interpretation

variable {α β : Type}

def apply (meaning : Interpretation α β) : Term α β → β
  | .axis a => meaning.axis a
  | .const c => meaning.const c
  | .unary op a => meaning.unary op a
  | .binary op a b => meaning.binary op a b

/-- The meaning at a point, in the arithmetic of `β`, with constants converted to it. -/
def atPoint [Arith β] (convert : α → β) (p : Point β) : Interpretation α β where
  axis := p.coordinate
  const := convert
  unary := Arith.unary
  binary := Arith.binary

end Interpretation

end SurfaceTape

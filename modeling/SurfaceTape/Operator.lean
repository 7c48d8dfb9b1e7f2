/-!
# Operators

The eleven operators that combine expressions, split by the number of their inputs. This module
holds their names only; what they compute is left to the scalar type.
-/

set_option autoImplicit false

namespace SurfaceTape

inductive UnaryOp where
  | sin
  | cos
  | exp
  | sqrt
  | neg
  deriving DecidableEq

inductive BinaryOp where
  | add
  | sub
  | mul
  | div
  | min
  | max
  deriving DecidableEq

namespace UnaryOp

def all : List UnaryOp := [.sin, .cos, .exp, .sqrt, .neg]

def name : UnaryOp → String
  | .sin => "sin"
  | .cos => "cos"
  | .exp => "exp"
  | .sqrt => "sqrt"
  | .neg => "neg"

def ofName? (name : String) : Option UnaryOp :=
  all.find? fun op => op.name == name

end UnaryOp

namespace BinaryOp

def all : List BinaryOp := [.add, .sub, .mul, .div, .min, .max]

def name : BinaryOp → String
  | .add => "add"
  | .sub => "sub"
  | .mul => "mul"
  | .div => "div"
  | .min => "min"
  | .max => "max"

def ofName? (name : String) : Option BinaryOp :=
  all.find? fun op => op.name == name

end BinaryOp

inductive Operator where
  | unary (op : UnaryOp)
  | binary (op : BinaryOp)
  deriving DecidableEq

namespace Operator

def arity : Operator → Nat
  | .unary _ => 1
  | .binary _ => 2

def name : Operator → String
  | .unary op => op.name
  | .binary op => op.name

def ofName? (name : String) : Option Operator :=
  ((UnaryOp.ofName? name).map .unary).or ((BinaryOp.ofName? name).map .binary)

theorem ofName?_name (op : Operator) : ofName? op.name = some op := by
  rcases op with op | op <;> cases op <;> rfl

end Operator

end SurfaceTape

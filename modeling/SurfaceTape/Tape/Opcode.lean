import SurfaceTape.Operator

/-!
# Opcodes

What one instruction of a tape does. Each opcode has a code of one byte; the codes of the known
opcodes are the numbers below thirteen.
-/

set_option autoImplicit false

namespace SurfaceTape

inductive Opcode where
  | const
  | unary (op : UnaryOp)
  | binary (op : BinaryOp)
  | copy
  deriving DecidableEq

namespace Opcode

def all : List Opcode :=
  [.const, .unary .sin, .unary .cos, .unary .exp, .unary .sqrt, .unary .neg, .binary .add,
    .binary .sub, .binary .mul, .binary .div, .binary .min, .binary .max, .copy]

def byte : Opcode → UInt8
  | .const => 0
  | .unary .sin => 1
  | .unary .cos => 2
  | .unary .exp => 3
  | .unary .sqrt => 4
  | .unary .neg => 5
  | .binary .add => 6
  | .binary .sub => 7
  | .binary .mul => 8
  | .binary .div => 9
  | .binary .min => 10
  | .binary .max => 11
  | .copy => 12

def ofByte? (code : UInt8) : Option Opcode := all[code.toNat]?

def name : Opcode → String
  | .const => "CONST"
  | .unary .sin => "SIN"
  | .unary .cos => "COS"
  | .unary .exp => "EXP"
  | .unary .sqrt => "SQRT"
  | .unary .neg => "NEG"
  | .binary .add => "ADD"
  | .binary .sub => "SUB"
  | .binary .mul => "MUL"
  | .binary .div => "DIV"
  | .binary .min => "MIN"
  | .binary .max => "MAX"
  | .copy => "COPY"

/-- How many of the two input fields name a slot that is read. A constant load reads none, since
its input is a place in the pool. -/
def slotReads : Opcode → Nat
  | .const => 0
  | .unary _ => 1
  | .binary _ => 2
  | .copy => 1

theorem ofByte?_byte (op : Opcode) : ofByte? op.byte = some op := by
  rcases op with _ | op | op | _
  · rfl
  · cases op <;> rfl
  · cases op <;> rfl
  · rfl

end Opcode

namespace Operator

def opcode : Operator → Opcode
  | .unary op => .unary op
  | .binary op => .binary op

end Operator

end SurfaceTape

import SurfaceTape.Graph.Basic

/-!
# Failures

Every cause of failure, and the one place that puts causes into words.
-/

set_option autoImplicit false

namespace SurfaceTape

/-- The fields of an instruction that hold a number, in the order in which they are checked. -/
inductive InstructionField where
  | output
  | inputA
  | inputB
  deriving DecidableEq

inductive SlotRule where
  | constantRange
  | readBeforeWrite
  | outputRange
  | finalOutput
  deriving DecidableEq

/-- Failures that a correct lowering never shows, except for graphs that need too many slots or
constants or that hold an axis twice. -/
inductive InternalError where
  | missingSlot (node : Nat)
  | deadNode (node : Nat)
  | fieldOverflow (field : InstructionField) (value : Nat)
  | slotDiscipline (index : Nat) (rule : SlotRule)
  deriving DecidableEq

structure SystemError where
  text : String
  code : Nat
  deriving DecidableEq

inductive StreamError where
  | invalidUtf8
  | system (cause : SystemError)
  deriving DecidableEq

inductive Error where
  | badNode
  | badArity (op : Operator) (actual : Nat)
  | unknownOpcode (name : String)
  | unknownVariable (name : String)
  | badConstant (text : String)
  | missingArgument (line : Nat)
  | emptyFile
  | emptyTape
  | badOpcode (byte : UInt8)
  | internal (cause : InternalError)
  | stream (cause : StreamError)
  deriving DecidableEq

namespace UnaryOp

def title : UnaryOp → String
  | .sin => "Sin"
  | .cos => "Cos"
  | .exp => "Exp"
  | .sqrt => "Sqrt"
  | .neg => "Neg"

end UnaryOp

namespace BinaryOp

def title : BinaryOp → String
  | .add => "Add"
  | .sub => "Sub"
  | .mul => "Mul"
  | .div => "Div"
  | .min => "Min"
  | .max => "Max"

end BinaryOp

namespace Operator

def title : Operator → String
  | .unary op => "Unary(" ++ op.title ++ ")"
  | .binary op => "Binary(" ++ op.title ++ ")"

end Operator

def nodeText (n : Nat) : String := "Node(" ++ toString n ++ ")"

namespace InstructionField

def label : InstructionField → String
  | .output => "output slot"
  | .inputA => "input A"
  | .inputB => "input B"

end InstructionField

namespace SlotRule

def reason : SlotRule → String
  | .constantRange => "constant index out of range"
  | .readBeforeWrite => "reads a slot before it is written"
  | .outputRange => "output slot exceeds slot count"
  | .finalOutput => "final output is not slot 0"

end SlotRule

namespace InternalError

def message : InternalError → String
  | .missingSlot n => "node " ++ nodeText n ++ " has no slot (was the graph canonicalized?)"
  | .deadNode n => "node " ++ nodeText n ++ " is not the root but has no consumer"
  | .fieldOverflow field value =>
      field.label ++ " value " ++ toString value ++ " does not fit in 8 bits"
  | .slotDiscipline index rule => "instruction " ++ toString index ++ ": " ++ rule.reason

end InternalError

namespace SystemError

def message (e : SystemError) : String := e.text ++ " (os error " ++ toString e.code ++ ")"

def noSuchFile : SystemError := ⟨"No such file or directory", 2⟩

def notDirectory : SystemError := ⟨"Not a directory", 20⟩

def isDirectory : SystemError := ⟨"Is a directory", 21⟩

def nameTooLong : SystemError := ⟨"File name too long", 36⟩

end SystemError

namespace StreamError

def message : StreamError → String
  | .invalidUtf8 => "stream did not contain valid UTF-8"
  | .system cause => cause.message

end StreamError

namespace Error

def message : Error → String
  | .badNode => "node is not present in this `Context`"
  | .badArity op actual =>
      "opcode " ++ op.title ++ " takes " ++ toString op.arity ++ " inputs, but got " ++
        toString actual
  | .unknownOpcode name => "unknown opcode " ++ name
  | .unknownVariable name => "unknown variable " ++ name
  | .badConstant text => "could not parse constant '" ++ text ++ "'"
  | .missingArgument line => "missing argument on line " ++ toString line
  | .emptyFile => "empty file"
  | .emptyTape => "root node is a bare axis and produces no instructions"
  | .badOpcode byte => "bad tape opcode " ++ toString byte.toNat
  | .internal cause => "internal compiler error: " ++ cause.message
  | .stream cause => "io error: " ++ cause.message

/-- The failure below this one, in words. -/
def cause? : Error → Option String
  | .internal cause => some cause.message
  | .stream cause => some cause.message
  | _ => none

end Error

end SurfaceTape

import SurfaceTape.Decimal.Fixed
import SurfaceTape.Tape.Basic
import SurfaceTape.Text.Pad

/-!
# Listings

A tape in print: its sizes and, on request, every instruction and every constant on a line of its
own. An instruction is printed whether or not its opcode is known.
-/

set_option autoImplicit false

namespace SurfaceTape

namespace Instruction

def hexByte (b : UInt8) : String :=
  "0x" ++ String.ofList ((Nat.toDigits 16 b.toNat).leftpad 2 '0')

/-- The name of the opcode, or its code if it is unknown. -/
def opcodeText (i : Instruction) : String :=
  match Opcode.ofByte? i.op with
  | some op => op.name
  | none => hexByte i.op

def line (i : Instruction) (index : Nat) : String :=
  "\t" ++ Text.column 2 index ++ " " ++ Text.padLeft 10 i.opcodeText ++
    "  out=" ++ Text.column 2 i.out.toNat ++ "  inA=" ++ Text.column 2 i.a.toNat ++
    "  inB=" ++ Text.column 2 i.b.toNat ++ "\n"

end Instruction

namespace Tape

def constantLine (c : Float32) (index : Nat) : String :=
  "\t" ++ Text.column 2 index ++ " " ++ Text.padLeft 4 (Decimal.fixed 2 (.ofBinary32 c)) ++ "\n"

def listing (tape : Tape Float32) (detailed : Bool) : String :=
  let instructions := tape.code.zipIdx.map fun (i, index) => i.line index
  let constants := tape.constants.zipIdx.map fun (c, index) => constantLine c index
  let details (lines : List String) : String := if detailed then String.join lines else ""
  "Tape: instr_count=" ++ toString tape.code.length ++
    " slot_count=" ++ toString tape.slotCount ++ "\n" ++ details instructions ++
    "Constant pool: size=" ++ toString tape.constants.length ++ "\n" ++ details constants

end Tape

end SurfaceTape

import SurfaceTape.Error
import SurfaceTape.Tape.Opcode

/-!
# Instructions

An instruction is four bytes: an opcode, an output slot and two inputs. Any four bytes form an
instruction; whether its opcode is known shows only when it is read. Packed into a word, the opcode
is the highest byte and the second input the lowest.
-/

set_option autoImplicit false

namespace SurfaceTape

structure Instruction where
  op : UInt8
  out : UInt8
  a : UInt8
  b : UInt8
  deriving DecidableEq

namespace Instruction

def checkField (field : InstructionField) (value : Nat) : Except Error UInt8 :=
  if value < 256 then .ok (UInt8.ofNat value)
  else .error (.internal (.fieldOverflow field value))

/-- The instruction with the given fields. The first field that does not fit is reported. -/
def make (op : Opcode) (out a b : Nat) : Except Error Instruction := do
  let out ← checkField .output out
  let a ← checkField .inputA a
  let b ← checkField .inputB b
  return ⟨op.byte, out, a, b⟩

def setOutput (i : Instruction) (out : UInt8) : Instruction := { i with out := out }

def opcode (i : Instruction) : Except Error Opcode :=
  match Opcode.ofByte? i.op with
  | some op => .ok op
  | none => .error (.badOpcode i.op)

def word (i : Instruction) : UInt32 :=
  UInt32.ofNat (i.op.toNat * 0x1000000 + i.out.toNat * 0x10000 + i.a.toNat * 0x100 + i.b.toNat)

def ofWord (w : UInt32) : Instruction where
  op := UInt8.ofNat (w.toNat / 0x1000000)
  out := UInt8.ofNat (w.toNat / 0x10000)
  a := UInt8.ofNat (w.toNat / 0x100)
  b := UInt8.ofNat w.toNat

theorem toNat_word (i : Instruction) :
    i.word.toNat =
      i.op.toNat * 0x1000000 + i.out.toNat * 0x10000 + i.a.toNat * 0x100 + i.b.toNat := by
  have op := i.op.toNat_lt
  have out := i.out.toNat_lt
  have a := i.a.toNat_lt
  have b := i.b.toNat_lt
  rw [word, UInt32.toNat_ofNat_of_lt']
  simp only [UInt32.size]
  omega

/-- A word and its instruction determine each other. -/
theorem word_ofWord (w : UInt32) : (ofWord w).word = w := by
  apply UInt32.toNat_inj.mp
  have bound := w.toNat_lt
  rw [toNat_word]
  simp only [ofWord, UInt8.toNat_ofNat']
  omega

theorem ofWord_word (i : Instruction) : ofWord i.word = i := by
  obtain ⟨op, out, a, b⟩ := i
  have opBound := op.toNat_lt
  have outBound := out.toNat_lt
  have aBound := a.toNat_lt
  have bBound := b.toNat_lt
  simp only [ofWord, toNat_word, mk.injEq, ← UInt8.toNat_inj, UInt8.toNat_ofNat']
  omega

end Instruction

end SurfaceTape

import SurfaceTape.Axis
import SurfaceTape.Tape.Basic

/-!
# Checking tapes

The rules that make a tape safe to run: every opcode is known, constants come from the pool, a slot
is read only when it is an axis slot or an earlier instruction wrote it, the slots that are written
are below the declared number, and the last instruction writes slot 0.
-/

set_option autoImplicit false

namespace SurfaceTape

namespace Instruction

def reads (i : Instruction) (op : Opcode) : List UInt8 := [i.a, i.b].take op.slotReads

end Instruction

namespace Tape

variable {β : Type}

/-- Checks one instruction, given which slots are written, and marks the slot that it writes. The
rules are tried in the order opcode, constant, reads, output. -/
def checkInstruction (tape : Tape β) (index : Nat) (i : Instruction) (written : Slots Bool) :
    Except Error (Slots Bool) :=
  let fail (rule : SlotRule) : Except Error (Slots Bool) :=
    .error (.internal (.slotDiscipline index rule))
  match i.opcode with
  | .error e => .error e
  | .ok op =>
      if op = .const ∧ tape.constants.length ≤ i.a.toNat then fail .constantRange
      else if (i.reads op).any fun r => !written.read r then fail .readBeforeWrite
      else if tape.slotCount ≤ i.out.toNat then fail .outputRange
      else .ok (written.write i.out true)

/-- Checks instructions, the first of which has the given position in the tape. -/
def checkFrom (tape : Tape β) : Nat → List Instruction → Slots Bool → Except Error Unit
  | _, [], _ => .ok ()
  | index, i :: rest, written =>
      match tape.checkInstruction index i written with
      | .error e => .error e
      | .ok written => tape.checkFrom (index + 1) rest written

def writtenAtStart : Slots Bool := Vector.ofFn fun i => decide (i.val < Axis.slotCount)

/-- Checks a tape. The output of the last instruction is looked at when all instructions are in
order. -/
def check (tape : Tape β) : Except Error Unit :=
  match tape.checkFrom 0 tape.code writtenAtStart with
  | .error e => .error e
  | .ok () =>
      match tape.code.getLast? with
      | none => .error .emptyTape
      | some last =>
          if last.out = 0 then .ok ()
          else .error (.internal (.slotDiscipline (tape.code.length - 1) .finalOutput))

end Tape

end SurfaceTape

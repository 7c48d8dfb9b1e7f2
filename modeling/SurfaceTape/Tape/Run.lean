import SurfaceTape.Axis
import SurfaceTape.Scalar.Basic
import SurfaceTape.Tape.Basic

/-!
# Running tapes

The machine reads instructions one after the other and updates its slots. It stops at an unknown
opcode and at a constant that is not in the pool. It knows no law of arithmetic.
-/

set_option autoImplicit false

namespace SurfaceTape.Tape

variable {β : Type} [Sample β]

def step (constants : List β) (index : Nat) (i : Instruction) (slots : Slots β) :
    Except Error (Slots β) :=
  match i.opcode with
  | .error e => .error e
  | .ok .const =>
      match constants[i.a.toNat]? with
      | some c => .ok (slots.write i.out c)
      | none => .error (.internal (.slotDiscipline index .constantRange))
  | .ok (.unary op) => .ok (slots.write i.out (Arith.unary op (slots.read i.a)))
  | .ok (.binary op) => .ok (slots.write i.out (Arith.binary op (slots.read i.a) (slots.read i.b)))
  | .ok .copy => .ok (slots.write i.out (slots.read i.a))

def steps (constants : List β) : Nat → List Instruction → Slots β → Except Error (Slots β)
  | _, [], slots => .ok slots
  | index, i :: rest, slots =>
      match step constants index i slots with
      | .error e => .error e
      | .ok slots => steps constants (index + 1) rest slots

/-- The result of the tape when its slots hold the given values at the start. -/
def runFrom (tape : Tape β) (slots : Slots β) : Except Error β :=
  (steps tape.constants 0 tape.code slots).map fun slots => slots.read 0

/-- The slots at the start: the coordinates of the point, and nothing else. -/
def initialSlots (p : Point β) : Slots β :=
  ((((Vector.replicate 256 Sample.undefined).set 0 p.x).set 1 p.y).set 2 p.z).set 3 p.t

def run (tape : Tape β) (p : Point β) : Except Error β := tape.runFrom (initialSlots p)

end SurfaceTape.Tape

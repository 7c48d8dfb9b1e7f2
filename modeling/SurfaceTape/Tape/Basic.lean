import SurfaceTape.Tape.Instruction

/-!
# Tapes

A tape is straight-line code over numbered slots. Slots 0 to 3 hold the values of the axes when it
starts, and slot 0 holds the result when it ends. Constants are loaded from a pool. The parts may be
put together freely; nothing here says that they fit.
-/

set_option autoImplicit false

namespace SurfaceTape

structure Tape (β : Type) where
  code : List Instruction
  constants : List β
  slotCount : Nat

/-- One value for each slot that a byte can name. -/
abbrev Slots (β : Type) := Vector β 256

namespace Slots

variable {β : Type}

def read (s : Slots β) (i : UInt8) : β :=
  have inside : i.toNat < 256 := i.toNat_lt
  s[i.toNat]

def write (s : Slots β) (i : UInt8) (v : β) : Slots β :=
  have inside : i.toNat < 256 := i.toNat_lt
  s.set i.toNat v

theorem read_write (s : Slots β) (i j : UInt8) (v : β) :
    (s.write i v).read j = if i = j then v else s.read j := by
  simp only [read, write, Vector.getElem_set, UInt8.toNat_inj]

end Slots

end SurfaceTape

/-!
# Slot tables

Which node stands in which slot while code is being laid out. A slot is free when no node stands in
it. A table never becomes shorter, so its length in the end is the number of slots that were needed.
-/

set_option autoImplicit false

namespace SurfaceTape

/-- The node in each slot, or nothing in a free one. -/
structure SlotTable where
  cells : List (Option Nat)

namespace SlotTable

def size (table : SlotTable) : Nat := table.cells.length

/-- The first slot in which a node stands. -/
def slotOf? (table : SlotTable) (node : Nat) : Option Nat :=
  table.cells.findIdx? fun cell => cell = some node

def vacate (table : SlotTable) (slot : Nat) : SlotTable := ⟨table.cells.set slot none⟩

/-- The first free slot; past the end of the table if all are taken. -/
def freeSlot (table : SlotTable) : Nat := table.cells.findIdx Option.isNone

/-- Puts a node into the first free slot, which may be a new one. -/
def occupy (table : SlotTable) (node : Nat) : SlotTable :=
  let slot := table.freeSlot
  if slot < table.size then ⟨table.cells.set slot (some node)⟩ else ⟨table.cells ++ [some node]⟩

end SlotTable

end SurfaceTape

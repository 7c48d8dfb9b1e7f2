import SurfaceTape.Journal
import SurfaceTape.Lowering.Plan
import SurfaceTape.Tape.Basic

/-!
# Lowering

Laying out the code for the expression at a node. The nodes below it are taken in post-order, and
each operator and constant becomes one instruction. A node takes the first free slot; the slots of
inputs that are used for the last time are freed first, so a result may take the place of an input.

Axes stand in their slots from the start. If an axis appears twice, only its first node has a slot,
and the use of another one fails.
-/

set_option autoImplicit false

namespace SurfaceTape

/-- What is decided for one node: its instruction, field by field, and the table afterwards. -/
structure Assignment where
  node : Nat
  opcode : Opcode
  a : Nat
  b : Nat
  out : Nat
  released : List (Nat × Nat)
  table : SlotTable

namespace Assignment

def instruction (x : Assignment) : Except Error Instruction :=
  Instruction.make x.opcode x.out x.a x.b

def slotEvents (x : Assignment) : List Event :=
  x.released.map (fun (slot, node) => .released slot node) ++ [.bound x.node x.out]

end Assignment

namespace Lowering

variable {α β : Type} [Sample β] [Narrow α β]

def slotOf (table : SlotTable) (node : Nat) : Except Error Nat :=
  match table.slotOf? node with
  | some slot => .ok slot
  | none => .error (.internal (.missingSlot node))

/-- Opcode and input fields for a term. An axis needs no instruction. -/
def fields (plan : Plan β) (table : SlotTable) :
    Term α Nat → Except Error (Option (Opcode × Nat × Nat))
  | .axis _ => .ok none
  | .const c => .ok (some (.const, Plan.poolIndex plan.pool (Narrow.narrow c), 0))
  | .unary op a => do
      let slot ← slotOf table a
      return some (.unary op, slot, 0)
  | .binary op a b => do
      let first ← slotOf table a
      let second ← slotOf table b
      return some (.binary op, first, second)

/-- The slots of the inputs that are used for the last time, each once, with their nodes. -/
def dying (plan : Plan β) (table : SlotTable) (position : Nat) (t : Term α Nat) :
    List (Nat × Nat) :=
  let nodes := (t.inputs.filter fun n => plan.isLastUse n position).eraseDups
  nodes.filterMap fun n => (table.slotOf? n).map fun slot => (slot, n)

def assign (plan : Plan β) (table : SlotTable) (position : Nat) (entry : Graph.Entry α) :
    Except Error (Option Assignment) := do
  match ← fields plan table entry.term with
  | none => return none
  | some (opcode, a, b) =>
      let released := dying plan table position entry.term
      let freed := released.foldl (fun table cell => table.vacate cell.1) table
      return some
        { node := entry.node
          opcode := opcode
          a := a
          b := b
          out := freed.freeSlot
          released := released
          table := freed.occupy entry.node }

structure Layout where
  table : SlotTable
  code : List Instruction
  journal : Array Event

/-- Lays out the entries, each with its position, and stops at the first failure. -/
def layOut (plan : Plan β) :
    List (Graph.Entry α × Nat) → Layout → Layout × Option Error
  | [], layout => (layout, none)
  | (entry, position) :: rest, layout =>
      match assign plan layout.table position entry with
      | .error e => (layout, some e)
      | .ok none => layOut plan rest layout
      | .ok (some x) =>
          let journal := layout.journal ++ x.slotEvents
          match x.instruction with
          | .error e => (⟨x.table, layout.code, journal⟩, some e)
          | .ok i =>
              layOut plan rest
                ⟨x.table, i :: layout.code, journal.push (.emitted position x.opcode x.out x.a x.b)⟩

structure Result (β : Type) where
  journal : Array Event
  outcome : Except Error (Tape β)

/-- The tape of a layout. Its last instruction gives the result. -/
def finish (plan : Plan β) (layout : Layout) : Result β :=
  match layout.code with
  | [] => ⟨layout.journal, .error .emptyTape⟩
  | last :: earlier =>
      let tape : Tape β :=
        { code := (last.setOutput 0 :: earlier).reverse
          constants := plan.pool
          slotCount := layout.table.size }
      ⟨layout.journal.push (.finished tape.code.length tape.slotCount tape.constants.length),
        .ok tape⟩

def lowerEntries (entries : List (Graph.Entry α)) (root : Nat) : Result β :=
  match Plan.make entries root with
  | .error e => ⟨#[], .error e⟩
  | .ok plan =>
      match layOut plan entries.zipIdx ⟨⟨Graph.axisNodes entries⟩, [], #[]⟩ with
      | (layout, some e) => ⟨layout.journal, .error e⟩
      | (layout, none) => finish plan layout

end Lowering

namespace Graph

variable {α β : Type} [Sample β] [Narrow α β]

/-- Lays out the code for the expression at a node, and reports on it. An axis needs no code, and
then there is no tape. -/
def lowering (g : Graph α) (root : Nat) : Lowering.Result β :=
  match g.term? root with
  | some (.axis _) => ⟨#[], .error .emptyTape⟩
  | _ =>
      match g.postOrder root with
      | .error e => ⟨#[], .error e⟩
      | .ok entries => Lowering.lowerEntries entries root

def lower (g : Graph α) (root : Nat) : Except Error (Tape β) := (g.lowering root).outcome

end Graph

end SurfaceTape

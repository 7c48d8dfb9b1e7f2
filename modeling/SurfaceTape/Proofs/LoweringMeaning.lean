import SurfaceTape.Proofs.CodeLayout
import SurfaceTape.Tape.Run

/-!
# A tape computes what its expression means

While code is laid out, every node in a slot of the table has the value that the machine holds in
that slot after the code so far. The table alone is enough to show this: a slot is looked up before
any slot is freed, and an instruction overwrites a slot in which no node stands. When a slot is
freed, and whether it is freed too early, does not matter here.
-/

set_option autoImplicit false

namespace SurfaceTape

namespace Tape

variable {β : Type} [Sample β]

private theorem read_initialSlots (p : Point β) {r : UInt8} {a : Axis} (slot : r.toNat = a.slot) :
    (initialSlots p).read r = p.coordinate a := by
  simp only [Slots.read, initialSlots, slot]
  cases a <;> rfl

end Tape

namespace Lowering

variable {α β : Type}

def Mirrors (g : Graph α) (meaning : Interpretation α β) (table : SlotTable) (slots : Slots β) :
    Prop :=
  ∀ (r : UInt8) (n : Nat), table.Holds r.toNat n → g.value? meaning n = some (slots.read r)

theorem Mirrors.read {g : Graph α} {meaning : Interpretation α β} {table : SlotTable}
    {slots : Slots β} {r : UInt8} {n : Nat} (mirrors : Mirrors g meaning table slots)
    (found : table.slotOf? n = some r.toNat) : g.value? meaning n = some (slots.read r) :=
  mirrors r n (SlotTable.holds_of_slotOf? found)

theorem Mirrors.write {g : Graph α} {meaning : Interpretation α β} {table : SlotTable}
    {slots : Slots β} {r : UInt8} {n : Nat} {v : β} (mirrors : Mirrors g meaning table slots)
    (free : r.toNat = table.freeSlot) (value : g.value? meaning n = some v) :
    Mirrors g meaning (table.occupy n) (slots.write r v) := by
  intro s m held
  rw [Slots.read_write]
  rcases SlotTable.holds_occupy.mp held with ⟨slot, rfl⟩ | old
  · rw [if_pos (UInt8.toNat_inj.mp (free.trans slot.symm)), value]
  · -- No node stands in a free slot, so the write hits none of the old nodes.
    have other : r ≠ s := by
      rintro rfl
      rw [free] at old
      exact SlotTable.not_holds_freeSlot old
    rw [if_neg other]
    exact mirrors s m old

theorem mirrors_freed {g : Graph α} {meaning : Interpretation α β} {table : SlotTable}
    {slots : Slots β} (plan : Plan β) (position : Nat) (t : Term α Nat)
    (mirrors : Mirrors g meaning table slots) :
    Mirrors g meaning (freed plan table position t) slots :=
  fun r n held => mirrors r n (holds_of_freed held)

variable [Sample β] [Narrow α β]

theorem mirrors_start {g : Graph α} {root : Nat} {entries : List (Graph.Entry α)}
    (ordered : g.Ordered root entries) (p : Point β) :
    Mirrors g (.atPoint Narrow.narrow p) (start entries).table (Tape.initialSlots p) := by
  intro r n held
  obtain ⟨a, slot, stands⟩ := exists_axis_of_holds held
  rw [Graph.value?_of_term? (ordered.axisNode?_spec stands).1, Tape.read_initialSlots p slot.symm]
  rfl

theorem step_of_encodes {g : Graph α} {p : Point β} {plan : Plan β} {table : SlotTable}
    {slots : Slots β} {t : Term α Nat} {op : Opcode} {a b : Nat} {i : Instruction} (index : Nat)
    (mirrors : Mirrors g (.atPoint Narrow.narrow p) table slots)
    (pooled : ∀ c, t = .const c → Narrow.narrow c ∈ plan.pool)
    (encodes : Encodes plan table t op a b) (opcode : i.opcode = .ok op) (first : i.a.toNat = a)
    (second : i.b.toNat = b) :
    ∃ v, g.termValue? (.atPoint Narrow.narrow p) t = some v ∧
      Tape.step plan.pool index i slots = .ok (slots.write i.out v) := by
  cases encodes with
  | const c =>
      refine ⟨Narrow.narrow c, rfl, ?_⟩
      simp only [Tape.step, opcode, first, Plan.getElem?_poolIndex (pooled c rfl)]
  | unary found =>
      refine ⟨_, Graph.termValue?_unary (mirrors.read (first ▸ found)), ?_⟩
      simp only [Tape.step, opcode]
      rfl
  | binary found found' =>
      refine ⟨_, Graph.termValue?_binary (mirrors.read (first ▸ found))
        (mirrors.read (second ▸ found')), ?_⟩
      simp only [Tape.step, opcode]
      rfl

/-- After the code so far the machine holds what the table says, and goes on from there. -/
def Simulates (g : Graph α) (plan : Plan β) (p : Point β) (layout : Layout) : Prop :=
  ∃ slots, Mirrors g (.atPoint Narrow.narrow p) layout.table slots ∧
    ∀ rest, Tape.steps plan.pool 0 (layout.code.reverse ++ rest) (Tape.initialSlots p) =
      Tape.steps plan.pool layout.code.length rest slots

theorem simulates_kept {g : Graph α} {root : Nat} {entries : List (Graph.Entry α)}
    (ordered : g.Ordered root entries) (p : Point β) :
    Kept (Plan.ofEntries entries : Plan β) entries
      fun _ layout => Simulates g (Plan.ofEntries entries) p layout := by
  intro earlier later entry layout next split simulates emits
  cases emits with
  | axis kind => exact simulates
  | instruction encodes made =>
      obtain ⟨slots, mirrors, runs⟩ := simulates
      obtain ⟨opcode, out, first, second⟩ := Instruction.fields_of_make made
      have member : entry ∈ entries := by simp [split]
      obtain ⟨v, value, stepped⟩ := step_of_encodes layout.code.length mirrors
        (fun c kind => Plan.mem_poolOf member kind) encodes opcode first second
      refine ⟨_, (mirrors_freed _ earlier.length entry.term mirrors).write out
        ((Graph.value?_of_term? (ordered.term? member)).trans value), fun rest => ?_⟩
      rw [List.reverse_cons, List.append_assoc, runs, List.singleton_append, Tape.steps, stepped]
      rfl

private theorem run_close {g : Graph α} {p : Point β} {plan : Plan β} {layout : Layout}
    {table : SlotTable} {t : Term α Nat} {op : Opcode} {out a b : Nat} {i : Instruction}
    (simulates : Simulates g plan p layout)
    (pooled : ∀ c, t = .const c → Narrow.narrow c ∈ plan.pool)
    (encodes : Encodes plan layout.table t op a b) (made : Instruction.make op out a b = .ok i) :
    ∃ v, g.termValue? (.atPoint Narrow.narrow p) t = some v ∧
      (close plan table layout.code i).run p = .ok v := by
  obtain ⟨slots, mirrors, runs⟩ := simulates
  obtain ⟨opcode, _, first, second⟩ := Instruction.fields_of_make made
  obtain ⟨v, value, stepped⟩ := step_of_encodes (i := i.setOutput 0) layout.code.length mirrors
    pooled encodes opcode first second
  refine ⟨v, value, ?_⟩
  rw [Tape.run, Tape.runFrom]
  dsimp only [close]
  rw [runs, Tape.steps, stepped]
  exact congrArg Except.ok ((Slots.read_write ..).trans (if_pos rfl))

end Lowering

namespace Graph

open Lowering

variable {α β : Type} [Sample β] [Narrow α β]

/-- The tape of a node runs to the value of the node at every point, whatever the operators
denote. -/
theorem run_of_lower {g : Graph α} {root : Nat} {tape : Tape β}
    (lowered : g.lower root = .ok tape) (p : Point β) :
    tape.run p = g.eval (.atPoint Narrow.narrow p) root := by
  have closes := closes_of_lower lowered
    (fun ordered => ⟨_, mirrors_start ordered p, fun _ => rfl⟩)
    (fun ordered => simulates_kept ordered p)
  cases closes with
  | @intro entries before plan t layout op a b i ordered split planned simulates encodes made =>
      subst planned
      have member : (⟨root, t⟩ : Entry α) ∈ entries := by simp [split]
      obtain ⟨v, value, ran⟩ := run_close simulates (fun _ kind => Plan.mem_poolOf member kind)
        encodes made
      rw [ran, eval_of_value? ((value?_of_term? (ordered.term? member)).trans value)]

/-- A tape that was laid out for a node computes, at every point, the value of the plain recursive
reading of the node in the arithmetic of the tape. -/
theorem lower_correct {g : Graph α} {root : Nat} {tape : Tape β}
    (lowered : g.lower root = .ok tape) (p : Point β) :
    ∃ v, g.value? (.atPoint Narrow.narrow p) root = some v ∧ tape.run p = .ok v := by
  obtain ⟨t, stored, _⟩ := exists_term?_of_lower lowered
  obtain ⟨v, value⟩ := exists_value? (.atPoint Narrow.narrow p) (lt_size_of_term? stored)
  exact ⟨v, value, (run_of_lower lowered p).trans (eval_of_value? value)⟩

/-- Words in the place of numbers, with the operators that words have. -/
instance : Sample UInt32 where
  unary
    | .neg, a => -a
    | _, a => a
  binary
    | .add, a, b => a + b
    | .sub, a, b => a - b
    | .mul, a, b => a * b
    | .div, a, b => a / b
    | .min, a, b => min a b
    | .max, a, b => max a b
  undefined := 0
  bits := id
  eq_of_bits := id

instance : Narrow UInt32 UInt32 := ⟨id⟩

/-- The expression `((x * x + 5) - 5) * y`, with two nodes for its two equal constants. -/
def scaledSquare : Graph UInt32 where
  terms := #[.axis .x, .axis .y, .const 5, .binary .mul 0 0, .binary .add 3 2, .const 5,
    .binary .sub 4 5, .binary .mul 6 1]
  acyclic := by decide

/-- Its code: the square takes the slot of its only input, both constants are the same place of the
pool, and slot 2 is used twice. -/
def scaledSquareTape : Tape UInt32 where
  code :=
    [⟨8, 0, 0, 0⟩, ⟨0, 2, 0, 0⟩, ⟨6, 0, 0, 2⟩, ⟨0, 2, 0, 0⟩, ⟨7, 0, 0, 2⟩, ⟨8, 0, 0, 1⟩]
  constants := [5]
  slotCount := 4

def scaledSquareEntries : List (Entry UInt32) :=
  [⟨0, .axis .x⟩, ⟨3, .binary .mul 0 0⟩, ⟨2, .const 5⟩, ⟨4, .binary .add 3 2⟩, ⟨5, .const 5⟩,
    ⟨6, .binary .sub 4 5⟩, ⟨1, .axis .y⟩, ⟨7, .binary .mul 6 1⟩]

theorem postOrder_scaledSquare : scaledSquare.postOrder 7 = .ok scaledSquareEntries := by
  cbv

theorem lower_scaledSquare : scaledSquare.lower 7 = .ok scaledSquareTape := by
  rw [lower_eq_lowerEntries (t := .binary .mul 6 1) rfl rfl postOrder_scaledSquare]
  rfl

theorem lower_scaledSquare_correct :
    scaledSquare.lower 7 = .ok scaledSquareTape ∧
      ∃ v : UInt32, scaledSquare.value? (.atPoint Narrow.narrow ⟨3, 2, 0, 0⟩) 7 = some v ∧
        scaledSquareTape.run ⟨3, 2, 0, 0⟩ = .ok v :=
  ⟨lower_scaledSquare, lower_correct lower_scaledSquare _⟩

end Graph

end SurfaceTape

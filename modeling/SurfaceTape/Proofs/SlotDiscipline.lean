import SurfaceTape.Proofs.LoweringMeaning
import SurfaceTape.Tape.Check

/-!
# Laid out code keeps the rules

Three invariants of code layout. Every slot in which a node stands has been written, so the tape
passes its check. Every slot that is named lies inside the table, which holds no more slots than a
byte can name. And every node that is still to be used stands in a slot, so the slot of an input is
always found; this needs that no axis has two nodes. What remains is that a slot or a place in the
pool does not fit its field.
-/

set_option autoImplicit false

namespace SurfaceTape

/-- The instruction stays below a number of slots, it is no copy, and a second input that it does
not read is zero. -/
structure Instruction.Confined (i : Instruction) (op : Opcode) (slotCount : Nat) : Prop where
  opcode : i.opcode = .ok op
  notCopy : op ≠ .copy
  output : i.out.toNat < slotCount
  inputs : ∀ r ∈ i.reads op, r.toNat < slotCount
  unread : (op = .const ∨ ∃ unary, op = .unary unary) → i.b = 0

theorem Instruction.Confined.mono {i : Instruction} {op : Opcode} {low high : Nat}
    (confined : i.Confined op low) (smaller : low ≤ high) : i.Confined op high :=
  { confined with
    output := Nat.lt_of_lt_of_le confined.output smaller
    inputs := fun r member => Nat.lt_of_lt_of_le (confined.inputs r member) smaller }

namespace SlotTable

theorem slotOf?_lt_size {table : SlotTable} {node slot : Nat}
    (found : table.slotOf? node = some slot) : slot < table.size :=
  (List.getElem?_eq_some_iff.mp (holds_of_slotOf? found)).1

theorem size_occupy_le {table : SlotTable} {bound : Nat} (node : Nat)
    (inside : table.size ≤ bound) (free : table.freeSlot < bound) :
    (table.occupy node).size ≤ bound := by
  unfold occupy
  dsimp only
  split
  · simpa [size] using inside
  · next full =>
      have last : table.size ≤ table.freeSlot := Nat.not_lt.mp full
      simp only [size, List.length_append, List.length_singleton] at last ⊢
      omega

end SlotTable

namespace Lowering

variable {α β : Type}

def Marked (table : SlotTable) (written : Slots Bool) : Prop :=
  ∀ (r : UInt8) (n : Nat), table.Holds r.toNat n → written.read r = true

private theorem Marked.read {table : SlotTable} {written : Slots Bool} {r : UInt8} {n : Nat}
    (marked : Marked table written) (found : table.slotOf? n = some r.toNat) :
    written.read r = true :=
  marked r n (SlotTable.holds_of_slotOf? found)

theorem marked_start (entries : List (Graph.Entry α)) :
    Marked (start entries).table Tape.writtenAtStart := by
  intro r n held
  obtain ⟨a, slot, _⟩ := exists_axis_of_holds held
  simpa [Tape.writtenAtStart, Slots.read, ← slot] using a.slot_lt_slotCount

private theorem Marked.write {plan : Plan β} {table : SlotTable} {written : Slots Bool}
    {position n : Nat} {t : Term α Nat} {r : UInt8} (marked : Marked table written)
    (free : r.toNat = (freed plan table position t).freeSlot) :
    Marked ((freed plan table position t).occupy n) (written.write r true) := by
  intro s m held
  rw [Slots.read_write]
  split
  · rfl
  · next other =>
      rcases SlotTable.holds_occupy.mp held with ⟨slot, _⟩ | old
      · exact absurd (UInt8.toNat_inj.mp (free.trans slot.symm)) other
      · exact marked s m (holds_of_freed old)

/-- The code so far passes the check in every tape with these constants and enough slots. -/
structure Accepted (plan : Plan β) (layout : Layout) : Prop where
  axes : Axis.slotCount ≤ layout.table.size
  checked : ∀ tape : Tape β, tape.constants = plan.pool → layout.table.size ≤ tape.slotCount →
    ∃ written, Marked layout.table written ∧
      ∀ rest, tape.checkFrom 0 (layout.code.reverse ++ rest) Tape.writtenAtStart =
        tape.checkFrom layout.code.length rest written

theorem accepted_start (entries : List (Graph.Entry α)) (plan : Plan β) :
    Accepted plan (start entries) :=
  ⟨Nat.le_of_eq (by rfl), fun _ _ _ => ⟨_, marked_start entries, fun _ => rfl⟩⟩

/-- The code so far stays inside the table, and the table inside what a byte can name. -/
structure Bounded (layout : Layout) : Prop where
  axes : Axis.slotCount ≤ layout.table.size
  table : layout.table.size ≤ 256
  code : ∀ i ∈ layout.code, ∃ op, i.Confined op layout.table.size

theorem bounded_start (entries : List (Graph.Entry α)) : Bounded (start entries) :=
  ⟨Nat.le_of_eq (by rfl), Nat.le_of_ble_eq_true rfl, fun _ member => by cases member⟩

/-- An instruction whose output fits its field leaves the table within what a byte can name. -/
private theorem size_occupy_freed_le {plan : Plan β} {layout : Layout} {position : Nat}
    {t : Term α Nat} {r : UInt8} (node : Nat) (bounded : Bounded layout)
    (free : r.toNat = (freed plan layout.table position t).freeSlot) :
    ((freed plan layout.table position t).occupy node).size ≤ 256 := by
  apply SlotTable.size_occupy_le
  · rw [freed, SlotTable.size_vacateAll]
    exact bounded.table
  · rw [← free]
    exact r.toNat_lt

def UsedAfter (entries earlier : List (Graph.Entry α)) (n : Nat) : Prop :=
  ∃ later user, entries = earlier ++ later ∧ user ∈ later ∧ n ∈ user.term.inputs

theorem UsedAfter.of_concat {entries earlier : List (Graph.Entry α)} {entry : Graph.Entry α}
    {n : Nat} (used : UsedAfter entries (earlier ++ [entry]) n) : UsedAfter entries earlier n := by
  obtain ⟨later, user, split, member, input⟩ := used
  exact ⟨entry :: later, user, by simp [split], List.mem_cons_of_mem entry member, input⟩

/-- The node is still to be used, and it has been made already or is an axis, which needs no
making. -/
def Live (g : Graph α) (entries earlier : List (Graph.Entry α)) (n : Nat) : Prop :=
  UsedAfter entries earlier n ∧
    (n ∈ earlier.map Graph.Entry.node ∨ ∃ a, g.term? n = some (.axis a))

theorem Live.of_concat {g : Graph α} {entries earlier : List (Graph.Entry α)}
    {entry : Graph.Entry α} {n : Nat} (live : Live g entries (earlier ++ [entry]) n) :
    n = entry.node ∨ Live g entries earlier n := by
  obtain ⟨used, made | axis⟩ := live
  · rw [List.map_append, List.mem_append] at made
    rcases made with before | last
    · exact .inr ⟨used.of_concat, .inl before⟩
    · exact .inl (List.mem_singleton.mp last)
  · exact .inr ⟨used.of_concat, .inr axis⟩

def Covers (g : Graph α) (entries earlier : List (Graph.Entry α)) (table : SlotTable) : Prop :=
  ∀ n, Live g entries earlier n → ∃ s, table.Holds s n

def Leading (g : Graph α) (entries : List (Graph.Entry α)) (n : Nat) : Prop :=
  ∀ a, g.term? n = some (.axis a) → Graph.axisNode? entries a = some n

theorem stands_start {g : Graph α} {entries : List (Graph.Entry α)} {n : Nat}
    (leading : Leading g entries n) (live : Live g entries [] n) :
    ∃ s, (start entries).table.Holds s n := by
  rcases live.2 with made | ⟨a, stored⟩
  · cases made
  · exact ⟨a.slot, (Graph.getElem?_axisNodes entries a).trans (congrArg some (leading a stored))⟩

theorem covers_start {g : Graph α} {root : Nat} {entries : List (Graph.Entry α)}
    (ordered : g.Ordered root entries) (unified : g.AxesUnified root) :
    Covers g entries [] (start entries).table := by
  intro n live
  apply stands_start _ live
  intro a stored
  obtain ⟨later, user, split, member, input⟩ := live.1
  rw [List.nil_append] at split
  subst split
  have reached : g.Reaches root n := .tail
    ((ordered.mem_iff _).mp (List.mem_map_of_mem member)) ⟨_, ordered.term? member, input⟩
  -- The first node of the axis stands in its slot, and there is no other.
  obtain ⟨k, stands⟩ := ordered.exists_axisNode? reached stored
  obtain ⟨kind, below⟩ := ordered.axisNode?_spec stands
  rwa [unified below reached kind stored] at stands

/-- An input comes before its user, so it has been made, and it is live. -/
theorem Covers.exists_slotOf? {g : Graph α} {root n : Nat}
    {entries earlier later : List (Graph.Entry α)} {entry : Graph.Entry α} {table : SlotTable}
    (covers : Covers g entries earlier table) (ordered : g.Ordered root entries)
    (split : entries = earlier ++ entry :: later) (input : n ∈ entry.term.inputs) :
    ∃ slot, table.slotOf? n = some slot := by
  have used : UsedAfter entries earlier n :=
    ⟨entry :: later, entry, split, List.mem_cons_self, input⟩
  obtain ⟨s, held⟩ := covers n ⟨used, .inl ((ordered.split split).2.2 n input)⟩
  exact SlotTable.exists_slotOf? held

variable [Sample β] [Narrow α β]

theorem checkInstruction_of_encodes {tape : Tape β} {plan : Plan β} {table : SlotTable}
    {written : Slots Bool} {t : Term α Nat} {op : Opcode} {a b : Nat} {i : Instruction}
    (index : Nat) (marked : Marked table written) (constants : tape.constants = plan.pool)
    (pooled : ∀ c, t = .const c → Narrow.narrow c ∈ plan.pool)
    (encodes : Encodes plan table t op a b) (opcode : i.opcode = .ok op) (first : i.a.toNat = a)
    (second : i.b.toNat = b) (bound : i.out.toNat < tape.slotCount) :
    tape.checkInstruction index i written = .ok (written.write i.out true) := by
  have output : ¬tape.slotCount ≤ i.out.toNat := Nat.not_le.mpr bound
  cases encodes with
  | const c =>
      obtain ⟨inside, _⟩ := List.getElem?_eq_some_iff.mp (Plan.getElem?_poolIndex (pooled c rfl))
      have range : ¬tape.constants.length ≤ i.a.toNat := by
        rw [constants, first]
        exact Nat.not_le.mpr inside
      simp [Tape.checkInstruction, opcode, range, output, Instruction.reads, Opcode.slotReads]
  | unary found =>
      have read := marked.read (first ▸ found)
      simp [Tape.checkInstruction, opcode, output, Instruction.reads, Opcode.slotReads, read]
  | binary found found' =>
      have read := marked.read (first ▸ found)
      have read' := marked.read (second ▸ found')
      simp [Tape.checkInstruction, opcode, output, Instruction.reads, Opcode.slotReads, read, read']

theorem accepted_kept (entries : List (Graph.Entry α)) :
    Kept (Plan.ofEntries entries : Plan β) entries
      fun _ layout => Accepted (Plan.ofEntries entries : Plan β) layout := by
  intro earlier later entry layout next split accepted emits
  cases emits with
  | axis kind => exact accepted
  | instruction encodes made =>
      obtain ⟨opcode, out, first, second⟩ := Instruction.fields_of_make made
      have member : entry ∈ entries := by simp [split]
      have grown := size_le_size_occupy_freed (Plan.ofEntries entries : Plan β) layout.table
        earlier.length entry.node entry.term
      refine ⟨Nat.le_trans accepted.axes grown, fun tape constants enough => ?_⟩
      obtain ⟨written, marked, checked⟩ :=
        accepted.checked tape constants (Nat.le_trans grown enough)
      have bound := Nat.lt_of_lt_of_le (SlotTable.freeSlot_lt_size_occupy _ entry.node) enough
      rw [← out] at bound
      have passed := checkInstruction_of_encodes layout.code.length marked constants
        (fun _ kind => Plan.mem_poolOf member kind) encodes opcode first second bound
      refine ⟨_, marked.write out, fun rest => ?_⟩
      rw [List.reverse_cons, List.append_assoc, checked, List.singleton_append, Tape.checkFrom,
        passed]
      rfl

private theorem check_close {plan : Plan β} {layout : Layout} {table : SlotTable} {t : Term α Nat}
    {op : Opcode} {out a b : Nat} {i : Instruction} (accepted : Accepted plan layout)
    (grown : layout.table.size ≤ table.size)
    (pooled : ∀ c, t = .const c → Narrow.narrow c ∈ plan.pool)
    (encodes : Encodes plan layout.table t op a b) (made : Instruction.make op out a b = .ok i) :
    (close plan table layout.code i).check = .ok () := by
  obtain ⟨opcode, _, first, second⟩ := Instruction.fields_of_make made
  have positive : 0 < table.size :=
    Nat.lt_of_lt_of_le (Nat.zero_lt_succ 3) (Nat.le_trans accepted.axes grown)
  obtain ⟨written, marked, checked⟩ :=
    accepted.checked (close plan table layout.code i) rfl grown
  have passed : (close plan table layout.code i).checkInstruction layout.code.length
      (i.setOutput 0) written = .ok (written.write 0 true) :=
    checkInstruction_of_encodes _ marked rfl pooled encodes opcode first second positive
  have accepts : (close plan table layout.code i).checkFrom 0 (close plan table layout.code i).code
      Tape.writtenAtStart = .ok () := by
    refine (checked [i.setOutput 0]).trans ?_
    rw [Tape.checkFrom, passed]
    rfl
  rw [Tape.check, accepts]
  simp [close, Instruction.setOutput]

theorem confined_of_encodes {plan : Plan β} {table : SlotTable} {t : Term α Nat} {op : Opcode}
    {a b slotCount : Nat} {i : Instruction} (inside : table.size ≤ slotCount)
    (encodes : Encodes plan table t op a b) (opcode : i.opcode = .ok op) (first : i.a.toNat = a)
    (second : i.b.toNat = b) (output : i.out.toNat < slotCount) : i.Confined op slotCount := by
  have found_lt : ∀ {node slot}, table.slotOf? node = some slot → slot < slotCount :=
    fun found => Nat.lt_of_lt_of_le (SlotTable.slotOf?_lt_size found) inside
  cases encodes with
  | const c =>
      refine ⟨opcode, nofun, output, ?_, fun _ => UInt8.toNat_inj.mp second⟩
      simp [Instruction.reads, Opcode.slotReads]
  | unary found =>
      refine ⟨opcode, nofun, output, ?_, fun _ => UInt8.toNat_inj.mp second⟩
      simpa [Instruction.reads, Opcode.slotReads, first] using found_lt found
  | binary found found' =>
      refine ⟨opcode, nofun, output, ?_, by simp⟩
      simpa [Instruction.reads, Opcode.slotReads, first, second] using
        ⟨found_lt found, found_lt found'⟩

theorem bounded_kept (plan : Plan β) (entries : List (Graph.Entry α)) :
    Kept plan entries fun _ layout => Bounded layout := by
  intro earlier later entry layout next split bounded emits
  cases emits with
  | axis kind => exact bounded
  | instruction encodes made =>
      obtain ⟨opcode, out, first, second⟩ := Instruction.fields_of_make made
      have grown := size_le_size_occupy_freed plan layout.table earlier.length entry.node entry.term
      refine ⟨Nat.le_trans bounded.axes grown, size_occupy_freed_le entry.node bounded out, ?_⟩
      intro i member
      rcases List.mem_cons.mp member with rfl | old
      · exact ⟨_, confined_of_encodes grown encodes opcode first second
          (out ▸ SlotTable.freeSlot_lt_size_occupy _ entry.node)⟩
      · obtain ⟨op, confined⟩ := bounded.code i old
        exact ⟨op, confined.mono grown⟩

theorem UsedAfter.isLastUse_eq_false {entries earlier : List (Graph.Entry α)}
    {entry : Graph.Entry α} {n : Nat} (used : UsedAfter entries (earlier ++ [entry]) n) :
    (Plan.ofEntries entries : Plan β).isLastUse n earlier.length = false := by
  obtain ⟨later, user, rfl, member, input⟩ := used
  obtain ⟨between, after, rfl⟩ := List.append_of_mem member
  obtain ⟨last, bound, noted⟩ := Plan.exists_lastUse (earlier ++ [entry] ++ between) after input
  rw [List.append_assoc] at noted
  simp only [List.length_append, List.length_singleton] at bound
  simp only [Plan.isLastUse, Plan.ofEntries, noted, decide_eq_false_iff_not, Option.some.injEq]
  omega

/-- A node that stands in a slot does so for as long as it is live. -/
theorem Live.stands {g : Graph α} {root n : Nat} {entries earlier later : List (Graph.Entry α)}
    {entry : Graph.Entry α} {table next : SlotTable} (ordered : g.Ordered root entries)
    (split : entries = earlier ++ entry :: later) (live : Live g entries (earlier ++ [entry]) n)
    (places : Places (Plan.ofEntries entries : Plan β) earlier.length entry table next)
    (before : Live g entries earlier n → ∃ s, table.Holds s n) : ∃ s, next.Holds s n := by
  cases places with
  | axis kind =>
      apply before
      rcases live.of_concat with rfl | old
      · exact ⟨live.1.of_concat, .inr ⟨_, kind ▸ (ordered.split split).1⟩⟩
      · exact old
  | result encodes =>
      rcases live.of_concat with rfl | old
      · exact ⟨_, SlotTable.holds_occupy.mpr (.inl ⟨rfl, rfl⟩)⟩
      · -- The node is used again later, so its slot is not among those that are freed.
        obtain ⟨s, held⟩ := before old
        have used : (Plan.ofEntries entries : Plan β).isLastUse n earlier.length = false :=
          live.1.isLastUse_eq_false
        exact ⟨s, SlotTable.holds_occupy.mpr (.inr (holds_freed_of_used held used))⟩

theorem stands_kept {g : Graph α} {root : Nat} {entries : List (Graph.Entry α)}
    (ordered : g.Ordered root entries) (n : Nat) :
    Kept (Plan.ofEntries entries : Plan β) entries
      fun earlier layout => Live g entries earlier n → ∃ s, layout.table.Holds s n :=
  fun split stands emits live => live.stands ordered split emits.places stands

theorem covers_kept {g : Graph α} {root : Nat} {entries : List (Graph.Entry α)}
    (ordered : g.Ordered root entries) :
    Kept (Plan.ofEntries entries : Plan β) entries
      fun earlier layout => Covers g entries earlier layout.table :=
  fun split covers emits n => stands_kept ordered n split (covers n) emits

end Lowering

namespace Graph

open Lowering

variable {α β : Type} [Sample β] [Narrow α β]

/-- Every tape that is laid out passes the check. -/
theorem check_of_lower {g : Graph α} {root : Nat} {tape : Tape β}
    (lowered : g.lower root = .ok tape) : tape.check = .ok () := by
  have closes := closes_of_lower lowered (fun _ => accepted_start _ (.ofEntries _))
    (fun _ => accepted_kept _)
  cases closes with
  | @intro entries before plan t layout op a b i ordered split planned accepted encodes made =>
      subst planned
      have member : (⟨root, t⟩ : Entry α) ∈ entries := by simp [split]
      exact check_close accepted (size_le_size_occupy_freed ..)
        (fun _ kind => Plan.mem_poolOf member kind) encodes made

theorem confined_of_lower {g : Graph α} {root : Nat} {tape : Tape β}
    (lowered : g.lower root = .ok tape) :
    Axis.slotCount ≤ tape.slotCount ∧ tape.slotCount ≤ 256 ∧
      ∀ i ∈ tape.code, ∃ op, i.Confined op tape.slotCount := by
  have closes := closes_of_lower lowered (fun _ => bounded_start _) (fun _ => bounded_kept _ _)
  cases closes with
  | @intro entries before plan t layout op a b i ordered split planned bounded encodes made =>
      obtain ⟨opcode, out, first, second⟩ := Instruction.fields_of_make made
      have grown := size_le_size_occupy_freed plan layout.table before.length root t
      have axes := Nat.le_trans bounded.axes grown
      refine ⟨axes, size_occupy_freed_le root bounded out, ?_⟩
      intro j member
      dsimp only [close] at member ⊢
      rcases List.mem_append.mp member with old | last
      · obtain ⟨op, confined⟩ := bounded.code j (List.mem_reverse.mp old)
        exact ⟨op, confined.mono grown⟩
      · -- The last instruction is moved to slot 0, which is the slot of an axis.
        cases List.mem_singleton.mp last
        exact ⟨op, confined_of_encodes grown encodes opcode first second
          (Nat.lt_of_lt_of_le (Nat.zero_lt_succ 3) axes)⟩

/-- Every tape that is laid out keeps the slot discipline: it passes the check, names no slot that
it does not declare, declares at least the slots of the axes and no more than a byte can name, and
copies nothing. -/
theorem lower_keeps_slot_discipline {g : Graph α} {root : Nat} {tape : Tape β}
    (lowered : g.lower root = .ok tape) :
    tape.check = .ok () ∧ 4 ≤ tape.slotCount ∧ tape.slotCount ≤ 256 ∧
      ∀ i ∈ tape.code, ∃ op, i.opcode = .ok op ∧ op ≠ .copy ∧ i.out.toNat < tape.slotCount ∧
        (∀ r ∈ i.reads op, r.toNat < tape.slotCount) ∧
        ((op = .const ∨ ∃ unary, op = .unary unary) → i.b = 0) := by
  obtain ⟨axes, bytes, confined⟩ := confined_of_lower lowered
  refine ⟨check_of_lower lowered, axes, bytes, fun i member => ?_⟩
  obtain ⟨op, confined⟩ := confined i member
  exact ⟨op, confined.opcode, confined.notCopy, confined.output, confined.inputs, confined.unread⟩

theorem lower_scaledSquare_keeps_slot_discipline :
    scaledSquare.lower 7 = .ok scaledSquareTape ∧ scaledSquareTape.check = .ok () ∧
      ∀ i ∈ scaledSquareTape.code, ∃ op, i.opcode = .ok op ∧ op ≠ .copy ∧ i.out.toNat < 4 ∧
        (∀ r ∈ i.reads op, r.toNat < 4) ∧
        ((op = .const ∨ ∃ unary, op = .unary unary) → i.b = 0) := by
  obtain ⟨checked, _, _, code⟩ := lower_keeps_slot_discipline lower_scaledSquare
  exact ⟨lower_scaledSquare, checked, code⟩

/-- Lowering fails only for a number that does not fit its field, if no axis has two nodes. -/
theorem lower_of_axesUnified {g : Graph α} {root : Nat} {t : Term α Nat}
    (stored : g.term? root = some t) (operator : t.axis? = none) (unified : g.AxesUnified root) :
    (∃ tape : Tape β, g.lower root = .ok tape) ∨
      ∃ field value, (g.lower root : Except Error (Tape β)) =
        .error (.internal (.fieldOverflow field value)) := by
  obtain ⟨before, listed⟩ := exists_postOrder_concat stored
  have ordered := (Ordered.of_postOrder listed).2
  rcases lower_induct (Plan.ofEntries (before ++ [⟨root, t⟩]) : Plan β) rfl listed rfl operator
    (covers_start ordered unified) (covers_kept ordered) with
    ⟨layout, op, a, b, i, _, _, _, closed⟩ |
    ⟨earlier, entry, later, stopped, e, split, covers, fails, failed⟩
  · exact .inl ⟨_, closed⟩
  · rw [failed]
    cases fails with
    | missing input absent =>
        obtain ⟨slot, found⟩ := covers.exists_slotOf? ordered split input
        rw [absent] at found
        cases found
    | overflow encodes made =>
        obtain ⟨field, value, _, rfl⟩ := Instruction.make_eq_error_iff.mp made
        exact .inr ⟨field, value, rfl⟩

end Graph

end SurfaceTape

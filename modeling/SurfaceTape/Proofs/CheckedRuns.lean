import SurfaceTape.Scalar.Binary
import SurfaceTape.Tape.Check
import SurfaceTape.Tape.Run
import Mathlib.Order.MinMax

/-!
# A checked tape runs

What the check promises of a tape that anyone may have put together. The marks of the check are the
slots on which two runs agree: an instruction in order reads marked slots only, so it writes one
value in both runs, and that is where the next mark is set. Nothing is assumed of the slots that
are not marked. A slot is marked because an axis stands there or because a result went there, so a
run stays within the declared slots and those of the axes.
-/

set_option autoImplicit false

namespace SurfaceTape

namespace Instruction

@[simp] theorem reads_unary (i : Instruction) (op : UnaryOp) : i.reads (.unary op) = [i.a] := rfl

@[simp] theorem reads_binary (i : Instruction) (op : BinaryOp) :
    i.reads (.binary op) = [i.a, i.b] := rfl

@[simp] theorem reads_copy (i : Instruction) : i.reads .copy = [i.a] := rfl

end Instruction

namespace Tape

variable {β : Type}

/-- What the check asks of one instruction when some slots are marked as written. -/
structure InOrder (tape : Tape β) (written : Slots Bool) (i : Instruction) (op : Opcode) :
    Prop where
  opcode : i.opcode = .ok op
  constant : op = .const → i.a.toNat < tape.constants.length
  reads : ∀ r ∈ i.reads op, written.read r = true
  output : i.out.toNat < tape.slotCount

theorem checkInstruction_eq_ok_iff {tape : Tape β} {index : Nat} {i : Instruction}
    {written after : Slots Bool} :
    tape.checkInstruction index i written = .ok after ↔
      ∃ op, tape.InOrder written i op ∧ after = written.write i.out true := by
  constructor
  · intro checked
    unfold checkInstruction at checked
    dsimp only at checked
    split at checked
    · cases checked
    · next op opcode =>
        split at checked
        · cases checked
        · next constant =>
            split at checked
            · cases checked
            · next reads =>
                split at checked
                · cases checked
                · next output =>
                    cases checked
                    refine ⟨op, ⟨opcode, ?_, ?_, Nat.not_le.mp output⟩, rfl⟩
                    · intro load
                      exact Nat.not_le.mp fun outside => constant ⟨load, outside⟩
                    · simpa using reads
  · rintro ⟨op, ordered, rfl⟩
    have constant : ¬(op = .const ∧ tape.constants.length ≤ i.a.toNat) :=
      fun fault => Nat.not_le.mpr (ordered.constant fault.1) fault.2
    have reads : ¬((i.reads op).any fun r => !written.read r) = true := by
      simpa using ordered.reads
    have output := Nat.not_le.mpr ordered.output
    simp only [checkInstruction, ordered.opcode, if_neg constant, if_neg reads, if_neg output]

private theorem checkFrom_cons_eq_ok_iff {tape : Tape β} {index : Nat} {i : Instruction}
    {rest : List Instruction} {written : Slots Bool} :
    tape.checkFrom index (i :: rest) written = .ok () ↔
      ∃ op, tape.InOrder written i op ∧
        tape.checkFrom (index + 1) rest (written.write i.out true) = .ok () := by
  rw [checkFrom]
  constructor
  · intro checked
    cases passed : tape.checkInstruction index i written with
    | error e =>
        rw [passed] at checked
        cases checked
    | ok marked =>
        rw [passed] at checked
        obtain ⟨op, ordered, rfl⟩ := checkInstruction_eq_ok_iff.mp passed
        exact ⟨op, ordered, checked⟩
  · rintro ⟨op, ordered, checked⟩
    rw [checkInstruction_eq_ok_iff.mpr ⟨op, ordered, rfl⟩]
    exact checked

def markAll (written : Slots Bool) (code : List Instruction) : Slots Bool :=
  code.foldl (fun written i => written.write i.out true) written

theorem read_markAll {written : Slots Bool} {code : List Instruction} {r : UInt8} :
    (markAll written code).read r = true ↔ written.read r = true ∨ ∃ i ∈ code, i.out = r := by
  induction code generalizing written with
  | nil => simp [markAll]
  | cons i rest ih =>
      rw [markAll, List.foldl_cons, ← markAll, ih, Slots.read_write]
      by_cases same : i.out = r
      · simp [same]
      · simp [same]

theorem read_writtenAtStart {r : UInt8} :
    writtenAtStart.read r = true ↔ r.toNat < Axis.slotCount := by
  simp [writtenAtStart, Slots.read]

/-- The check passes over instructions exactly when each of them is in order after those before
it. -/
theorem checkFrom_eq_ok_iff {tape : Tape β} {index : Nat} {code : List Instruction}
    {written : Slots Bool} :
    tape.checkFrom index code written = .ok () ↔
      ∀ before i after, code = before ++ i :: after →
        ∃ op, tape.InOrder (markAll written before) i op := by
  induction code generalizing index written with
  | nil => simp [checkFrom]
  | cons head rest ih =>
      rw [checkFrom_cons_eq_ok_iff]
      constructor
      · rintro ⟨op, ordered, checked⟩ before i after split
        cases before with
        | nil =>
            cases split
            exact ⟨op, ordered⟩
        | cons first before =>
            cases split
            exact ih.mp checked before i after rfl
      · intro each
        obtain ⟨op, ordered⟩ := each [] head rest rfl
        refine ⟨op, ordered, ih.mpr fun before i after split => ?_⟩
        exact each (head :: before) i after (by rw [split, List.cons_append])

theorem checkFrom_of_check {tape : Tape β} (checked : tape.check = .ok ()) :
    tape.checkFrom 0 tape.code writtenAtStart = .ok () := by
  unfold check at checked
  split at checked
  · cases checked
  · next passed => exact passed

theorem output_lt_of_check {tape : Tape β} (checked : tape.check = .ok ()) {i : Instruction}
    (member : i ∈ tape.code) : i.out.toNat < tape.slotCount := by
  obtain ⟨before, after, split⟩ := List.append_of_mem member
  obtain ⟨op, ordered⟩ := checkFrom_eq_ok_iff.mp (checkFrom_of_check checked) before i after split
  exact ordered.output

def AgreeOn (written : Slots Bool) (s s' : Slots β) : Prop :=
  ∀ r, written.read r = true → s.read r = s'.read r

private theorem AgreeOn.write {written : Slots Bool} {s s' : Slots β} (agree : AgreeOn written s s')
    (out : UInt8) (v : β) : AgreeOn (written.write out true) (s.write out v) (s'.write out v) := by
  intro r marked
  rw [Slots.read_write] at marked ⊢
  rw [Slots.read_write]
  split
  · rfl
  · next other =>
      rw [if_neg other] at marked
      exact agree r marked

variable [Sample β]

/-- What an instruction writes depends on nothing but the slots that it is said to read. -/
theorem exists_step {constants : List β} {i : Instruction} {op : Opcode} {s s' : Slots β}
    (index : Nat) (opcode : i.opcode = .ok op)
    (constant : op = .const → i.a.toNat < constants.length)
    (same : ∀ r ∈ i.reads op, s.read r = s'.read r) :
    ∃ v, step constants index i s = .ok (s.write i.out v) ∧
      step constants index i s' = .ok (s'.write i.out v) := by
  cases op with
  | const =>
      obtain ⟨c, found⟩ : ∃ c, constants[i.a.toNat]? = some c :=
        ⟨_, List.getElem?_eq_getElem (constant rfl)⟩
      refine ⟨c, ?_, ?_⟩ <;> simp only [step, opcode, found]
  | unary op =>
      have first : s.read i.a = s'.read i.a := same i.a (by simp)
      refine ⟨Arith.unary op (s.read i.a), ?_, ?_⟩
      · simp only [step, opcode]
      · simp only [step, opcode, first]
  | binary op =>
      have first : s.read i.a = s'.read i.a := same i.a (by simp)
      have second : s.read i.b = s'.read i.b := same i.b (by simp)
      refine ⟨Arith.binary op (s.read i.a) (s.read i.b), ?_, ?_⟩
      · simp only [step, opcode]
      · simp only [step, opcode, first, second]
  | copy =>
      have first : s.read i.a = s'.read i.a := same i.a (by simp)
      refine ⟨s.read i.a, ?_, ?_⟩
      · simp only [step, opcode]
      · simp only [step, opcode, first]

/-- Two runs of code in order end, and still agree wherever they agreed at the start. -/
theorem exists_steps {tape : Tape β} {index : Nat} {code : List Instruction}
    {written : Slots Bool} {s s' : Slots β}
    (checked : tape.checkFrom index code written = .ok ()) (agree : AgreeOn written s s') :
    ∃ final final', steps tape.constants index code s = .ok final ∧
      steps tape.constants index code s' = .ok final' ∧ AgreeOn written final final' := by
  induction code generalizing index written s s' with
  | nil => exact ⟨s, s', rfl, rfl, agree⟩
  | cons i rest ih =>
      obtain ⟨op, ordered, rest⟩ := checkFrom_cons_eq_ok_iff.mp checked
      obtain ⟨v, stepped, stepped'⟩ := exists_step index ordered.opcode ordered.constant
        fun r member => agree r (ordered.reads r member)
      obtain ⟨final, final', ran, ran', agreed⟩ := ih rest (agree.write i.out v)
      refine ⟨final, final', ?_, ?_, fun r old => agreed r ?_⟩
      · rw [steps, stepped]
        exact ran
      · rw [steps, stepped']
        exact ran'
      · rw [Slots.read_write, old, ite_self]

theorem exists_runFrom {tape : Tape β} {s s' : Slots β} (checked : tape.check = .ok ())
    (agree : ∀ r : UInt8, r.toNat < Axis.slotCount → s.read r = s'.read r) :
    ∃ v, tape.runFrom s = .ok v ∧ tape.runFrom s' = .ok v := by
  obtain ⟨final, final', ran, ran', agreed⟩ := exists_steps (checkFrom_of_check checked)
    fun r marked => agree r (read_writtenAtStart.mp marked)
  have result : final.read 0 = final'.read 0 := agreed 0 (read_writtenAtStart.mpr (by decide))
  exact ⟨final.read 0, by rw [runFrom, ran]; rfl, by rw [runFrom, ran', result]; rfl⟩

/-- A tape that passes the check runs to a result at every point, the result does not depend on what
the slots above those of the axes hold at the start, and no instruction reads a slot that neither
belongs to an axis nor was written before. -/
theorem check_sound {tape : Tape β} (checked : tape.check = .ok ()) :
    (∀ p, ∃ v, tape.run p = .ok v) ∧
    (∀ s s' : Slots β, (∀ r : UInt8, r.toNat < 4 → s.read r = s'.read r) →
      ∃ v, tape.runFrom s = .ok v ∧ tape.runFrom s' = .ok v) ∧
    ∀ before i after, tape.code = before ++ i :: after →
      ∃ op, i.opcode = .ok op ∧
        ∀ r ∈ i.reads op, r.toNat < 4 ∨ ∃ earlier ∈ before, earlier.out = r := by
  refine ⟨fun p => ?_, fun s s' agree => exists_runFrom checked agree, ?_⟩
  · obtain ⟨v, ran, _⟩ := exists_runFrom checked (s := initialSlots p) fun _ _ => rfl
    exact ⟨v, ran⟩
  · intro before i after split
    obtain ⟨op, ordered⟩ := checkFrom_eq_ok_iff.mp (checkFrom_of_check checked) before i after split
    refine ⟨op, ordered.opcode, fun r member => ?_⟩
    rcases read_markAll.mp (ordered.reads r member) with start | written
    · exact .inl (read_writtenAtStart.mp start)
    · exact .inr written

/-- A tape that no expression is compiled to: it copies, it overwrites an axis and one of its own
inputs, and fields that are not read name slots that are never written. -/
def patchwork : Tape Float32 where
  code := [⟨12, 9, 3, 77⟩, ⟨6, 3, 9, 9⟩, ⟨5, 9, 9, 200⟩, ⟨8, 0, 3, 9⟩]
  constants := []
  slotCount := 10

theorem check_patchwork_sound :
    patchwork.check = .ok () ∧ (∃ v, patchwork.run ⟨1, 2, 3, 4⟩ = .ok v) ∧
      ∃ v, patchwork.runFrom (initialSlots ⟨1, 2, 3, 4⟩) = .ok v ∧
        patchwork.runFrom ((initialSlots ⟨1, 2, 3, 4⟩).write 77 5) = .ok v := by
  have checked : patchwork.check = .ok () := by decide +kernel
  obtain ⟨runs, agree, _⟩ := check_sound checked
  refine ⟨checked, runs _, agree _ _ fun r axis => ?_⟩
  rw [Slots.read_write, if_neg]
  rintro rfl
  exact absurd axis (by decide)

theorem read_of_step {constants : List β} {index : Nat} {i : Instruction} {s next : Slots β}
    (stepped : step constants index i s = .ok next) {r : UInt8} (other : i.out ≠ r) :
    next.read r = s.read r := by
  have unwritten (v : β) : (s.write i.out v).read r = s.read r := by
    rw [Slots.read_write, if_neg other]
  unfold step at stepped
  split at stepped
  · cases stepped
  · split at stepped
    · cases stepped
      exact unwritten _
    · cases stepped
  · cases stepped
    exact unwritten _
  · cases stepped
    exact unwritten _
  · cases stepped
    exact unwritten _

/-- A slot that no instruction writes keeps what it held. -/
theorem read_of_steps {constants : List β} {index : Nat} {code : List Instruction}
    {s final : Slots β} (ran : steps constants index code s = .ok final) {r : UInt8}
    (unwritten : ∀ i ∈ code, i.out ≠ r) : final.read r = s.read r := by
  induction code generalizing index s with
  | nil =>
      cases ran
      rfl
  | cons i rest ih =>
      rw [steps] at ran
      split at ran
      · cases ran
      · next next stepped =>
          have later := ih ran fun j member => unwritten j (List.mem_cons_of_mem i member)
          exact later.trans (read_of_step stepped (unwritten i List.mem_cons_self))

/-- A tape that passes the check stays within the slots that it declares, the slots of the axes
apart, which are there whatever it declares: it writes no slot above, and reads none. -/
theorem check_confines {tape : Tape β} (checked : tape.check = .ok ()) :
    (∀ i ∈ tape.code, ∃ op, i.opcode = .ok op ∧ i.out.toNat < tape.slotCount ∧
      ∀ r ∈ i.reads op, r.toNat < max 4 tape.slotCount) ∧
    ∀ s : Slots β, ∃ final, steps tape.constants 0 tape.code s = .ok final ∧
      ∀ r : UInt8, tape.slotCount ≤ r.toNat → final.read r = s.read r := by
  have passed := checkFrom_of_check checked
  constructor
  · intro i member
    obtain ⟨before, after, split⟩ := List.append_of_mem member
    obtain ⟨op, ordered⟩ := checkFrom_eq_ok_iff.mp passed before i after split
    refine ⟨op, ordered.opcode, ordered.output, fun r read => lt_max_iff.mpr ?_⟩
    -- A marked slot belongs to an axis, or its mark comes from an output that was checked before.
    rcases read_markAll.mp (ordered.reads r read) with start | ⟨earlier, written, rfl⟩
    · exact .inl (read_writtenAtStart.mp start)
    · exact .inr (output_lt_of_check checked (by simp [split, written]))
  · intro s
    obtain ⟨final, _, ran, _⟩ := exists_steps passed (s := s) fun _ _ => rfl
    refine ⟨final, ran, fun r outside => read_of_steps ran fun i member same => ?_⟩
    have inside := output_lt_of_check checked member
    rw [same] at inside
    omega

/-- The last axis times its negation, in a tape that declares two slots. -/
def negatedSquare : Tape Float32 where
  code := [⟨5, 1, 3, 0⟩, ⟨8, 0, 1, 3⟩]
  constants := []
  slotCount := 2

/-- The one tape reads an axis that it does not declare, the other a result above the axes. -/
theorem check_negatedSquare_confines :
    negatedSquare.check = .ok () ∧ patchwork.check = .ok () ∧
      (∀ i ∈ negatedSquare.code, ∃ op, i.opcode = .ok op ∧ i.out.toNat < 2 ∧
        ∀ r ∈ i.reads op, r.toNat < 4) ∧
      (∀ i ∈ patchwork.code, ∃ op, i.opcode = .ok op ∧ i.out.toNat < 10 ∧
        ∀ r ∈ i.reads op, r.toNat < 10) ∧
      ∀ s : Slots Float32, ∃ final, steps [] 0 negatedSquare.code s = .ok final ∧
        ∀ r : UInt8, 2 ≤ r.toNat → final.read r = s.read r := by
  have checked : negatedSquare.check = .ok () := by decide +kernel
  have checked' : patchwork.check = .ok () := by decide +kernel
  obtain ⟨code, runs⟩ := check_confines checked
  obtain ⟨code', _⟩ := check_confines checked'
  exact ⟨checked, checked', code, code', runs⟩

/-- The negation of the last axis, in a tape that declares one slot. -/
def lastAxisNegated : Tape Float32 where
  code := [⟨5, 0, 3, 0⟩]
  constants := []
  slotCount := 1

/-- The check lets a tape read the slot of an axis that it does not declare. -/
theorem check_admits_undeclared_axis :
    ¬∀ tape : Tape Float32, tape.check = .ok () → ∀ i ∈ tape.code, ∀ op, i.opcode = .ok op →
      i.out.toNat < tape.slotCount ∧ ∀ r ∈ i.reads op, r.toNat < tape.slotCount := by
  intro confined
  obtain ⟨_, reads⟩ := confined lastAxisNegated (by decide +kernel) ⟨5, 0, 3, 0⟩ List.mem_cons_self
    (.unary .neg) rfl
  exact absurd (reads 3 List.mem_cons_self) (by decide)

end Tape

end SurfaceTape

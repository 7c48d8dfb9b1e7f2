import SurfaceTape.Proofs.CheckedRuns
import SurfaceTape.Proofs.InstructionWords
import Mathlib.Data.List.Basic

/-!
# What the check decides

The rules for an instruction, said without marks: a slot may be read if it belongs to an axis or is
the output of an instruction that comes before. The marks of the check are the record of those
outputs. So it accepts exactly the tapes that keep the rules and end in slot 0, and what it reports
of another tape is the first rule that is broken, in the order of the instructions and then of the
rules.
-/

set_option autoImplicit false

namespace SurfaceTape

namespace Instruction

/-- The instruction reads the slot. A load reads none, an operator on two numbers reads two. -/
inductive ReadsSlot (i : Instruction) : UInt8 → Prop where
  | unary {op : UnaryOp} (opcode : i.opcode = .ok (.unary op)) : ReadsSlot i i.a
  | first {op : BinaryOp} (opcode : i.opcode = .ok (.binary op)) : ReadsSlot i i.a
  | second {op : BinaryOp} (opcode : i.opcode = .ok (.binary op)) : ReadsSlot i i.b
  | copy (opcode : i.opcode = .ok .copy) : ReadsSlot i i.a

theorem readsSlot_iff {i : Instruction} {op : Opcode} (opcode : i.opcode = .ok op) {r : UInt8} :
    i.ReadsSlot r ↔ r ∈ i.reads op := by
  constructor
  · intro read
    cases read with
    | unary known =>
        cases opcode.symm.trans known
        simp
    | first known =>
        cases opcode.symm.trans known
        simp
    | second known =>
        cases opcode.symm.trans known
        simp
    | copy known =>
        cases opcode.symm.trans known
        simp
  · intro member
    cases op with
    | const => cases member
    | unary op =>
        cases List.mem_singleton.mp member
        exact .unary opcode
    | binary op =>
        rcases List.mem_pair.mp member with rfl | rfl
        · exact .first opcode
        · exact .second opcode
    | copy =>
        cases List.mem_singleton.mp member
        exact .copy opcode

end Instruction

namespace Tape

variable {β : Type}

inductive Rule where
  | opcode
  | constant
  | reads
  | output

namespace Rule

def rank : Rule → Nat
  | .opcode => 0
  | .constant => 1
  | .reads => 2
  | .output => 3

/-- What the rule asks of an instruction that comes after some others. -/
def Kept (tape : Tape β) (before : List Instruction) (i : Instruction) : Rule → Prop
  | .opcode => i.op.toNat ≤ 12
  | .constant => i.opcode = .ok .const → i.a.toNat < tape.constants.length
  | .reads => ∀ r, i.ReadsSlot r → r.toNat < 4 ∨ ∃ earlier ∈ before, earlier.out = r
  | .output => i.out.toNat < tape.slotCount

def error (position : Nat) (i : Instruction) : Rule → Error
  | .opcode => .badOpcode i.op
  | .constant => .internal (.slotDiscipline position .constantRange)
  | .reads => .internal (.slotDiscipline position .readBeforeWrite)
  | .output => .internal (.slotDiscipline position .outputRange)

private theorem forall_iff {holds : Rule → Prop} : (∀ rule, holds rule) ↔
    holds .opcode ∧ holds .constant ∧ holds .reads ∧ holds .output := by
  constructor
  · intro all
    exact ⟨all _, all _, all _, all _⟩
  · intro each rule
    cases rule with
    | opcode => exact each.1
    | constant => exact each.2.1
    | reads => exact each.2.2.1
    | output => exact each.2.2.2

private theorem eq_of_rank {rule other : Rule} (same : rule.rank = other.rank) : rule = other := by
  cases rule <;> cases other <;> simp_all [rank]

end Rule

structure FirstBroken (tape : Tape β) (before : List Instruction) (i : Instruction) (rule : Rule) :
    Prop where
  broken : ¬rule.Kept tape before i
  first : ∀ other : Rule, other.rank < rule.rank → other.Kept tape before i

def KeepsRules (tape : Tape β) (code : List Instruction) : Prop :=
  ∀ before i after, code = before ++ i :: after → ∀ rule : Rule, rule.Kept tape before i

theorem FirstBroken.unique {tape : Tape β} {before : List Instruction} {i : Instruction}
    {rule other : Rule} (broken : tape.FirstBroken before i rule)
    (broken' : tape.FirstBroken before i other) : rule = other := by
  rcases Nat.lt_trichotomy rule.rank other.rank with sooner | same | later
  · exact absurd (broken'.first rule sooner) broken.broken
  · exact Rule.eq_of_rank same
  · exact absurd (broken.first other later) broken'.broken

/-- The marks after some instructions record their outputs. -/
private theorem read_markAll_writtenAtStart {before : List Instruction} {r : UInt8} :
    (markAll writtenAtStart before).read r = true ↔
      r.toNat < 4 ∨ ∃ earlier ∈ before, earlier.out = r := by
  rw [read_markAll, read_writtenAtStart]
  rfl

private theorem kept_reads_iff {tape : Tape β} {before : List Instruction} {i : Instruction}
    {op : Opcode} (opcode : i.opcode = .ok op) :
    Rule.reads.Kept tape before i ↔
      ∀ r ∈ i.reads op, (markAll writtenAtStart before).read r = true := by
  simp only [Rule.Kept, Instruction.readsSlot_iff opcode, read_markAll_writtenAtStart]

/-- Checking an instruction passes if it keeps all rules, and reports the first one that it does
not keep. -/
theorem checkInstruction_cases (tape : Tape β) (before : List Instruction) (i : Instruction)
    (position : Nat) :
    (tape.checkInstruction position i (markAll writtenAtStart before) =
        .ok ((markAll writtenAtStart before).write i.out true) ∧
      ∀ rule : Rule, rule.Kept tape before i) ∨
    ∃ rule, tape.checkInstruction position i (markAll writtenAtStart before) =
        .error (rule.error position i) ∧ tape.FirstBroken before i rule := by
  cases opcode : i.opcode with
  | error e =>
      obtain ⟨unknown, rfl⟩ := Instruction.opcode_eq_error_iff.mp opcode
      refine .inr ⟨.opcode, ?_, Nat.not_le.mpr unknown, ?_⟩
      · simp only [checkInstruction, opcode]
        rfl
      · simp [Rule.rank]
  | ok op =>
      have known : Rule.opcode.Kept tape before i := by
        refine Nat.not_lt.mp fun unknown => ?_
        cases opcode.symm.trans (Instruction.opcode_eq_error_iff.mpr ⟨unknown, rfl⟩)
      by_cases outside : op = .const ∧ tape.constants.length ≤ i.a.toNat
      · refine .inr ⟨.constant, ?_, ?_, ?_⟩
        · simp only [checkInstruction, opcode, if_pos outside]
          rfl
        · intro kept
          exact Nat.not_le.mpr (kept (outside.1 ▸ opcode)) outside.2
        · simp [Rule.forall_iff, Rule.rank, known]
      have constant : Rule.constant.Kept tape before i := by
        intro load
        cases opcode.symm.trans load
        exact Nat.not_le.mp fun large => outside ⟨rfl, large⟩
      by_cases unmarked : ((i.reads op).any fun r => !(markAll writtenAtStart before).read r) = true
      · refine .inr ⟨.reads, ?_, ?_, ?_⟩
        · simp only [checkInstruction, opcode, if_neg outside, if_pos unmarked]
          rfl
        · rw [kept_reads_iff opcode]
          simpa using unmarked
        · simp [Rule.forall_iff, Rule.rank, known, constant]
      have reads : Rule.reads.Kept tape before i := by
        rw [kept_reads_iff opcode]
        simpa using unmarked
      by_cases beyond : tape.slotCount ≤ i.out.toNat
      · refine .inr ⟨.output, ?_, Nat.not_lt.mpr beyond, ?_⟩
        · simp only [checkInstruction, opcode, if_neg outside, if_neg unmarked, if_pos beyond]
          rfl
        · simp [Rule.forall_iff, Rule.rank, known, constant, reads]
      · refine .inl ⟨?_, Rule.forall_iff.mpr ⟨known, constant, reads, Nat.not_le.mp beyond⟩⟩
        simp only [checkInstruction, opcode, if_neg outside, if_neg unmarked, if_neg beyond]

theorem checkInstruction_eq_error_iff {tape : Tape β} {before : List Instruction} {i : Instruction}
    {position : Nat} {e : Error} :
    tape.checkInstruction position i (markAll writtenAtStart before) = .error e ↔
      ∃ rule, tape.FirstBroken before i rule ∧ e = rule.error position i := by
  rcases tape.checkInstruction_cases before i position with
    ⟨passed, kept⟩ | ⟨rule, failed, broken⟩
  · rw [passed]
    constructor
    · intro failed
      cases failed
    · intro reported
      obtain ⟨rule, broken, _⟩ := reported
      exact absurd (kept rule) broken.broken
  · rw [failed, Except.error.injEq]
    constructor
    · intro same
      exact ⟨rule, broken, same.symm⟩
    · intro reported
      obtain ⟨other, broken', same⟩ := reported
      rw [same, broken.unique broken']

private theorem exists_inOrder_iff {tape : Tape β} {before : List Instruction} {i : Instruction} :
    (∃ op, tape.InOrder (markAll writtenAtStart before) i op) ↔
      ∀ rule : Rule, rule.Kept tape before i := by
  rcases tape.checkInstruction_cases before i 0 with ⟨passed, kept⟩ | ⟨rule, failed, broken⟩
  · obtain ⟨op, ordered, _⟩ := checkInstruction_eq_ok_iff.mp passed
    exact ⟨fun _ => kept, fun _ => ⟨op, ordered⟩⟩
  · constructor
    · intro ordered
      obtain ⟨op, ordered⟩ := ordered
      cases failed.symm.trans (checkInstruction_eq_ok_iff.mpr ⟨op, ordered, rfl⟩)
    · intro kept
      exact absurd (kept rule) broken.broken

theorem checkFrom_eq_ok_iff_keepsRules {tape : Tape β} {code : List Instruction} :
    tape.checkFrom 0 code writtenAtStart = .ok () ↔ tape.KeepsRules code := by
  simp only [checkFrom_eq_ok_iff, exists_inOrder_iff, KeepsRules]

/-- The check stops at the first instruction that does not pass, with the marks of those before. -/
theorem checkFrom_eq_error_iff {tape : Tape β} {index : Nat} {code : List Instruction}
    {written : Slots Bool} {e : Error} :
    tape.checkFrom index code written = .error e ↔
      ∃ before i after, code = before ++ i :: after ∧
        tape.checkFrom index before written = .ok () ∧
        tape.checkInstruction (index + before.length) i (markAll written before) = .error e := by
  induction code generalizing index written with
  | nil => simp [checkFrom]
  | cons head rest ih =>
      rw [checkFrom]
      cases checked : tape.checkInstruction index head written with
      | error e' =>
          constructor
          · intro same
            cases same
            exact ⟨[], head, rest, rfl, rfl, checked⟩
          · intro stopped
            obtain ⟨before, i, after, split, passed, failed⟩ := stopped
            cases before with
            | nil =>
                cases split
                cases checked.symm.trans failed
                rfl
            | cons first before =>
                cases split
                rw [checkFrom, checked] at passed
                cases passed
      | ok marked =>
          obtain ⟨_, _, rfl⟩ := checkInstruction_eq_ok_iff.mp checked
          have position (before : List Instruction) :
              index + (head :: before).length = index + 1 + before.length := by
            rw [List.length_cons]
            omega
          refine ih.trans ⟨fun stopped => ?_, fun stopped => ?_⟩
          · obtain ⟨before, i, after, split, passed, failed⟩ := stopped
            refine ⟨head :: before, i, after, by rw [split, List.cons_append], ?_, ?_⟩
            · rw [checkFrom, checked]
              exact passed
            · rw [position]
              exact failed
          · obtain ⟨before, i, after, split, passed, failed⟩ := stopped
            cases before with
            | nil =>
                cases split
                cases checked.symm.trans failed
            | cons first before =>
                cases split
                rw [checkFrom, checked] at passed
                rw [position] at failed
                exact ⟨before, i, after, rfl, passed, failed⟩

theorem checkFrom_eq_error_iff_firstBroken {tape : Tape β} {code : List Instruction} {e : Error} :
    tape.checkFrom 0 code writtenAtStart = .error e ↔
      ∃ before i after rule, code = before ++ i :: after ∧ tape.KeepsRules before ∧
        tape.FirstBroken before i rule ∧ e = rule.error before.length i := by
  simp only [checkFrom_eq_error_iff, checkFrom_eq_ok_iff_keepsRules, checkInstruction_eq_error_iff,
    Nat.zero_add, exists_and_left]

theorem check_eq_ok_iff {tape : Tape β} :
    tape.check = .ok () ↔ tape.checkFrom 0 tape.code writtenAtStart = .ok () ∧
      ∃ front last, tape.code = front ++ [last] ∧ last.out = 0 := by
  rw [check]
  cases tape.checkFrom 0 tape.code writtenAtStart with
  | error e => simp
  | ok _ =>
      rcases List.eq_nil_or_concat' tape.code with empty | ⟨front, last, split⟩
      · simp [empty]
      · simp [split]

theorem check_eq_error_iff {tape : Tape β} {e : Error} :
    tape.check = .error e ↔ tape.checkFrom 0 tape.code writtenAtStart = .error e ∨
      tape.checkFrom 0 tape.code writtenAtStart = .ok () ∧
        (tape.code = [] ∧ e = .emptyTape ∨
          ∃ front last, tape.code = front ++ [last] ∧ last.out ≠ 0 ∧
            e = .internal (.slotDiscipline front.length .finalOutput)) := by
  rw [check]
  cases tape.checkFrom 0 tape.code writtenAtStart with
  | error e => simp
  | ok _ =>
      rcases List.eq_nil_or_concat' tape.code with empty | ⟨front, last, split⟩
      · simpa [empty] using eq_comm
      · by_cases zero : last.out = 0
        · simp [split, zero]
        · simpa [split, zero] using eq_comm

/-- The check accepts exactly the tapes whose instructions keep the rules and the last of which
writes slot 0. What it reports of any other tape is the first rule that the first instruction in
fault breaks. Only if no instruction is in fault, it is that the last one writes another slot, or
that there is none. -/
theorem check_decides_rules (tape : Tape β) :
    (tape.check = .ok () ↔
      tape.KeepsRules tape.code ∧ ∃ front last, tape.code = front ++ [last] ∧ last.out = 0) ∧
    ∀ e, tape.check = .error e ↔
      (∃ before i after rule, tape.code = before ++ i :: after ∧ tape.KeepsRules before ∧
        tape.FirstBroken before i rule ∧ e = rule.error before.length i) ∨
      tape.KeepsRules tape.code ∧
        (tape.code = [] ∧ e = .emptyTape ∨
          ∃ front last, tape.code = front ++ [last] ∧ last.out ≠ 0 ∧
            e = .internal (.slotDiscipline front.length .finalOutput)) := by
  constructor
  · rw [check_eq_ok_iff, checkFrom_eq_ok_iff_keepsRules]
  · intro e
    rw [check_eq_error_iff, checkFrom_eq_ok_iff_keepsRules, checkFrom_eq_error_iff_firstBroken]

end Tape

end SurfaceTape

import SurfaceTape.Lowering.Basic
import SurfaceTape.Proofs.AxisUnification
import SurfaceTape.Proofs.InstructionWords

/-!
# How code is laid out

What a slot table says after each of its updates, what a plan knows of its entries, and what laying
out one entry can do: nothing for an axis, one instruction otherwise, or one of two failures. An
invariant of code layout needs to be checked against that one step only.
-/

set_option autoImplicit false

namespace SurfaceTape

namespace SlotTable

def Holds (table : SlotTable) (slot node : Nat) : Prop := table.cells[slot]? = some (some node)

theorem Holds.node_unique {table : SlotTable} {slot n m : Nat} (first : table.Holds slot n)
    (second : table.Holds slot m) : n = m := by
  rw [Holds, first] at second
  exact Option.some.inj (Option.some.inj second)

theorem holds_of_slotOf? {table : SlotTable} {slot node : Nat}
    (found : table.slotOf? node = some slot) : table.Holds slot node := by
  obtain ⟨inside, same, _⟩ := List.findIdx?_eq_some_iff_getElem.mp found
  rw [Holds, List.getElem?_eq_getElem inside]
  exact congrArg some (of_decide_eq_true same)

theorem exists_slotOf? {table : SlotTable} {slot node : Nat} (held : table.Holds slot node) :
    ∃ first, table.slotOf? node = some first := by
  cases found : table.slotOf? node with
  | some first => exact ⟨first, rfl⟩
  | none =>
      have excluded := List.findIdx?_eq_none_iff.mp found _ (List.mem_of_getElem? held)
      simp at excluded

def vacateAll (table : SlotTable) (cells : List (Nat × Nat)) : SlotTable :=
  cells.foldl (fun table cell => table.vacate cell.1) table

theorem holds_vacate {table : SlotTable} {slot s n : Nat} :
    (table.vacate slot).Holds s n ↔ table.Holds s n ∧ s ≠ slot := by
  simp only [Holds, vacate, List.getElem?_set]
  by_cases same : slot = s
  · simp [same]
  · simp [same, Ne.symm same]

theorem holds_vacateAll {table : SlotTable} {cells : List (Nat × Nat)} {s n : Nat} :
    (table.vacateAll cells).Holds s n ↔ table.Holds s n ∧ s ∉ cells.map Prod.fst := by
  induction cells generalizing table with
  | nil => simp [vacateAll]
  | cons cell rest ih =>
      rw [vacateAll, List.foldl_cons, ← vacateAll, ih, holds_vacate, and_assoc, ← not_or]
      simp only [List.map_cons, List.mem_cons]

@[simp] theorem size_vacateAll (table : SlotTable) (cells : List (Nat × Nat)) :
    (table.vacateAll cells).size = table.size := by
  induction cells generalizing table with
  | nil => rfl
  | cons cell rest ih =>
      rw [vacateAll, List.foldl_cons, ← vacateAll, ih]
      exact List.length_set

theorem not_holds_freeSlot {table : SlotTable} {node : Nat} : ¬table.Holds table.freeSlot node := by
  intro held
  obtain ⟨inside, same⟩ := List.getElem?_eq_some_iff.mp held
  have free : table.cells[table.freeSlot].isNone = true := List.findIdx_getElem
  rw [same] at free
  cases free

private theorem getElem?_occupy (table : SlotTable) (node s : Nat) :
    (table.occupy node).cells[s]? =
      if s = table.freeSlot then some (some node) else table.cells[s]? := by
  have bound : table.freeSlot ≤ table.cells.length := List.findIdx_le_length
  unfold occupy
  dsimp only
  split
  · next reused =>
      have inside : table.freeSlot < table.cells.length := reused
      rw [List.getElem?_set, if_pos inside]
      simp only [eq_comm]
  · next grown =>
      have last : table.freeSlot = table.cells.length := Nat.le_antisymm bound (Nat.not_lt.mp grown)
      rw [last]
      split
      · next same => rw [same, List.getElem?_concat_length]
      · next other =>
          rw [List.getElem?_append]
          split
          · rfl
          · next outside =>
              rw [List.getElem?_eq_none (by simp; omega), List.getElem?_eq_none (by omega)]

theorem holds_occupy {table : SlotTable} {node s n : Nat} :
    (table.occupy node).Holds s n ↔ s = table.freeSlot ∧ n = node ∨ table.Holds s n := by
  rw [Holds, getElem?_occupy]
  split
  · next same =>
      rw [same]
      simp [not_holds_freeSlot, eq_comm]
  · next other => simp [other, Holds]

theorem size_le_size_occupy (table : SlotTable) (node : Nat) :
    table.size ≤ (table.occupy node).size := by
  unfold occupy
  dsimp only
  split <;> simp [size]

theorem freeSlot_lt_size_occupy (table : SlotTable) (node : Nat) :
    table.freeSlot < (table.occupy node).size := by
  have bound : table.freeSlot ≤ table.size := List.findIdx_le_length
  unfold occupy
  dsimp only
  split
  · next reused => simpa [size] using reused
  · simpa [size, Nat.lt_succ_iff] using bound

end SlotTable

namespace Plan

variable {α β : Type} [Sample β] [Narrow α β]

private theorem mem_addConstant_self (pool : List β) (c : β) : c ∈ addConstant pool c := by
  unfold addConstant
  split
  · next shared =>
      obtain ⟨d, member, same⟩ := List.any_eq_true.mp shared
      exact Sample.eq_of_bits (eq_of_beq same) ▸ member
  · exact List.mem_append_right pool List.mem_cons_self

private theorem mem_addConstant {pool : List β} {d : β} (c : β) (member : d ∈ pool) :
    d ∈ addConstant pool c := by
  unfold addConstant
  split
  · exact member
  · exact List.mem_append_left [c] member

private theorem mem_foldl_addConstant {constants : List β} {c : β} {pool : List β}
    (member : c ∈ constants ∨ c ∈ pool) : c ∈ constants.foldl addConstant pool := by
  induction constants generalizing pool with
  | nil => simpa using member
  | cons d rest ih =>
      rw [List.foldl_cons]
      apply ih
      rcases member with listed | pooled
      · rcases List.mem_cons.mp listed with rfl | later
        · exact .inr (mem_addConstant_self pool c)
        · exact .inl later
      · exact .inr (mem_addConstant d pooled)

theorem mem_poolOf {entries : List (Graph.Entry α)} {entry : Graph.Entry α} {c : α}
    (member : entry ∈ entries) (kind : entry.term = .const c) :
    (Narrow.narrow c : β) ∈ poolOf entries := by
  apply mem_foldl_addConstant
  refine .inl (List.mem_filterMap.mpr ⟨entry, member, ?_⟩)
  rw [kind]
  rfl

theorem getElem?_poolIndex {pool : List β} {c : β} (member : c ∈ pool) :
    pool[poolIndex pool c]? = some c := by
  have inside : poolIndex pool c < pool.length :=
    List.findIdx_lt_length_of_exists ⟨c, member, beq_self_eq_true _⟩
  have same : Sample.bits pool[poolIndex pool c] = Sample.bits c :=
    eq_of_beq (List.findIdx_getElem (p := fun d => Sample.bits d == Sample.bits c) (w := inside))
  rw [List.getElem?_eq_getElem inside, Sample.eq_of_bits same]

theorem getElem?_noteUses (uses : Std.TreeMap Nat Nat) (entry : Graph.Entry α) (position n : Nat) :
    (noteUses uses (entry, position))[n]? =
      if n ∈ entry.term.inputs then some position else uses[n]? := by
  unfold noteUses
  dsimp only
  induction entry.term.inputs generalizing uses with
  | nil => simp
  | cons a rest ih =>
      rw [List.foldl_cons, ih, Std.TreeMap.getElem?_insert]
      simp only [Nat.compare_eq_eq]
      grind

private theorem exists_lastUse_foldl {later : List (Graph.Entry α)} {n used position : Nat}
    {uses : Std.TreeMap Nat Nat} (passed : used ≤ position)
    (noted : ∃ last, used ≤ last ∧ uses[n]? = some last) :
    ∃ last, used ≤ last ∧ ((later.zipIdx position).foldl noteUses uses)[n]? = some last := by
  induction later generalizing position uses with
  | nil => exact noted
  | cons entry later ih =>
      rw [List.zipIdx_cons, List.foldl_cons]
      apply ih (Nat.le_succ_of_le passed)
      rw [getElem?_noteUses]
      split
      · exact ⟨position, passed, rfl⟩
      · exact noted

/-- The last use of a node is not before any of its uses. -/
theorem exists_lastUse (earlier later : List (Graph.Entry α)) {entry : Graph.Entry α} {n : Nat}
    (input : n ∈ entry.term.inputs) :
    ∃ last, earlier.length ≤ last ∧
      (lastUses (earlier ++ entry :: later))[n]? = some last := by
  rw [lastUses, List.zipIdx_append, List.zipIdx_cons, List.foldl_append, List.foldl_cons]
  apply exists_lastUse_foldl (by omega)
  refine ⟨earlier.length, Nat.le_refl _, ?_⟩
  rw [getElem?_noteUses, if_pos input, Nat.zero_add]

/-- The plan of entries in which every node but the root is used. -/
def ofEntries (entries : List (Graph.Entry α)) : Plan β := ⟨poolOf entries, lastUses entries⟩

theorem make_of_ordered {g : Graph α} {root : Nat} {entries : List (Graph.Entry α)}
    (ordered : g.Ordered root entries) : make entries root = .ok (ofEntries entries : Plan β) := by
  unfold make
  dsimp only
  split
  · next dead found =>
      -- A dead node would be reached through a user, and that use has been noted.
      have unused := List.find?_some found
      simp only [decide_eq_true_eq, Bool.not_eq_true'] at unused
      have reached := (ordered.mem_iff dead.node).mp
        (List.mem_map_of_mem (List.mem_of_find?_eq_some found))
      rcases reached.cases_tail with same | ⟨user, above, t, stored, input⟩
      · exact absurd same unused.1
      · obtain ⟨entry, member, rfl⟩ := List.mem_map.mp ((ordered.mem_iff user).mpr above)
        rw [ordered.term? member] at stored
        cases stored
        obtain ⟨earlier, later, rfl⟩ := List.append_of_mem member
        obtain ⟨last, _, noted⟩ := exists_lastUse earlier later input
        rw [Std.TreeMap.contains_eq_isSome_getElem?, noted] at unused
        cases unused.2
  · rfl

end Plan

namespace Lowering

variable {α β : Type}

/-- The table in which the result of an entry looks for its slot. -/
def freed (plan : Plan β) (table : SlotTable) (position : Nat) (t : Term α Nat) : SlotTable :=
  table.vacateAll (dying plan table position t)

theorem holds_of_freed {plan : Plan β} {table : SlotTable} {position s n : Nat} {t : Term α Nat}
    (held : (freed plan table position t).Holds s n) : table.Holds s n :=
  (SlotTable.holds_vacateAll.mp held).1

theorem size_le_size_occupy_freed (plan : Plan β) (table : SlotTable) (position n : Nat)
    (t : Term α Nat) : table.size ≤ ((freed plan table position t).occupy n).size := by
  have grown := SlotTable.size_le_size_occupy (freed plan table position t) n
  rw [freed, SlotTable.size_vacateAll] at grown
  exact grown

/-- Only the slots of nodes that are used for the last time are freed. -/
theorem holds_freed_of_used {plan : Plan β} {table : SlotTable} {position s n : Nat}
    {t : Term α Nat} (held : table.Holds s n) (used : plan.isLastUse n position = false) :
    (freed plan table position t).Holds s n := by
  refine SlotTable.holds_vacateAll.mpr ⟨held, fun dies => ?_⟩
  obtain ⟨cell, member, rfl⟩ := List.mem_map.mp dies
  obtain ⟨m, listed, stands⟩ := List.mem_filterMap.mp member
  obtain ⟨slot, found, rfl⟩ := Option.map_eq_some_iff.mp stands
  have ending := (List.mem_filter.mp (List.mem_eraseDups.mp listed)).2
  rw [held.node_unique (SlotTable.holds_of_slotOf? found), ending] at used
  cases used

variable [Sample β] [Narrow α β]

inductive Encodes (plan : Plan β) (table : SlotTable) : Term α Nat → Opcode → Nat → Nat → Prop where
  | const (c : α) :
      Encodes plan table (.const c) .const (Plan.poolIndex plan.pool (Narrow.narrow c)) 0
  | unary {op : UnaryOp} {a slot : Nat} (found : table.slotOf? a = some slot) :
      Encodes plan table (.unary op a) (.unary op) slot 0
  | binary {op : BinaryOp} {a b first second : Nat} (found : table.slotOf? a = some first)
      (found' : table.slotOf? b = some second) :
      Encodes plan table (.binary op a b) (.binary op) first second

/-- What laying out an entry does when it succeeds. What is reported is left open. -/
inductive Emits (plan : Plan β) (position : Nat) (entry : Graph.Entry α) :
    Layout → Layout → Prop where
  | axis {a : Axis} {layout : Layout} (kind : entry.term = .axis a) :
      Emits plan position entry layout layout
  | instruction {layout : Layout} {op : Opcode} {a b : Nat} {i : Instruction}
      {journal : Array Event} (encodes : Encodes plan layout.table entry.term op a b)
      (made : Instruction.make op (freed plan layout.table position entry.term).freeSlot a b =
        .ok i) :
      Emits plan position entry layout
        ⟨(freed plan layout.table position entry.term).occupy entry.node, i :: layout.code, journal⟩

/-- What becomes of the table at an entry whose inputs have slots, whether or not its instruction
can be made. -/
inductive Places (plan : Plan β) (position : Nat) (entry : Graph.Entry α) (table : SlotTable) :
    SlotTable → Prop where
  | axis {a : Axis} (kind : entry.term = .axis a) : Places plan position entry table table
  | result {op : Opcode} {a b : Nat} (encodes : Encodes plan table entry.term op a b) :
      Places plan position entry table
        ((freed plan table position entry.term).occupy entry.node)

theorem Emits.places {plan : Plan β} {position : Nat} {entry : Graph.Entry α}
    {layout next : Layout} (emits : Emits plan position entry layout next) :
    Places plan position entry layout.table next.table := by
  cases emits with
  | axis kind => exact .axis kind
  | instruction encodes made => exact .result encodes

inductive Fails (plan : Plan β) (position : Nat) (entry : Graph.Entry α) (table : SlotTable) :
    Error → Prop where
  | missing {n : Nat} (input : n ∈ entry.term.inputs) (absent : table.slotOf? n = none) :
      Fails plan position entry table (.internal (.missingSlot n))
  | overflow {op : Opcode} {a b : Nat} {e : Error}
      (encodes : Encodes plan table entry.term op a b)
      (made : Instruction.make op (freed plan table position entry.term).freeSlot a b = .error e) :
      Fails plan position entry table e

theorem fields_cases (plan : Plan β) (table : SlotTable) (t : Term α Nat) :
    (∃ n ∈ t.inputs, table.slotOf? n = none ∧
      fields plan table t = .error (.internal (.missingSlot n))) ∨
    (∃ a, t = .axis a ∧ fields plan table t = .ok none) ∨
    ∃ op a b, Encodes plan table t op a b ∧ fields plan table t = .ok (some (op, a, b)) := by
  cases t with
  | axis a => exact .inr (.inl ⟨a, rfl, rfl⟩)
  | const c => exact .inr (.inr ⟨_, _, _, .const c, rfl⟩)
  | unary op a =>
      cases found : table.slotOf? a with
      | none =>
          refine .inl ⟨a, Term.mem_inputs_unary.mpr rfl, found, ?_⟩
          simp only [fields, slotOf, found]
          rfl
      | some slot =>
          refine .inr (.inr ⟨_, _, _, .unary found, ?_⟩)
          simp only [fields, slotOf, found]
          rfl
  | binary op a b =>
      cases found : table.slotOf? a with
      | none =>
          refine .inl ⟨a, Term.mem_inputs_binary.mpr (.inl rfl), found, ?_⟩
          simp only [fields, slotOf, found]
          rfl
      | some first =>
          cases found' : table.slotOf? b with
          | none =>
              refine .inl ⟨b, Term.mem_inputs_binary.mpr (.inr rfl), found', ?_⟩
              simp only [fields, slotOf, found, found']
              rfl
          | some second =>
              refine .inr (.inr ⟨_, _, _, .binary found found', ?_⟩)
              simp only [fields, slotOf, found, found']
              rfl

theorem assign_of_fields {plan : Plan β} {table : SlotTable} {entry : Graph.Entry α} {op : Opcode}
    {a b : Nat} (position : Nat) (chosen : fields plan table entry.term = .ok (some (op, a, b))) :
    assign plan table position entry = .ok (some
      { node := entry.node
        opcode := op
        a := a
        b := b
        out := (freed plan table position entry.term).freeSlot
        released := dying plan table position entry.term
        table := (freed plan table position entry.term).occupy entry.node }) := by
  rw [assign, chosen]
  rfl

/-- Laying out the first entry either ends the layout or leads on to the rest. -/
theorem layOut_cons (plan : Plan β) (entry : Graph.Entry α) (position : Nat)
    (rest : List (Graph.Entry α × Nat)) (layout : Layout) :
    (∃ e, (layOut plan ((entry, position) :: rest) layout).2 = some e ∧
      Fails plan position entry layout.table e) ∨
    ∃ next, layOut plan ((entry, position) :: rest) layout = layOut plan rest next ∧
      Emits plan position entry layout next := by
  rcases fields_cases plan layout.table entry.term with
    ⟨n, input, absent, failed⟩ | ⟨a, kind, chosen⟩ | ⟨op, a, b, encodes, chosen⟩
  · refine .inl ⟨_, ?_, .missing input absent⟩
    rw [layOut, assign, failed]
    rfl
  · refine .inr ⟨layout, ?_, .axis kind⟩
    rw [layOut, assign, chosen]
    rfl
  · rw [layOut, assign_of_fields position chosen]
    dsimp only [Assignment.instruction]
    cases made : Instruction.make op (freed plan layout.table position entry.term).freeSlot a b with
    | error e => exact .inl ⟨e, rfl, .overflow encodes made⟩
    | ok i => exact .inr ⟨_, rfl, .instruction encodes made⟩

/-- A property of the entries that were laid out and the layout so far is kept by every step. -/
def Kept (plan : Plan β) (entries : List (Graph.Entry α))
    (good : List (Graph.Entry α) → Layout → Prop) : Prop :=
  ∀ {earlier later : List (Graph.Entry α)} {entry : Graph.Entry α} {layout next : Layout},
    entries = earlier ++ entry :: later → good earlier layout →
      Emits plan earlier.length entry layout next → good (earlier ++ [entry]) next

/-- Laying out entries succeeds with a last step from a good layout, or stops at a good one. -/
theorem layOut_induct {plan : Plan β} {good : List (Graph.Entry α) → Layout → Prop}
    {before : List (Graph.Entry α)} {last : Graph.Entry α} {layout : Layout}
    (start : good [] layout) (kept : Kept plan (before ++ [last]) good) :
    (∃ previous final, layOut plan (before ++ [last]).zipIdx layout = (final, none) ∧
      good before previous ∧ Emits plan before.length last previous final) ∨
    ∃ earlier entry later stopped e, before ++ [last] = earlier ++ entry :: later ∧
      (layOut plan (before ++ [last]).zipIdx layout).2 = some e ∧
        good earlier stopped ∧ Fails plan earlier.length entry stopped.table e := by
  -- Induction on what is still to be laid out, over all layouts that are good for what is before.
  have loop : ∀ (later earlier : List (Graph.Entry α)) (layout : Layout),
      before = earlier ++ later → good earlier layout →
      (∃ previous final,
        layOut plan ((later ++ [last]).zipIdx earlier.length) layout = (final, none) ∧
          good before previous ∧ Emits plan before.length last previous final) ∨
      ∃ earlier' entry later' stopped e, before ++ [last] = earlier' ++ entry :: later' ∧
        (layOut plan ((later ++ [last]).zipIdx earlier.length) layout).2 = some e ∧
          good earlier' stopped ∧ Fails plan earlier'.length entry stopped.table e := by
    intro later
    induction later with
    | nil =>
        intro earlier layout split holds
        rw [List.append_nil] at split
        subst split
        rcases layOut_cons plan last before.length [] layout with
          ⟨e, stopped, fails⟩ | ⟨next, continued, emits⟩
        · exact .inr ⟨before, last, [], layout, e, rfl, stopped, holds, fails⟩
        · exact .inl ⟨layout, next, continued, holds, emits⟩
    | cons entry later ih =>
        intro earlier layout split holds
        have place : before ++ [last] = earlier ++ entry :: (later ++ [last]) := by
          rw [split, List.append_assoc, List.cons_append]
        rw [List.cons_append, List.zipIdx_cons]
        rcases layOut_cons plan entry earlier.length ((later ++ [last]).zipIdx (earlier.length + 1))
          layout with ⟨e, stopped, fails⟩ | ⟨next, continued, emits⟩
        · exact .inr ⟨earlier, entry, later ++ [last], layout, e, place, stopped, holds, fails⟩
        · have further := ih (earlier ++ [entry]) next (by simp [split]) (kept place holds emits)
          rw [List.length_append, List.length_singleton] at further
          rw [continued]
          exact further
  exact loop before [] layout rfl start

def start (entries : List (Graph.Entry α)) : Layout := ⟨⟨Graph.axisNodes entries⟩, [], #[]⟩

theorem exists_axis_of_holds {entries : List (Graph.Entry α)} {s n : Nat}
    (held : (start entries).table.Holds s n) :
    ∃ a : Axis, a.slot = s ∧ Graph.axisNode? entries a = some n := by
  have listed : Axis.all[s]?.map (Graph.axisNode? entries) = some (some n) := by
    rw [← List.getElem?_map]
    exact held
  obtain ⟨a, found, stands⟩ := Option.map_eq_some_iff.mp listed
  refine ⟨a, ?_, stands⟩
  rcases s with _ | _ | _ | _ | s <;> cases found <;> rfl

def close (plan : Plan β) (table : SlotTable) (code : List Instruction) (last : Instruction) :
    Tape β where
  code := code.reverse ++ [last.setOutput 0]
  constants := plan.pool
  slotCount := table.size

end Lowering

namespace Graph

open Lowering

variable {α β : Type} [Sample β] [Narrow α β]

theorem lower_of_absent {g : Graph α} {root : Nat} (absent : g.size ≤ root) :
    (g.lower root : Except Error (Tape β)) = .error .badNode := by
  rw [lower, lowering, (g.term?_eq_none_iff root).mpr absent, postOrder_of_absent absent]

theorem lower_of_axis {g : Graph α} {root : Nat} {a : Axis}
    (stored : g.term? root = some (.axis a)) :
    (g.lower root : Except Error (Tape β)) = .error .emptyTape := by
  rw [lower, lowering, stored]

theorem exists_term?_of_lower {g : Graph α} {root : Nat} {tape : Tape β}
    (lowered : g.lower root = .ok tape) : ∃ t, g.term? root = some t ∧ t.axis? = none := by
  cases stored : g.term? root with
  | none =>
      rw [lower_of_absent ((g.term?_eq_none_iff root).mp stored)] at lowered
      cases lowered
  | some t =>
      refine ⟨t, rfl, ?_⟩
      cases kind : t.axis? with
      | none => rfl
      | some a =>
          rw [Term.eq_axis_of_axis? kind] at stored
          rw [lower_of_axis stored] at lowered
          cases lowered

theorem exists_postOrder_concat {g : Graph α} {root : Nat} {t : Term α Nat}
    (stored : g.term? root = some t) :
    ∃ before, g.postOrder root = .ok (before ++ [⟨root, t⟩]) := by
  obtain ⟨entries, listed, ordered⟩ := exists_postOrder (lt_size_of_term? stored)
  obtain ⟨u, before, same, rfl⟩ := ordered.last
  rw [stored] at same
  cases same
  exact ⟨before, listed⟩

theorem lower_eq_lowerEntries {g : Graph α} {root : Nat} {t : Term α Nat}
    {entries : List (Entry α)} (stored : g.term? root = some t) (operator : t.axis? = none)
    (listed : g.postOrder root = .ok entries) :
    (g.lower root : Except Error (Tape β)) = (lowerEntries entries root).outcome := by
  rw [lower, lowering, stored]
  cases t with
  | axis a => cases operator
  | const c => simp only [listed]
  | unary op a => simp only [listed]
  | binary op a b => simp only [listed]

theorem lower_of_layOut {g : Graph α} {root : Nat} {t : Term α Nat} {entries : List (Entry α)}
    {layout : Layout} {failure : Option Error} (stored : g.term? root = some t)
    (operator : t.axis? = none) (ordered : g.postOrder root = .ok entries)
    (ran : layOut (.ofEntries entries : Plan β) entries.zipIdx (start entries) =
      (layout, failure)) :
    (g.lower root : Except Error (Tape β)) =
      failure.elim (finish (.ofEntries entries) layout).outcome .error := by
  rw [lower_eq_lowerEntries stored operator ordered, lowerEntries,
    Plan.make_of_ordered (Ordered.of_postOrder ordered).2]
  dsimp only
  rw [← start, ran]
  cases failure <;> rfl

/-- Lowering a node that is no axis: an invariant of code layout holds before its last instruction,
or at the entry that cannot be laid out. -/
theorem lower_induct {g : Graph α} {root : Nat} {t : Term α Nat} {entries before : List (Entry α)}
    {good : List (Entry α) → Layout → Prop} (plan : Plan β) (planned : plan = .ofEntries entries)
    (listed : g.postOrder root = .ok entries) (split : entries = before ++ [⟨root, t⟩])
    (operator : t.axis? = none) (first : good [] (start entries)) (kept : Kept plan entries good) :
    (∃ layout op a b i, good before layout ∧ Encodes plan layout.table t op a b ∧
      Instruction.make op (freed plan layout.table before.length t).freeSlot a b = .ok i ∧
      g.lower root = .ok (close plan ((freed plan layout.table before.length t).occupy root)
        layout.code i)) ∨
    ∃ earlier entry later stopped e, entries = earlier ++ entry :: later ∧
      good earlier stopped ∧ Fails plan earlier.length entry stopped.table e ∧
      (g.lower root : Except Error (Tape β)) = .error e := by
  have ordered := (Ordered.of_postOrder listed).2
  have member : (⟨root, t⟩ : Entry α) ∈ entries := by simp [split]
  have stored : g.term? root = some t := ordered.term? member
  have lowered := lower_eq_lowerEntries (β := β) stored operator listed
  rw [lowerEntries, Plan.make_of_ordered ordered, ← planned, ← start] at lowered
  subst split
  rcases layOut_induct first kept with
    ⟨layout, final, ran, holds, emits⟩ |
    ⟨earlier, entry, later, stopped, e, split, ran, holds, fails⟩
  · cases emits with
    | axis kind =>
        cases kind
        cases operator
    | instruction encodes made =>
        refine .inl ⟨layout, _, _, _, _, holds, encodes, made, ?_⟩
        simp [lowered, ran, finish, close]
  · refine .inr ⟨earlier, entry, later, stopped, e, split, holds, fails, ?_⟩
    obtain ⟨final, stops⟩ : ∃ final, layOut plan _ _ = (final, some e) := ⟨_, Prod.ext rfl ran⟩
    simp only [lowered, stops]

/-- How a tape comes about: a good layout of everything below the root is closed by the instruction
for the root. -/
inductive Closes (g : Graph α) (root : Nat)
    (good : List (Entry α) → List (Entry α) → Layout → Prop) : Tape β → Prop where
  | intro {entries before : List (Entry α)} {plan : Plan β} {t : Term α Nat} {layout : Layout}
      {op : Opcode} {a b : Nat} {i : Instruction} (ordered : g.Ordered root entries)
      (split : entries = before ++ [⟨root, t⟩]) (planned : plan = .ofEntries entries)
      (holds : good entries before layout) (encodes : Encodes plan layout.table t op a b)
      (made : Instruction.make op (freed plan layout.table before.length t).freeSlot a b = .ok i) :
      Closes g root good
        (close plan ((freed plan layout.table before.length t).occupy root) layout.code i)

theorem closes_of_lower {g : Graph α} {root : Nat} {tape : Tape β}
    {good : List (Entry α) → List (Entry α) → Layout → Prop} (lowered : g.lower root = .ok tape)
    (first : ∀ {entries}, g.Ordered root entries → good entries [] (start entries))
    (kept : ∀ {entries}, g.Ordered root entries →
      Kept (.ofEntries entries : Plan β) entries (good entries)) : Closes g root good tape := by
  obtain ⟨t, stored, operator⟩ := exists_term?_of_lower lowered
  obtain ⟨before, listed⟩ := exists_postOrder_concat stored
  have ordered := (Ordered.of_postOrder listed).2
  rcases lower_induct _ rfl listed rfl operator (first ordered) (kept ordered) with
    ⟨layout, op, a, b, i, holds, encodes, made, closed⟩ | ⟨_, _, _, _, e, _, _, _, failed⟩
  · rw [closed] at lowered
    cases lowered
    exact .intro ordered rfl rfl holds encodes made
  · rw [failed] at lowered
    cases lowered

end Graph

end SurfaceTape

import SurfaceTape.Proofs.Compilation
import SurfaceTape.Proofs.SlotDemand

/-!
# How lowering fails

Lowering reads the slot of every input, and of the nodes of one axis only the first has a slot. So
it succeeds only where no axis has two nodes, and then only within the limits. Where it fails, all
numbers up to the entry at which it stops did fit in a byte. Hence the number that does not fit is
the next one, and it is that of a new slot or of a new constant.
-/

set_option autoImplicit false

namespace SurfaceTape

namespace Lowering

variable {α β : Type} [Sample β] [Narrow α β] {g : Graph α} {root : Nat}
  {entries earlier later : List (Graph.Entry α)} {entry : Graph.Entry α}

theorem Encodes.exists_holds {plan : Plan β} {table : SlotTable} {t : Term α Nat} {op : Opcode}
    {a b : Nat} (encodes : Encodes plan table t op a b) {n : Nat} (input : n ∈ t.inputs) :
    ∃ s, table.Holds s n := by
  cases encodes with
  | const c => cases input
  | unary found =>
      cases Term.mem_inputs_unary.mp input
      exact ⟨_, SlotTable.holds_of_slotOf? found⟩
  | binary found found' =>
      rcases Term.mem_inputs_binary.mp input with rfl | rfl
      · exact ⟨_, SlotTable.holds_of_slotOf? found⟩
      · exact ⟨_, SlotTable.holds_of_slotOf? found'⟩

theorem Encodes.fields_eq {plan : Plan β} {table : SlotTable} {t : Term α Nat} {op : Opcode}
    {a b : Nat} (encodes : Encodes plan table t op a b) :
    fields plan table t = .ok (some (op, a, b)) := by
  cases encodes with
  | const c => rfl
  | unary found =>
      simp only [fields, slotOf, found]
      rfl
  | binary found found' =>
      simp only [fields, slotOf, found, found']
      rfl

structure ReadsFirst (g : Graph α) (entries earlier : List (Graph.Entry α)) (layout : Layout) :
    Prop where
  held : ∀ {s n}, layout.table.Holds s n → Leading g entries n
  read : ∀ entry ∈ earlier, ∀ n ∈ entry.term.inputs, Leading g entries n

private theorem readsFirst_start (ordered : g.Ordered root entries) :
    ReadsFirst g entries [] (start entries) := by
  refine ⟨fun held a stored => ?_, nofun⟩
  obtain ⟨b, _, first⟩ := exists_axis_of_holds held
  cases stored.symm.trans (ordered.axisNode?_spec first).1
  exact first

theorem readsFirst_kept (ordered : g.Ordered root entries) :
    Kept (Plan.ofEntries entries : Plan β) entries
      fun earlier layout => ReadsFirst g entries earlier layout := by
  intro earlier later entry layout next split reads emits
  cases emits with
  | axis kind =>
      refine ⟨reads.held, fun user member n input => ?_⟩
      rcases List.mem_append.mp member with before | last
      · exact reads.read user before n input
      · cases List.mem_singleton.mp last
        rw [kind] at input
        cases input
  | instruction encodes made =>
      constructor
      · intro s n held
        rcases SlotTable.holds_occupy.mp held with ⟨_, rfl⟩ | old
        · intro a axis
          have operator := encodes.axis?
          rw [(ordered.split split).1, Option.some.injEq] at axis
          rw [axis] at operator
          cases operator
        · exact reads.held (holds_of_freed old)
      · intro user member n input
        rcases List.mem_append.mp member with before | last
        · exact reads.read user before n input
        · cases List.mem_singleton.mp last
          obtain ⟨s, held⟩ := encodes.exists_holds input
          exact reads.held held

/-- Entries are laid out after others unless one of those fails. -/
theorem layOut_append (plan : Plan β) (first rest : List (Graph.Entry α × Nat)) (layout : Layout) :
    layOut plan (first ++ rest) layout =
      match layOut plan first layout with
      | (next, none) => layOut plan rest next
      | (stopped, some e) => (stopped, some e) := by
  induction first generalizing layout with
  | nil => rfl
  | cons head tail ih =>
      obtain ⟨entry, position⟩ := head
      rw [List.cons_append, layOut, layOut]
      cases assign plan layout.table position entry with
      | error e => rfl
      | ok chosen =>
          cases chosen with
          | none => exact ih layout
          | some x =>
              dsimp only
              cases x.instruction with
              | error e => rfl
              | ok i => exact ih _

/-- The entries can be laid out from the start, and the table is the one to which that leads. -/
def LeadsTo (plan : Plan β) (entries earlier : List (Graph.Entry α)) (table : SlotTable) : Prop :=
  ∃ layout, layOut plan earlier.zipIdx (start entries) = (layout, none) ∧ layout.table = table

theorem leadsTo_kept (plan : Plan β) (entries : List (Graph.Entry α)) :
    Kept plan entries fun earlier layout => LeadsTo plan entries earlier layout.table := by
  intro earlier later entry layout next split leads emits
  obtain ⟨reached, ran, same⟩ := leads
  have continued : layOut plan (earlier ++ [entry]).zipIdx (start entries) =
      layOut plan [(entry, earlier.length)] reached := by
    rw [List.zipIdx_append, layOut_append, ran, Nat.zero_add]
    rfl
  cases emits with
  | axis kind =>
      refine ⟨reached, continued.trans ?_, same⟩
      rw [layOut, assign, kind]
      rfl
  | instruction encodes made =>
      rw [← same] at encodes made ⊢
      rw [layOut, assign_of_fields _ encodes.fields_eq] at continued
      simp only [Assignment.instruction, made] at continued
      exact ⟨_, continued, rfl⟩

/-- What a layout without failures leaves true, whether or not an axis has two nodes. -/
structure LaidOut (g : Graph α) (plan : Plan β) (entries earlier : List (Graph.Entry α))
    (layout : Layout) : Prop where
  stands : ∀ n, Leading g entries n → Live g entries earlier n → ∃ s, layout.table.Holds s n
  bounded : Bounded layout
  numbered : Numbered plan earlier
  leads : LeadsTo plan entries earlier layout.table

theorem laidOut_start (plan : Plan β) (entries : List (Graph.Entry α)) :
    LaidOut g plan entries [] (start entries) where
  stands _ leading live := stands_start leading live
  bounded := bounded_start entries
  numbered := nofun
  leads := ⟨start entries, rfl, rfl⟩

theorem laidOut_kept (ordered : g.Ordered root entries) :
    Kept (Plan.ofEntries entries : Plan β) entries
      fun earlier layout => LaidOut g (.ofEntries entries : Plan β) entries earlier layout := by
  intro earlier later entry layout next split laidOut emits
  exact ⟨fun n leading => stands_kept ordered n split (laidOut.stands n leading) emits,
    bounded_kept _ _ split laidOut.bounded emits, numbered_kept _ _ split laidOut.numbered emits,
    leadsTo_kept _ _ split laidOut.leads emits⟩

/-- The number that does not fit is the first one too large, of a slot or of a constant. -/
theorem LaidOut.overflow_cases {layout : Layout} {op : Opcode} {a b : Nat} {e : Error}
    (split : entries = earlier ++ entry :: later)
    (laidOut : LaidOut g (.ofEntries entries : Plan β) entries earlier layout)
    (encodes : Encodes (.ofEntries entries : Plan β) layout.table entry.term op a b)
    (failed : Instruction.make op (freed (.ofEntries entries : Plan β) layout.table earlier.length
      entry.term).freeSlot a b = .error e) :
    e = .internal (.fieldOverflow .output 256) ∨
      op = .const ∧ e = .internal (.fieldOverflow .inputA 256) := by
  have inside := laidOut.bounded.table
  have read : ∀ {n slot}, layout.table.slotOf? n = some slot → slot < 256 :=
    fun found => Nat.lt_of_lt_of_le (SlotTable.slotOf?_lt_size found) inside
  rcases Instruction.overflow_of_make failed with ⟨large, rfl⟩ | ⟨large, rfl⟩ | ⟨large, rfl⟩
  · have free : (freed (.ofEntries entries : Plan β) layout.table earlier.length
        entry.term).freeSlot ≤ 256 := by
      refine Nat.le_trans List.findIdx_le_length (Nat.le_trans (Nat.le_of_eq ?_) inside)
      exact SlotTable.size_vacateAll _ _
    rw [Nat.le_antisymm free large]
    exact .inl rfl
  · generalize kind : entry.term = t at encodes
    cases encodes with
    | const c =>
        have few : (Plan.poolOf earlier : List β).length ≤ 256 :=
          Plan.length_poolOf_le ⟨entry :: later, split.symm⟩ laidOut.numbered
        have next : Plan.poolIndex (Plan.poolOf entries : List β) (Narrow.narrow c) ≤
            (Plan.poolOf earlier : List β).length := by
          rw [split]
          exact Plan.poolIndex_le_length kind
        have exactly : Plan.poolIndex (Plan.ofEntries entries : Plan β).pool (Narrow.narrow c) =
            256 :=
          Nat.le_antisymm (Nat.le_trans next few) large
        rw [exactly]
        exact .inr ⟨rfl, rfl⟩
    | unary found => exact absurd (read found) (Nat.not_lt.mpr large)
    | binary found found' => exact absurd (read found) (Nat.not_lt.mpr large)
  · generalize entry.term = t at encodes
    cases encodes with
    | const c => exact absurd large (by decide)
    | unary found => exact absurd large (by decide)
    | binary found found' => exact absurd (read found') (Nat.not_lt.mpr large)

end Lowering

namespace Graph

open Lowering

variable {α : Type} (β : Type) [Sample β] [Narrow α β]

/-- Lowering comes to a node, everything before it having been laid out, and decides on an
instruction for it. -/
def Decides (g : Graph α) (root : Nat) (x : Assignment) : Prop :=
  ∃ entries earlier entry later layout, g.postOrder root = .ok entries ∧
    entries = earlier ++ entry :: later ∧
    layOut (.ofEntries entries : Plan β) earlier.zipIdx (start entries) = (layout, none) ∧
    assign (.ofEntries entries : Plan β) layout.table earlier.length entry = .ok (some x)

variable {β} {g : Graph α} {root : Nat}

theorem axesUnified_of_lower {tape : Tape β} (lowered : g.lower root = .ok tape) :
    g.AxesUnified root := by
  obtain ⟨t, stored, operator⟩ := exists_term?_of_lower lowered
  have closes := closes_of_lower lowered readsFirst_start readsFirst_kept
  cases closes with
  | @intro entries before plan t' layout op a b i ordered split planned reads encodes made =>
      have leading : ∀ {k a}, g.Reaches root k → g.term? k = some (.axis a) →
          axisNode? entries a = some k := by
        intro k a reached axis
        -- The root is no axis, so the axis is an input of something.
        rcases reached.cases_tail with rfl | ⟨user, above, u, found, input⟩
        · cases stored.symm.trans axis
          cases operator
        · obtain ⟨entry, member, rfl⟩ := List.mem_map.mp ((ordered.mem_iff user).mpr above)
          cases found.symm.trans (ordered.term? member)
          rw [split, List.mem_append] at member
          rcases member with earlier | last
          · exact reads.read entry earlier k input a axis
          · cases List.mem_singleton.mp last
            obtain ⟨s, held⟩ := encodes.exists_holds input
            exact reads.held held a axis
      intro a k k' reached reached' axis axis'
      exact Option.some.inj ((leading reached axis).symm.trans (leading reached' axis'))

private theorem repeatsAxis_of_not_leading {entries : List (Entry α)} {n : Nat}
    (listed : g.postOrder root = .ok entries) (reached : g.Reaches root n)
    (following : ¬Leading g entries n) : g.RepeatsAxis root n := by
  simp only [Leading, not_forall] at following
  obtain ⟨a, axis, other⟩ := following
  obtain ⟨m, first⟩ := (Ordered.of_postOrder listed).2.exists_axisNode? reached axis
  refine ((leadsAxis_of_axisNode? listed first).repeatsAxis_iff reached axis).mpr ?_
  rintro rfl
  exact other first

/-- The node of an axis that is met again has no slot. Otherwise an instruction cannot be made. -/
theorem error_cases_of_lower {t : Term α Nat} {e : Error} (stored : g.term? root = some t)
    (operator : t.axis? = none) (failed : (g.lower root : Except Error (Tape β)) = .error e) :
    (∃ n, e = .internal (.missingSlot n) ∧ g.RepeatsAxis root n) ∨
      ∃ x, g.Decides β root x ∧ x.instruction = .error e ∧
        (e = .internal (.fieldOverflow .output 256) ∨
          x.opcode = .const ∧ e = .internal (.fieldOverflow .inputA 256)) := by
  obtain ⟨before, listed⟩ := exists_postOrder_concat stored
  have ordered := (Ordered.of_postOrder listed).2
  rcases lower_induct _ rfl listed rfl operator (laidOut_start _ _)
    (laidOut_kept (β := β) ordered) with
    ⟨layout, op, a, b, i, _, _, _, closed⟩ |
    ⟨earlier, entry, later, stopped, e', split, laidOut, fails, failed'⟩
  · cases closed.symm.trans failed
  cases failed'.symm.trans failed
  cases fails with
  | @missing n input absent =>
      have used := (ordered.split split).2.2 n input
      have reached : g.Reaches root n := by
        rw [← ordered.mem_iff, split, List.map_append]
        exact List.mem_append_left _ used
      refine .inl ⟨n, rfl, repeatsAxis_of_not_leading listed reached fun leading => ?_⟩
      have live : Live g _ earlier n :=
        ⟨⟨entry :: later, entry, split, List.mem_cons_self, input⟩, .inl used⟩
      obtain ⟨s, held⟩ := laidOut.stands n leading live
      obtain ⟨slot, found⟩ := SlotTable.exists_slotOf? held
      cases absent.symm.trans found
  | overflow encodes made =>
      obtain ⟨layout, ran, same⟩ := laidOut.leads
      have assigned := assign_of_fields earlier.length encodes.fields_eq
      exact .inr ⟨_, ⟨_, earlier, entry, later, layout, listed, split, ran,
        Eq.trans (by rw [same]) assigned⟩, made, laidOut.overflow_cases split encodes made⟩

/-- Lowering a node that is no axis succeeds exactly where no axis has two nodes and the limits are
kept. It fails for an axis that is met again, or for the first number that does not fit, which is
that of a new slot or of a constant that is loaded. -/
theorem lower_fails_exactly {t : Term α Nat} (stored : g.term? root = some t)
    (operator : t.axis? = none) :
    ((∃ tape : Tape β, g.lower root = .ok tape) ↔ g.AxesUnified root ∧ g.WithinLimits β root) ∧
    (∀ e, (g.lower root : Except Error (Tape β)) = .error e →
      (∃ n, e = .internal (.missingSlot n) ∧ g.RepeatsAxis root n) ∨
      ∃ x, g.Decides β root x ∧ x.instruction = .error e ∧
        (e = .internal (.fieldOverflow .output 256) ∨
          x.opcode = .const ∧ e = .internal (.fieldOverflow .inputA 256))) ∧
    (g.AxesUnified root → ∀ n,
      (g.lower root : Except Error (Tape β)) ≠ .error (.internal (.missingSlot n))) := by
  refine ⟨?_, fun e failed => error_cases_of_lower stored operator failed, ?_⟩
  · constructor
    · intro succeeds
      obtain ⟨tape, lowered⟩ := succeeds
      have unified : g.AxesUnified root := axesUnified_of_lower lowered
      exact ⟨unified, withinLimits_of_lower unified lowered⟩
    · intro conditions
      exact conditions.2.exists_lower stored operator conditions.1
  · intro unified n failed
    rcases error_cases_of_lower stored operator failed with ⟨_, _, repeats⟩ | ⟨_, _, _, overflow⟩
    · exact repeats.not_axesUnified (lt_size_of_term? stored) unified
    · rcases overflow with other | ⟨_, other⟩
      · cases other
      · cases other

theorem lower_twinAxes_fails_exactly :
    Build.twinAxes.term? 4 = some (.binary .mul 0 3) ∧
      (Build.twinAxes.lower 4 : Except Error (Tape Float32)) = .error (.internal (.missingSlot 1)) ∧
      Build.twinAxes.RepeatsAxis 4 1 ∧ ¬Build.twinAxes.AxesUnified 4 := by
  have failed : (Build.twinAxes.lower 4 : Except Error (Tape Float32)) =
      .error (.internal (.missingSlot 1)) := by
    rw [lower_eq_lowerEntries (t := .binary .mul 0 3) rfl rfl Build.postOrder_twinAxes]
    rfl
  have stored : Build.twinAxes.term? 4 = some (.binary .mul 0 3) := rfl
  obtain ⟨_, errors, missing⟩ := lower_fails_exactly (β := Float32) stored rfl
  refine ⟨stored, failed, ?_, fun unified => missing unified 1 failed⟩
  rcases errors _ failed with ⟨n, same, repeats⟩ | ⟨_, _, _, overflow⟩
  · cases same
    exact repeats
  · rcases overflow with other | ⟨_, other⟩
    · cases other
    · cases other

end Graph

end SurfaceTape

import SurfaceTape.Proofs.LoweringFailures

/-!
# What stands in the table

While code is laid out the table holds the nodes that are alive and no others, each in one slot, and
in the same slot all along. Slots are freed by number and looked up by node, so this needs that no
node has two slots and no slot is freed for a node that is still used. It does not depend on whether
the instructions can be made. When the root is reached nothing else is alive, so it comes to stand
in slot 0.
-/

set_option autoImplicit false

namespace SurfaceTape

namespace SlotTable

private theorem holds_of_mem {table : SlotTable} {n : Nat} (member : some n ∈ table.cells) :
    ∃ s, table.Holds s n := by
  obtain ⟨s, inside, same⟩ := List.getElem_of_mem member
  exact ⟨s, List.getElem?_eq_some_iff.mpr ⟨inside, same⟩⟩

private theorem freeSlot_eq_zero {table : SlotTable} (empty : ∀ cell ∈ table.cells, cell = none) :
    table.freeSlot = 0 := by
  unfold freeSlot
  cases listed : table.cells with
  | nil => rfl
  | cons cell rest =>
      rw [empty cell (listed ▸ List.mem_cons_self)]
      rfl

/-- Each of the nodes stands in one slot, which is the one that it was given, and all other slots
are free. -/
structure HoldsExactly (table : SlotTable) (nodes : Set Nat) (given : Nat → Nat → Prop) : Prop where
  once : ∀ n ∈ nodes, ∃! s, table.Holds s n
  place : ∀ n ∈ nodes, ∀ s, table.Holds s n ↔ given n s
  free : ∀ cell ∈ table.cells, cell = none ∨ ∃ n ∈ nodes, cell = some n

end SlotTable

namespace Lowering

variable {α β : Type}

private theorem finish_of_output {plan : Plan β} {layout : Layout} {last : Instruction}
    {code : List Instruction} (laid : layout.code = last :: code) (zero : last.out = 0) :
    (finish plan layout).outcome =
      .ok ⟨layout.code.reverse, plan.pool, layout.table.size⟩ := by
  have unchanged : last.setOutput 0 = last := by
    rw [Instruction.setOutput, ← zero]
  simp only [finish, laid, unchanged]

variable [Sample β] [Narrow α β]

theorem encodes_of_assign {plan : Plan β} {table : SlotTable} {position : Nat}
    {entry : Graph.Entry α} {x : Assignment}
    (assigned : assign plan table position entry = .ok (some x)) :
    ∃ op a b, Encodes plan table entry.term op a b ∧ x =
      { node := entry.node
        opcode := op
        a := a
        b := b
        out := (freed plan table position entry.term).freeSlot
        released := dying plan table position entry.term
        table := (freed plan table position entry.term).occupy entry.node } := by
  rcases fields_cases plan table entry.term with
    ⟨_, _, _, failed⟩ | ⟨_, _, chosen⟩ | ⟨op, a, b, encodes, chosen⟩
  · rw [assign, failed] at assigned
    cases assigned
  · rw [assign, chosen] at assigned
    cases assigned
  · cases (assign_of_fields position chosen).symm.trans assigned
    exact ⟨op, a, b, encodes, rfl⟩

end Lowering

namespace Graph

open Lowering

variable {α : Type} (β : Type) [Sample β] [Narrow α β]

/-- The slot that a node is given: an axis has its own, and for another node one is decided when
lowering comes to it. -/
inductive PlacedIn (g : Graph α) (root : Nat) : Nat → Nat → Prop where
  | axis {n : Nat} {a : Axis} (kind : g.term? n = some (.axis a)) : PlacedIn g root n a.slot
  | result {x : Assignment} (decided : g.Decides β root x) : PlacedIn g root x.node x.out

variable {β} {g : Graph α} {root : Nat}

private theorem Ordered.split_unique {entries earlier later earlier' later' : List (Entry α)}
    {entry entry' : Entry α} (ordered : g.Ordered root entries)
    (split : entries = earlier ++ entry :: later)
    (split' : entries = earlier' ++ entry' :: later') (same : entry.node = entry'.node) :
    earlier = earlier' ∧ entry = entry' := by
  have fresh := (ordered.split split).2.1
  have fresh' := (ordered.split split').2.1
  rcases List.append_eq_append_iff.mp (split.symm.trans split') with
    ⟨between, rfl, rest⟩ | ⟨between, rfl, rest⟩
  · cases between with
    | nil =>
        cases rest
        exact ⟨(List.append_nil earlier).symm, rfl⟩
    | cons first between =>
        cases rest
        exact absurd (by simp [← same]) fresh'
  · cases between with
    | nil =>
        cases rest
        exact ⟨List.append_nil earlier', rfl⟩
    | cons first between =>
        cases rest
        exact absurd (by simp [same]) fresh

theorem Decides.exists_term? {x : Assignment} (decided : g.Decides β root x) :
    ∃ t, g.term? x.node = some t ∧ t.axis? = none := by
  obtain ⟨entries, earlier, entry, later, layout, listed, split, _, assigned⟩ := decided
  obtain ⟨op, a, b, encodes, same⟩ := encodes_of_assign assigned
  rw [same]
  exact ⟨entry.term, ((Ordered.of_postOrder listed).2.split split).1, encodes.axis?⟩

/-- What is decided for a node is decided once. -/
theorem Decides.unique {x y : Assignment} (decided : g.Decides β root x)
    (decided' : g.Decides β root y) (same : x.node = y.node) : x = y := by
  obtain ⟨entries, earlier, entry, later, layout, listed, split, ran, assigned⟩ := decided
  obtain ⟨entries', earlier', entry', later', layout', listed', split', ran', assigned'⟩ := decided'
  cases listed.symm.trans listed'
  obtain ⟨_, _, _, _, made⟩ := encodes_of_assign assigned
  obtain ⟨_, _, _, _, made'⟩ := encodes_of_assign assigned'
  have nodes : entry.node = entry'.node := by
    rw [made, made'] at same
    exact same
  obtain ⟨rfl, rfl⟩ := (Ordered.of_postOrder listed).2.split_unique split split' nodes
  cases ran.symm.trans ran'
  cases assigned.symm.trans assigned'
  rfl

private theorem Decides.not_axis {x : Assignment} {a : Axis} (decided : g.Decides β root x) :
    g.term? x.node ≠ some (.axis a) := by
  intro kind
  obtain ⟨t, stored, operator⟩ := decided.exists_term?
  cases stored.symm.trans kind
  cases operator

theorem PlacedIn.unique {n s s' : Nat} (placed : g.PlacedIn β root n s)
    (placed' : g.PlacedIn β root n s') : s = s' := by
  cases placed with
  | axis kind =>
      cases placed' with
      | axis kind' =>
          cases kind.symm.trans kind'
          rfl
      | result decided => exact absurd kind decided.not_axis
  | @result x decided =>
      generalize same : x.node = n at placed'
      cases placed' with
      | axis kind => exact absurd (same ▸ kind) decided.not_axis
      | result decided' => rw [decided.unique decided' same]

end Graph

namespace Lowering

variable {α β : Type} [Sample β] [Narrow α β] {g : Graph α} {root : Nat}
  {entries earlier later : List (Graph.Entry α)} {entry : Graph.Entry α}

private theorem layOut_of_longer {plan : Plan β} {layout : Layout} (first : earlier <+: entries)
    (ran : (layOut plan entries.zipIdx layout).2 = none) :
    (layOut plan earlier.zipIdx layout).2 = none := by
  obtain ⟨rest, rfl⟩ := first
  rw [List.zipIdx_append, layOut_append] at ran
  split at ran
  · next same => rw [same]
  · cases ran

/-- An entry whose inputs have slots changes the table in one way, even if its instruction cannot be
made. -/
theorem places_layOut {plan : Plan β} {position : Nat} {layout : Layout}
    (found : ∀ n ∈ entry.term.inputs, ∃ slot, layout.table.slotOf? n = some slot) :
    Places plan position entry layout.table (layOut plan [(entry, position)] layout).1.table := by
  rcases fields_cases plan layout.table entry.term with
    ⟨n, input, absent, _⟩ | ⟨a, kind, chosen⟩ | ⟨op, a, b, encodes, chosen⟩
  · obtain ⟨slot, present⟩ := found n input
    cases absent.symm.trans present
  · rw [layOut, assign, chosen]
    exact .axis kind
  · rw [layOut, assign_of_fields position chosen]
    dsimp only
    split
    · exact .result encodes
    · exact .result encodes

variable (β) in
/-- The live nodes stand in the table and nothing else does, each node in one slot, where it was
put. The last result is there even if it is the root, which nothing uses. -/
structure Occupied (g : Graph α) (root : Nat) (entries earlier : List (Graph.Entry α))
    (table : SlotTable) : Prop where
  covers : Covers g entries earlier table
  housed : Housed g root entries earlier table
  placed : ∀ {s n}, table.Holds s n → g.PlacedIn β root n s
  made : ∀ {front entry}, earlier = front ++ [entry] → entry.term.axis? = none →
    ∃ s, table.Holds s entry.node

theorem occupied_start (ordered : g.Ordered root entries) (unified : g.AxesUnified root) :
    Occupied β g root entries [] (start entries).table where
  covers := covers_start ordered unified
  housed := housed_start ordered
  placed held := by
    obtain ⟨a, rfl, stands⟩ := exists_axis_of_holds held
    exact .axis (ordered.axisNode?_spec stands).1
  made split := by simp at split

theorem Occupied.step {layout : Layout} {next : SlotTable}
    (listed : g.postOrder root = .ok entries) (split : entries = earlier ++ entry :: later)
    (ran : layOut (.ofEntries entries : Plan β) earlier.zipIdx (start entries) = (layout, none))
    (occupied : Occupied β g root entries earlier layout.table)
    (places : Places (.ofEntries entries : Plan β) earlier.length entry layout.table next) :
    Occupied β g root entries (earlier ++ [entry]) next := by
  have ordered := (Graph.Ordered.of_postOrder listed).2
  refine ⟨fun n live => live.stands ordered split places (occupied.covers n),
    occupied.housed.step ordered split places, ?_, ?_⟩
  · intro s n held
    cases places with
    | axis kind => exact occupied.placed held
    | result encodes =>
        rcases SlotTable.holds_occupy.mp held with ⟨rfl, rfl⟩ | old
        · have assigned := assign_of_fields earlier.length encodes.fields_eq
          exact .result ⟨entries, earlier, entry, later, layout, listed, split, ran, assigned⟩
        · exact occupied.placed (holds_of_freed old)
  · intro front last same operator
    obtain ⟨rfl, rfl⟩ := List.append_singleton_inj.mp same
    cases places with
    | axis kind =>
        rw [kind] at operator
        cases operator
    | result encodes => exact ⟨_, SlotTable.holds_occupy.mpr (.inl ⟨rfl, rfl⟩)⟩

/-- The invariant holds at every entry that lowering comes to. -/
theorem occupied_layOut (listed : g.postOrder root = .ok entries) (unified : g.AxesUnified root)
    (split : entries = earlier ++ later)
    (reached : (layOut (.ofEntries entries : Plan β) earlier.dropLast.zipIdx (start entries)).2 =
      none) :
    Occupied β g root entries earlier
      (layOut (.ofEntries entries : Plan β) earlier.zipIdx (start entries)).1.table := by
  have ordered := (Graph.Ordered.of_postOrder listed).2
  -- Induction from the end: all but the last entry have been laid out, so their layout is known.
  induction earlier using List.reverseRecOn generalizing later with
  | nil => exact occupied_start ordered unified
  | append_singleton front entry ih =>
      rw [List.dropLast_concat] at reached
      rw [List.append_assoc, List.singleton_append] at split
      have shorter := List.dropLast_prefix front
      have occupied := ih split (layOut_of_longer shorter reached)
      obtain ⟨layout, ran⟩ : ∃ layout, layOut (.ofEntries entries : Plan β) front.zipIdx
          (start entries) = (layout, none) := ⟨_, Prod.ext rfl reached⟩
      rw [ran] at occupied
      rw [List.zipIdx_append, layOut_append, ran, Nat.zero_add]
      refine occupied.step listed split ran (places_layOut fun n input => ?_)
      exact occupied.covers.exists_slotOf? ordered split input

theorem Occupied.exists_holds {t : Term α Nat} {table : SlotTable} {n : Nat}
    (ordered : g.Ordered root entries) (split : entries = earlier ++ later)
    (stored : g.term? root = some t) (operator : t.axis? = none)
    (occupied : Occupied β g root entries earlier table)
    (needed : Needed g root entries earlier n) : ∃ s, table.Holds s n := by
  rcases List.eq_nil_or_concat' later with rfl | ⟨between, last, rfl⟩
  · rw [List.append_nil] at split
    subst split
    obtain ⟨t', before, stored', ends⟩ := ordered.last
    cases stored.symm.trans stored'
    cases Graph.eq_root_of_needed needed
    exact occupied.made ends operator
  · have same := Graph.needed_eq_live ordered split (by simp) stored operator
    exact occupied.covers n (same.subset needed)

theorem Occupied.holdsExactly {t : Term α Nat} {table : SlotTable}
    (ordered : g.Ordered root entries) (split : entries = earlier ++ later)
    (stored : g.term? root = some t) (operator : t.axis? = none)
    (occupied : Occupied β g root entries earlier table) :
    table.HoldsExactly
      (g.liveAfter root (earlier.map Graph.Entry.node) (later.map Graph.Entry.node))
      (g.PlacedIn β root) := by
  rw [Graph.liveAfter_eq ordered split]
  refine ⟨fun n needed => ?_, fun n needed s => ?_, fun cell member => ?_⟩
  · obtain ⟨s, held⟩ := occupied.exists_holds ordered split stored operator needed
    exact ⟨s, held, fun _ held' => occupied.housed.once held' held⟩
  · obtain ⟨s', held⟩ := occupied.exists_holds ordered split stored operator needed
    constructor
    · exact occupied.placed
    · intro placed
      cases placed.unique (occupied.placed held)
      exact held
  · cases cell with
    | none => exact .inl rfl
    | some n =>
        obtain ⟨s, held⟩ := SlotTable.holds_of_mem member
        exact .inr ⟨n, occupied.housed.needed held, rfl⟩

theorem Occupied.vacated {t : Term α Nat} {table : SlotTable} (ordered : g.Ordered root entries)
    (split : entries = earlier ++ [⟨root, t⟩]) (operator : t.axis? = none)
    (occupied : Occupied β g root entries earlier table) :
    ∀ cell ∈ (freed (.ofEntries entries : Plan β) table earlier.length t).cells, cell = none := by
  intro cell member
  cases cell with
  | none => rfl
  | some n =>
      -- What is left would be needed after the root, but then only the root is needed, and it has
      -- not been given a slot.
      obtain ⟨s, held⟩ := SlotTable.holds_of_mem member
      have after := occupied.housed.place (β := β) ordered split operator
      have needed := after.needed (SlotTable.holds_occupy.mpr (.inr held))
      rw [← split] at needed
      cases Graph.eq_root_of_needed needed
      exact absurd (holds_of_freed held) (occupied.housed.not_holds ordered split operator s)

theorem Occupied.exists_assign_root {t : Term α Nat} {table : SlotTable}
    (ordered : g.Ordered root entries) (split : entries = earlier ++ [⟨root, t⟩])
    (operator : t.axis? = none) (occupied : Occupied β g root entries earlier table) :
    ∃ x, assign (.ofEntries entries : Plan β) table earlier.length ⟨root, t⟩ = .ok (some x) ∧
      (∀ cell ∈ (table.vacateAll x.released).cells, cell = none) ∧ x.out = 0 := by
  rcases fields_cases (.ofEntries entries : Plan β) table t with
    ⟨n, input, absent, _⟩ | ⟨a, kind, _⟩ | ⟨op, a, b, encodes, chosen⟩
  · obtain ⟨slot, found⟩ := occupied.covers.exists_slotOf? ordered split input
    cases absent.symm.trans found
  · rw [kind] at operator
    cases operator
  · have empty := occupied.vacated ordered split operator
    exact ⟨_, assign_of_fields earlier.length chosen, empty, SlotTable.freeSlot_eq_zero empty⟩

theorem occupied_of_laidOut {layout : Layout} (listed : g.postOrder root = .ok entries)
    (unified : g.AxesUnified root) (split : entries = earlier ++ later)
    (ran : layOut (.ofEntries entries : Plan β) earlier.zipIdx (start entries) = (layout, none)) :
    Occupied β g root entries earlier layout.table := by
  have shorter := List.dropLast_prefix earlier
  have reached := layOut_of_longer shorter (congrArg Prod.snd ran)
  have occupied := occupied_layOut listed unified split reached
  rw [ran] at occupied
  exact occupied

/-- The last instruction is that of the root, and it writes slot 0. -/
theorem exists_last_of_laidOut {t : Term α Nat} {layout : Layout}
    (listed : g.postOrder root = .ok entries) (unified : g.AxesUnified root)
    (split : entries = earlier ++ [⟨root, t⟩]) (operator : t.axis? = none)
    (ran : layOut (.ofEntries entries : Plan β) entries.zipIdx (start entries) = (layout, none)) :
    ∃ last code, layout.code = last :: code ∧ last.out = 0 := by
  have positions : entries.zipIdx = earlier.zipIdx ++ [(⟨root, t⟩, earlier.length)] := by
    rw [split, List.zipIdx_append, Nat.zero_add]
    rfl
  obtain ⟨previous, came⟩ : ∃ previous, layOut (.ofEntries entries : Plan β) earlier.zipIdx
      (start entries) = (previous, none) :=
    ⟨_, Prod.ext rfl (layOut_of_longer ⟨_, split.symm⟩ (congrArg Prod.snd ran))⟩
  have occupied := occupied_of_laidOut listed unified split came
  have free := SlotTable.freeSlot_eq_zero
    (occupied.vacated (Graph.Ordered.of_postOrder listed).2 split operator)
  rw [positions, layOut_append, came] at ran
  rcases layOut_cons (.ofEntries entries : Plan β) ⟨root, t⟩ earlier.length [] previous with
    ⟨e, stopped, _⟩ | ⟨next, continued, emits⟩
  · cases stopped.symm.trans (congrArg Prod.snd ran)
  · cases continued.symm.trans ran
    cases emits with
    | axis kind =>
        cases kind
        cases operator
    | instruction encodes made =>
        obtain ⟨_, out, _, _⟩ := Instruction.fields_of_make made
        exact ⟨_, _, rfl, UInt8.toNat_inj.mp (out.trans free)⟩

end Lowering

namespace Graph

open Lowering

variable {α β : Type} [Sample β] [Narrow α β] {g : Graph α} {root : Nat}

/-- The table holds exactly what is alive. Up to every entry that lowering comes to, whether or not
an instruction can be made for it or for what comes later, each live node stands in one slot, the
one that it was given, and all other slots are free. When the root is reached all slots are freed,
the root is given slot 0, and the tape is the code as it was laid out. -/
theorem table_holds_exactly_live {t : Term α Nat} (stored : g.term? root = some t)
    (operator : t.axis? = none) (unified : g.AxesUnified root) :
    ∃ (entries : List (Entry α)) (plan : Plan β),
      g.postOrder root = .ok entries ∧ Plan.make entries root = .ok plan ∧
      (∀ earlier later, entries = earlier ++ later →
        (layOut plan earlier.dropLast.zipIdx (start entries)).2 = none →
        (layOut plan earlier.zipIdx (start entries)).1.table.HoldsExactly
          (g.liveAfter root (earlier.map Entry.node) (later.map Entry.node))
          (g.PlacedIn β root)) ∧
      (∀ before layout, entries = before ++ [⟨root, t⟩] →
        layOut plan before.zipIdx (start entries) = (layout, none) →
        ∃ x, assign plan layout.table before.length ⟨root, t⟩ = .ok (some x) ∧
          (∀ cell ∈ (layout.table.vacateAll x.released).cells, cell = none) ∧ x.out = 0) ∧
      ∀ layout, layOut plan entries.zipIdx (start entries) = (layout, none) →
        g.lower root = .ok ⟨layout.code.reverse, plan.pool, layout.table.size⟩ := by
  obtain ⟨before, listed⟩ := exists_postOrder_concat stored
  have ordered := (Ordered.of_postOrder listed).2
  refine ⟨_, .ofEntries (before ++ [⟨root, t⟩]), listed, Plan.make_of_ordered ordered, ?_, ?_, ?_⟩
  · intro earlier later split reached
    exact (occupied_layOut listed unified split reached).holdsExactly ordered split stored operator
  · intro front layout split ran
    exact (occupied_of_laidOut listed unified split ran).exists_assign_root ordered split operator
  · intro layout ran
    obtain ⟨last, code, laid, zero⟩ := exists_last_of_laidOut listed unified rfl operator ran
    rw [lower_of_layOut stored operator listed ran]
    exact finish_of_output laid zero

/-- When the square has been made it has taken the slot of its only input, and the other axis stands
in its slot already, though its place in the order comes later. -/
theorem table_scaledSquare_holds_exactly_live :
    scaledSquare.term? 7 = some (.binary .mul 6 1) ∧ scaledSquare.AxesUnified 7 ∧
      (⟨[some 3, some 1, none, none]⟩ : SlotTable).HoldsExactly
        (scaledSquare.liveAfter 7 [0, 3] [2, 4, 5, 6, 1, 7]) (scaledSquare.PlacedIn UInt32 7) ∧
      scaledSquare.PlacedIn UInt32 7 3 0 := by
  have stored : scaledSquare.term? 7 = some (.binary .mul 6 1) := rfl
  have unified : scaledSquare.AxesUnified 7 := axesUnified_of_lower lower_scaledSquare
  obtain ⟨entries, plan, listed, planned, holds, _⟩ :=
    table_holds_exactly_live (β := UInt32) stored rfl unified
  cases postOrder_scaledSquare.symm.trans listed
  cases planned.symm.trans (Plan.make_of_ordered (Ordered.of_postOrder listed).2)
  have exactly := holds (scaledSquareEntries.take 2) (scaledSquareEntries.drop 2) rfl rfl
  have table : (layOut (.ofEntries scaledSquareEntries : Plan UInt32)
      (scaledSquareEntries.take 2).zipIdx (start scaledSquareEntries)).1.table =
      ⟨[some 3, some 1, none, none]⟩ := rfl
  rw [table] at exactly
  have live : 3 ∈ scaledSquare.liveAfter 7 [0, 3] [2, 4, 5, 6, 1, 7] :=
    ⟨.inl (by decide), .inr ⟨4, by decide, .binary .add 3 2, rfl, by decide⟩⟩
  exact ⟨stored, unified, exactly, (exactly.place 3 live 0).mp rfl⟩

end Graph

end SurfaceTape

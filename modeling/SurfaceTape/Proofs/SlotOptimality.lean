import SurfaceTape.Proofs.LoweringFailures
import Mathlib.Data.ENat.Lattice

/-!
# No slot is wasted

The table grows only when no slot is free, and then all its slots hold nodes that are needed. As it
never shrinks, the number of slots of a tape is the largest number of nodes that are alive at once,
but never less than the number of axes, whose slots are there from the start.
-/

set_option autoImplicit false

namespace SurfaceTape

namespace SlotTable

private theorem size_occupy (table : SlotTable) (node : Nat) :
    (table.occupy node).size = max table.size (table.freeSlot + 1) := by
  apply Nat.le_antisymm
  · exact size_occupy_le node (Nat.le_max_left _ _) (Nat.le_max_right _ _)
  · exact Nat.max_le.mpr ⟨size_le_size_occupy table node, freeSlot_lt_size_occupy table node⟩

end SlotTable

namespace Lowering

variable {α β : Type} {g : Graph α} {root : Nat} {entries earlier later : List (Graph.Entry α)}
  {entry : Graph.Entry α}

def demands (g : Graph α) (root : Nat) (entries earlier : List (Graph.Entry α)) : Set ℕ∞ :=
  {count | ∃ first entry rest, earlier = first ++ entry :: rest ∧ entry.term.axis? = none ∧
    {n | Needed g root entries (first ++ [entry]) n}.encard = count}

private theorem mem_demands_concat {count : ℕ∞} :
    count ∈ demands g root entries (earlier ++ [entry]) ↔
      entry.term.axis? = none ∧ {n | Needed g root entries (earlier ++ [entry]) n}.encard = count ∨
        count ∈ demands g root entries earlier := by
  constructor
  · intro member
    obtain ⟨first, other, rest, split, operator, counted⟩ := member
    rcases List.eq_nil_or_concat' rest with rfl | ⟨rest, last, rfl⟩
    · obtain ⟨rfl, same⟩ := List.append_inj' split rfl
      cases same
      exact .inl ⟨operator, counted⟩
    · rw [← List.cons_append, ← List.append_assoc] at split
      exact .inr ⟨first, other, rest, List.append_inj_left' split rfl, operator, counted⟩
  · intro member
    rcases member with ⟨operator, counted⟩ | ⟨first, other, rest, split, operator, counted⟩
    · exact ⟨earlier, entry, [], rfl, operator, counted⟩
    · exact ⟨first, other, rest ++ [entry], by simp [split], operator, counted⟩

private theorem demands_concat_axis {a : Axis} (kind : entry.term = .axis a) :
    demands g root entries (earlier ++ [entry]) = demands g root entries earlier := by
  ext count
  rw [mem_demands_concat, kind]
  simp [Term.axis?]

private theorem demands_concat (operator : entry.term.axis? = none) :
    demands g root entries (earlier ++ [entry]) =
      insert {n | Needed g root entries (earlier ++ [entry]) n}.encard
        (demands g root entries earlier) := by
  ext count
  rw [mem_demands_concat, Set.mem_insert_iff]
  simp [operator, eq_comm]

/-- What is needed stands in the table, which has at least the slots of the axes. -/
theorem encard_needed_le {table : SlotTable} {t : Term α Nat} (ordered : g.Ordered root entries)
    (split : entries = earlier ++ later) (stored : g.term? root = some t)
    (operator : t.axis? = none) (covers : Covers g entries earlier table)
    (axes : Axis.slotCount ≤ table.size) :
    {n | Needed g root entries earlier n}.encard ≤ table.size := by
  rcases List.eq_nil_or_concat' later with rfl | ⟨between, last, rfl⟩
  · rw [List.append_nil] at split
    subst split
    refine (Graph.encard_needed_le_one _).trans ?_
    exact_mod_cast Nat.le_trans (by decide) axes
  · rw [Graph.needed_eq_live ordered split (by simp) stored operator]
    exact (Set.encard_le_encard covers).trans (SlotTable.encard_held_le table)

/-- The table grows only as far as is needed. -/
private theorem size_occupy_freed {plan : Plan β} {table : SlotTable} {position n : Nat}
    {t : Term α Nat} {count : ℕ∞}
    (taken : ((freed plan table position t).freeSlot + 1 : Nat) ≤ count)
    (held : count ≤ ((freed plan table position t).occupy n).size) :
    (((freed plan table position t).occupy n).size : ℕ∞) = max count table.size := by
  apply le_antisymm
  · rw [SlotTable.size_occupy]
    rcases Nat.le_total (freed plan table position t).size
      ((freed plan table position t).freeSlot + 1) with grown | reused
    · rw [Nat.max_eq_right grown]
      exact taken.trans (le_max_left _ _)
    · rw [Nat.max_eq_left reused, freed, SlotTable.size_vacateAll]
      exact le_max_right _ _
  · refine max_le held ?_
    exact_mod_cast size_le_size_occupy_freed plan table position n t

structure Tight (g : Graph α) (root : Nat) (entries earlier : List (Graph.Entry α))
    (layout : Layout) : Prop where
  covers : Covers g entries earlier layout.table
  housed : Housed g root entries earlier layout.table
  bounded : Bounded layout
  size : IsGreatest (insert 4 (demands g root entries earlier)) layout.table.size

theorem tight_start (ordered : g.Ordered root entries) (unified : g.AxesUnified root) :
    Tight g root entries [] (start entries) where
  covers := covers_start ordered unified
  housed := housed_start ordered
  bounded := bounded_start entries
  size := by
    have unused : demands g root entries [] = ∅ := by
      ext count
      simp [demands]
    rw [unused, insert_empty_eq]
    exact isGreatest_singleton

variable [Sample β] [Narrow α β]

theorem tight_kept {t : Term α Nat} (ordered : g.Ordered root entries)
    (stored : g.term? root = some t) (operator : t.axis? = none) :
    Kept (Plan.ofEntries entries : Plan β) entries
      fun earlier layout => Tight g root entries earlier layout := by
  intro earlier later entry layout next split tight emits
  have covers := covers_kept ordered split tight.covers emits
  have housed := housed_kept ordered split tight.housed emits
  have bounded := bounded_kept _ _ split tight.bounded emits
  refine ⟨covers, housed, bounded, ?_⟩
  cases emits with
  | axis kind =>
      rw [demands_concat_axis kind]
      exact tight.size
  | instruction encodes made =>
      have split' : entries = (earlier ++ [entry]) ++ later := by simp [split]
      have held := encard_needed_le ordered split' stored operator covers bounded.axes
      rw [demands_concat encodes.axis?, Set.insert_comm,
        size_occupy_freed housed.freeSlot_lt_encard held]
      exact tight.size.insert _

end Lowering

namespace Graph

open Lowering

variable {α β : Type} [Sample β] [Narrow α β] {g : Graph α} {root : Nat}

/-- The numbers of nodes that are alive after each place of the order where no axis stands. -/
def liveCounts (g : Graph α) (root : Nat) : Set ℕ∞ :=
  {count | ∃ before n after, g.order root = .ok (before ++ n :: after) ∧
    (∀ a, g.term? n ≠ some (.axis a)) ∧ (g.liveAfter root (before ++ [n]) after).encard = count}

theorem liveCounts_eq {entries : List (Entry α)} (listed : g.postOrder root = .ok entries) :
    g.liveCounts root = demands g root entries entries := by
  have ordered := (Ordered.of_postOrder listed).2
  have kind : ∀ entry ∈ entries, (∀ a, g.term? entry.node ≠ some (.axis a)) ↔
      entry.term.axis? = none := by
    intro entry member
    rw [ordered.term? member]
    cases entry.term <;> simp [Term.axis?]
  ext count
  constructor
  · intro counts
    obtain ⟨before, n, after, nodes, operator, counted⟩ := counts
    obtain ⟨first, behind, split, rfl, mapped⟩ := exists_split_of_order listed nodes
    obtain ⟨entry, rest, rfl, rfl, rfl⟩ := List.map_eq_cons_iff.mp mapped
    have split' : entries = (first ++ [entry]) ++ rest := by simp [split]
    refine ⟨first, entry, rest, split, (kind entry (by simp [split])).mp operator, ?_⟩
    rw [← liveAfter_eq ordered split', ← counted, List.map_append, List.map_singleton]
  · intro demanded
    obtain ⟨first, entry, rest, split, operator, counted⟩ := demanded
    have split' : entries = (first ++ [entry]) ++ rest := by simp [split]
    refine ⟨first.map Entry.node, entry.node, rest.map Entry.node, ?_,
      (kind entry (by simp [split])).mpr operator, ?_⟩
    · rw [order, listed, split]
      simp [Except.map]
    · rw [← counted, ← liveAfter_eq ordered split', List.map_append, List.map_singleton]

/-- A tape has as many slots as nodes are alive at once, or four if there are never so many. -/
theorem slotCount_isGreatest {tape : Tape β} (lowered : g.lower root = .ok tape) :
    IsGreatest (insert 4 (g.liveCounts root)) (tape.slotCount : ℕ∞) := by
  obtain ⟨t, stored, operator⟩ := exists_term?_of_lower lowered
  obtain ⟨before, listed⟩ := exists_postOrder_concat stored
  have ordered := (Ordered.of_postOrder listed).2
  rcases lower_induct _ rfl listed rfl operator
    (tight_start ordered (axesUnified_of_lower lowered))
    (tight_kept (β := β) ordered stored operator) with
    ⟨layout, op, a, b, i, tight, encodes, made, closed⟩ | ⟨_, _, _, _, e, _, _, _, failed⟩
  · cases closed.symm.trans lowered
    have emits : Emits (.ofEntries (before ++ [⟨root, t⟩]) : Plan β) before.length ⟨root, t⟩ layout
        ⟨_, i :: layout.code, #[]⟩ := .instruction encodes made
    rw [liveCounts_eq listed]
    exact (tight_kept ordered stored operator rfl tight emits).size
  · cases failed.symm.trans lowered

/-- The expression `min (x * y) (x + (y + (z + t)))`. Its product is made while all axes are still
to be used. -/
def crowdedMin : Graph UInt32 where
  terms := #[.axis .x, .axis .y, .axis .z, .axis .t, .binary .mul 0 1, .binary .add 2 3,
    .binary .add 1 5, .binary .add 0 6, .binary .min 4 7]
  acyclic := by decide

def crowdedMinTape : Tape UInt32 where
  code := [⟨8, 4, 0, 1⟩, ⟨6, 2, 2, 3⟩, ⟨6, 1, 1, 2⟩, ⟨6, 0, 0, 1⟩, ⟨10, 0, 4, 0⟩]
  constants := []
  slotCount := 5

theorem slotCount_crowdedMin_isGreatest :
    crowdedMin.lower 8 = .ok crowdedMinTape ∧
      (∃ before n after, crowdedMin.order 8 = .ok (before ++ n :: after) ∧
        (crowdedMin.liveAfter 8 (before ++ [n]) after).encard = 5) ∧
      ∀ count ∈ crowdedMin.liveCounts 8, count ≤ 5 := by
  have listed : crowdedMin.postOrder 8 = .ok [⟨0, .axis .x⟩, ⟨1, .axis .y⟩, ⟨4, .binary .mul 0 1⟩,
      ⟨2, .axis .z⟩, ⟨3, .axis .t⟩, ⟨5, .binary .add 2 3⟩, ⟨6, .binary .add 1 5⟩,
      ⟨7, .binary .add 0 6⟩, ⟨8, .binary .min 4 7⟩] := by
    cbv
  have lowered : crowdedMin.lower 8 = .ok crowdedMinTape := by
    rw [lower_eq_lowerEntries (t := .binary .min 4 7) rfl rfl listed]
    rfl
  obtain ⟨attained, most⟩ := slotCount_isGreatest lowered
  refine ⟨lowered, ?_, fun count member => most (.inr member)⟩
  rcases attained with four | ⟨before, n, after, nodes, _, counted⟩
  · exact absurd four (by decide)
  · exact ⟨before, n, after, nodes, counted⟩

end Graph

end SurfaceTape

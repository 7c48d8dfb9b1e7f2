import SurfaceTape.Proofs.SlotDiscipline
import Mathlib.Data.Set.Card
import Mathlib.Order.Interval.Finset.Nat
import Mathlib.Tactic.NormNum

/-!
# What a tape has to number

The table holds exactly the nodes that are still needed, each of them in one slot. A result takes
the first free slot, so the number of that slot is below the number of nodes that are needed from
then on. Hence lowering fails for want of numbers only where more nodes are alive at once, or more
constants loaded, than a byte can number.
-/

set_option autoImplicit false

namespace SurfaceTape

theorem encard_Iio (count : Nat) : (Set.Iio count).encard = count := by
  rw [← Finset.coe_Iio, Set.encard_coe_eq_coe_finsetCard, Nat.card_Iio]

/-- A relation that gives every element of one set an element of another, and no two elements the
same one. -/
theorem encard_le_of_related {first second : Set Nat} (related : Nat → Nat → Prop)
    (each : ∀ n ∈ first, ∃ m ∈ second, related n m)
    (unique : ∀ {n n' m}, related n m → related n' m → n = n') : first.encard ≤ second.encard := by
  choose! partner member holds using each
  refine Set.encard_le_encard_of_injOn member ?_
  intro n inside n' inside' same
  exact unique (holds n inside) (same ▸ holds n' inside')

namespace SlotTable

theorem exists_holds_of_lt_freeSlot {table : SlotTable} {s : Nat} (below : s < table.freeSlot) :
    ∃ n, table.Holds s n := by
  have inside : s < table.cells.length := Nat.lt_of_lt_of_le below List.findIdx_le_length
  have taken : table.cells[s].isNone = false := List.not_of_lt_findIdx below
  cases stands : table.cells[s] with
  | none =>
      rw [stands] at taken
      cases taken
  | some n => exact ⟨n, by rw [Holds, List.getElem?_eq_getElem inside, stands]⟩

theorem encard_held_le (table : SlotTable) : {n | ∃ s, table.Holds s n}.encard ≤ table.size := by
  rw [← encard_Iio]
  refine encard_le_of_related (fun n s => table.Holds s n) ?_ Holds.node_unique
  intro n held
  obtain ⟨s, stands⟩ := held
  exact ⟨s, (List.getElem?_eq_some_iff.mp stands).1, stands⟩

end SlotTable

namespace Plan

variable {α β : Type}

private theorem getElem?_foldl_noteUses {later : List (Graph.Entry α)} {n position : Nat}
    {uses : Std.TreeMap Nat Nat} (unused : ∀ user ∈ later, n ∉ user.term.inputs) :
    ((later.zipIdx position).foldl noteUses uses)[n]? = uses[n]? := by
  induction later generalizing position uses with
  | nil => rfl
  | cons entry later ih =>
      rw [List.zipIdx_cons, List.foldl_cons, ih fun user member => unused user (.tail entry member),
        getElem?_noteUses, if_neg (unused entry List.mem_cons_self)]

variable [Sample β] [Narrow α β]

theorem isLastUse_of_unused {earlier later : List (Graph.Entry α)} {entry : Graph.Entry α} {n : Nat}
    (input : n ∈ entry.term.inputs) (unused : ∀ user ∈ later, n ∉ user.term.inputs) :
    (ofEntries (earlier ++ entry :: later) : Plan β).isLastUse n earlier.length = true := by
  have noted : (lastUses (earlier ++ entry :: later))[n]? = some earlier.length := by
    rw [lastUses, List.zipIdx_append, List.zipIdx_cons, List.foldl_append, List.foldl_cons,
      getElem?_foldl_noteUses unused, getElem?_noteUses, if_pos input, Nat.zero_add]
  simp only [isLastUse, ofEntries, noted, decide_true]

private theorem mem_of_mem_addConstant {pool : List β} {c d : β} (member : d ∈ addConstant pool c) :
    d = c ∨ d ∈ pool := by
  unfold addConstant at member
  split at member
  · exact .inr member
  · rcases List.mem_append.mp member with old | new
    · exact .inr old
    · exact .inl (List.mem_singleton.mp new)

private theorem mem_of_mem_foldl_addConstant {constants pool : List β} {d : β}
    (member : d ∈ constants.foldl addConstant pool) : d ∈ constants ∨ d ∈ pool := by
  induction constants generalizing pool with
  | nil => exact .inr member
  | cons c rest ih =>
      rcases ih member with later | added
      · exact .inl (.tail c later)
      · rcases mem_of_mem_addConstant added with rfl | old
        · exact .inl List.mem_cons_self
        · exact .inr old

theorem exists_const_of_mem_poolOf {entries : List (Graph.Entry α)} {d : β}
    (member : d ∈ (poolOf entries : List β)) :
    ∃ entry ∈ entries, ∃ c, entry.term = .const c ∧ Narrow.narrow c = d := by
  rcases mem_of_mem_foldl_addConstant member with listed | none
  · obtain ⟨entry, inside, kind⟩ := List.mem_filterMap.mp listed
    obtain ⟨c, found, rfl⟩ := Option.map_eq_some_iff.mp kind
    exact ⟨entry, inside, c, Term.eq_const_of_const? found, rfl⟩
  · cases none

private theorem nodup_bits_foldl_addConstant {constants pool : List β}
    (distinct : (pool.map Sample.bits).Nodup) :
    ((constants.foldl addConstant pool).map Sample.bits).Nodup := by
  induction constants generalizing pool with
  | nil => exact distinct
  | cons c rest ih =>
      apply ih
      unfold addConstant
      split
      · exact distinct
      · next absent =>
          rw [List.map_append, List.nodup_append]
          refine ⟨distinct, by simp, ?_⟩
          intro w old v new same
          obtain ⟨d, member, rfl⟩ := List.mem_map.mp old
          rw [List.map_singleton, List.mem_singleton] at new
          exact absent (List.any_eq_true.mpr ⟨d, member, beq_iff_eq.mpr (same.trans new)⟩)

theorem nodup_bits_poolOf (entries : List (Graph.Entry α)) :
    ((poolOf entries : List β).map Sample.bits).Nodup :=
  nodup_bits_foldl_addConstant List.nodup_nil

theorem poolIndex_getElem {pool : List β} (distinct : (pool.map Sample.bits).Nodup) {i : Nat}
    (inside : i < pool.length) : poolIndex pool pool[i] = i := by
  obtain ⟨range, same⟩ := List.getElem?_eq_some_iff.mp
    (getElem?_poolIndex (List.getElem_mem inside))
  exact (distinct.of_map.getElem_inj_iff).mp same

private theorem prefix_addConstant (pool : List β) (c : β) : pool <+: addConstant pool c := by
  unfold addConstant
  split
  · exact List.prefix_rfl
  · exact List.prefix_append pool [c]

private theorem length_addConstant_le (pool : List β) (c : β) :
    (addConstant pool c).length ≤ pool.length + 1 := by
  unfold addConstant
  split
  · exact Nat.le_succ _
  · rw [List.length_append, List.length_singleton]

private theorem prefix_foldl_addConstant (constants pool : List β) :
    pool <+: constants.foldl addConstant pool := by
  induction constants generalizing pool with
  | nil => exact List.prefix_rfl
  | cons c rest ih => exact (prefix_addConstant pool c).trans (ih _)

/-- Constants are numbered in the order in which they are met. -/
theorem prefix_poolOf {earlier entries : List (Graph.Entry α)} (first : earlier <+: entries) :
    (poolOf earlier : List β) <+: poolOf entries := by
  obtain ⟨later, rfl⟩ := first
  rw [poolOf, poolOf, List.filterMap_append, List.foldl_append]
  exact prefix_foldl_addConstant _ _

theorem poolIndex_of_prefix {front : List β} {entries : List (Graph.Entry α)} {i : Nat}
    (first : front <+: poolOf entries) (inside : i < front.length) :
    poolIndex (poolOf entries) front[i] = i := by
  rw [first.getElem inside]
  exact poolIndex_getElem (nodup_bits_poolOf entries) (Nat.lt_of_lt_of_le inside first.length_le)

/-- A constant is in the pool of the entries before it, or it comes right behind them. -/
theorem poolIndex_le_length {earlier later : List (Graph.Entry α)} {entry : Graph.Entry α} {c : α}
    (kind : entry.term = .const c) :
    poolIndex (poolOf (earlier ++ entry :: later) : List β) (Narrow.narrow c) ≤
      (poolOf earlier : List β).length := by
  have member : (Narrow.narrow c : β) ∈ poolOf (earlier ++ [entry]) := mem_poolOf (by simp) kind
  obtain ⟨i, inside, same⟩ := List.getElem_of_mem member
  have first : earlier ++ [entry] <+: earlier ++ entry :: later := ⟨later, by simp⟩
  have place := poolIndex_of_prefix (prefix_poolOf first) inside
  rw [same] at place
  have grown : (poolOf (earlier ++ [entry]) : List β).length ≤
      (poolOf earlier : List β).length + 1 := by
    rw [poolOf, List.filterMap_append, List.foldl_append, ← poolOf]
    simpa [kind, Term.const?] using length_addConstant_le _ _
  omega

/-- If the constants of some entries have small places, then there are not many of them. -/
theorem length_poolOf_le {earlier entries : List (Graph.Entry α)} {bound : Nat}
    (first : earlier <+: entries) (small : ∀ entry ∈ earlier, ∀ c, entry.term = .const c →
      poolIndex (poolOf entries : List β) (Narrow.narrow c) < bound) :
    (poolOf earlier : List β).length ≤ bound := by
  by_contra exceeded
  have many : bound < (poolOf earlier : List β).length := Nat.not_le.mp exceeded
  obtain ⟨entry, member, c, kind, same⟩ := exists_const_of_mem_poolOf (List.getElem_mem many)
  have place := poolIndex_of_prefix (prefix_poolOf first) many
  rw [← same] at place
  have loaded := small entry member c kind
  omega

end Plan

namespace Lowering

variable {α β : Type} {g : Graph α} {root : Nat} {entries earlier later : List (Graph.Entry α)}
  {entry : Graph.Entry α}

theorem usedAfter_iff (split : entries = earlier ++ later) {n : Nat} :
    UsedAfter entries earlier n ↔ ∃ user ∈ later, n ∈ user.term.inputs := by
  constructor
  · intro used
    obtain ⟨later', user, split', member, input⟩ := used
    cases List.append_cancel_left (split.symm.trans split')
    exact ⟨user, member, input⟩
  · intro used
    obtain ⟨user, member, input⟩ := used
    exact ⟨later, user, split, member, input⟩

/-- The node is live, or it is the root and has been made. -/
def Needed (g : Graph α) (root : Nat) (entries earlier : List (Graph.Entry α)) (n : Nat) : Prop :=
  (n ∈ earlier.map Graph.Entry.node ∨ ∃ a, g.term? n = some (.axis a)) ∧
    (n = root ∨ UsedAfter entries earlier n)

/-- A needed node stays needed unless the next entry is the last one to use it. -/
theorem Needed.concat (split : entries = earlier ++ entry :: later) {n : Nat}
    (needed : Needed g root entries earlier n)
    (again : n ∈ entry.term.inputs → ∃ user ∈ later, n ∈ user.term.inputs) :
    Needed g root entries (earlier ++ [entry]) n := by
  refine ⟨needed.1.imp_left fun made => by simp [made], ?_⟩
  rcases needed.2 with same | used
  · exact .inl same
  · have split' : entries = (earlier ++ [entry]) ++ later := by simp [split]
    obtain ⟨user, member, input⟩ := (usedAfter_iff split).mp used
    rw [usedAfter_iff split']
    rcases List.mem_cons.mp member with rfl | after
    · exact .inr (again input)
    · exact .inr ⟨user, after, input⟩

/-- A node that has not been made is used by nothing that has. -/
private theorem not_mem_inputs (ordered : g.Ordered root entries)
    (split : entries = earlier ++ later) {n : Nat} (fresh : n ∉ earlier.map Graph.Entry.node) :
    ∀ user ∈ earlier, n ∉ user.term.inputs := by
  intro user member input
  obtain ⟨first, rest, rfl⟩ := List.append_of_mem member
  rw [List.append_assoc, List.cons_append] at split
  have made := (ordered.split split).2.2 n input
  exact fresh (List.map_append ▸ List.mem_append_left _ made)

/-- Every node but the root is used, and only by what comes after it. -/
private theorem root_or_usedAfter (ordered : g.Ordered root entries)
    (split : entries = earlier ++ later) {n : Nat} (reached : g.Reaches root n)
    (unused : ∀ user ∈ earlier, n ∉ user.term.inputs) :
    n = root ∨ UsedAfter entries earlier n := by
  rcases reached.cases_tail with same | ⟨user, above, t, stored, input⟩
  · exact .inl same
  · obtain ⟨userEntry, member, rfl⟩ := List.mem_map.mp ((ordered.mem_iff user).mpr above)
    rw [ordered.term? member] at stored
    cases stored
    rw [split, List.mem_append] at member
    rcases member with before | after
    · exact absurd input (unused userEntry before)
    · exact .inr ((usedAfter_iff split).mpr ⟨userEntry, after, input⟩)

private theorem needed_of_made (ordered : g.Ordered root entries)
    (split : entries = earlier ++ entry :: later) :
    Needed g root entries (earlier ++ [entry]) entry.node := by
  obtain ⟨_, fresh, inputs⟩ := ordered.split split
  have reached : g.Reaches root entry.node := by
    rw [← ordered.mem_iff, split]
    simp
  have split' : entries = (earlier ++ [entry]) ++ later := by simp [split]
  refine ⟨.inl (by simp), root_or_usedAfter ordered split' reached ?_⟩
  intro user member input
  rcases List.mem_append.mp member with before | last
  · exact not_mem_inputs ordered split fresh user before input
  · cases List.mem_singleton.mp last
    exact fresh (inputs _ input)

private theorem root_not_mem (ordered : g.Ordered root entries) (split : entries = earlier ++ later)
    (more : later ≠ []) : root ∉ earlier.map Graph.Entry.node := by
  obtain ⟨t, before, _, ends⟩ := ordered.last
  have concat : entries = (earlier ++ later.dropLast) ++ [later.getLast more] := by
    rw [split, List.append_assoc, List.dropLast_append_getLast]
  have fresh := (ordered.split concat).2.1
  rw [(List.append_singleton_inj.mp (concat.symm.trans ends)).2, List.map_append,
    List.mem_append, not_or] at fresh
  exact fresh.1

structure Housed (g : Graph α) (root : Nat) (entries earlier : List (Graph.Entry α))
    (table : SlotTable) : Prop where
  needed : ∀ {s n}, table.Holds s n → Needed g root entries earlier n
  once : ∀ {s s' n}, table.Holds s n → table.Holds s' n → s = s'

theorem housed_start (ordered : g.Ordered root entries) :
    Housed g root entries [] (start entries).table := by
  constructor
  · intro s n held
    obtain ⟨a, _, stands⟩ := exists_axis_of_holds held
    obtain ⟨kind, reached⟩ := ordered.axisNode?_spec stands
    exact ⟨.inr ⟨a, kind⟩, root_or_usedAfter ordered rfl reached nofun⟩
  · intro s s' n held held'
    obtain ⟨a, rfl, stands⟩ := exists_axis_of_holds held
    obtain ⟨b, rfl, stands'⟩ := exists_axis_of_holds held'
    have kind := (ordered.axisNode?_spec stands).1
    rw [(ordered.axisNode?_spec stands').1] at kind
    cases kind
    rfl

private theorem mem_dying {plan : Plan β} {table : SlotTable} {position s n : Nat} {t : Term α Nat}
    (once : ∀ s', table.Holds s' n → s' = s) (held : table.Holds s n) (input : n ∈ t.inputs)
    (ends : plan.isLastUse n position = true) :
    s ∈ (dying plan table position t).map Prod.fst := by
  obtain ⟨first, found⟩ := SlotTable.exists_slotOf? held
  have same := once first (SlotTable.holds_of_slotOf? found)
  refine List.mem_map.mpr ⟨(first, n), List.mem_filterMap.mpr ⟨n, ?_, ?_⟩, same⟩
  · exact List.mem_eraseDups.mpr (List.mem_filter.mpr ⟨input, ends⟩)
  · rw [found]
    rfl

theorem Housed.not_holds {table : SlotTable} (ordered : g.Ordered root entries)
    (split : entries = earlier ++ entry :: later) (operator : entry.term.axis? = none)
    (housed : Housed g root entries earlier table) (s : Nat) : ¬table.Holds s entry.node := by
  intro held
  obtain ⟨stored, fresh, _⟩ := ordered.split split
  rcases (housed.needed held).1 with made | ⟨a, axis⟩
  · exact fresh made
  · rw [stored, Option.some.injEq] at axis
    rw [axis] at operator
    cases operator

/-- The first free slot is below the number of nodes that are needed once it is taken: all slots
below it are taken, by different nodes. -/
theorem Housed.freeSlot_lt_encard {table : SlotTable} {n : Nat}
    (housed : Housed g root entries earlier (table.occupy n)) :
    ((table.freeSlot + 1 : Nat) : ℕ∞) ≤ {n | Needed g root entries earlier n}.encard := by
  rw [← encard_Iio]
  refine encard_le_of_related (table.occupy n).Holds ?_ housed.once
  intro s below
  have taken : ∃ m, (table.occupy n).Holds s m := by
    rcases Nat.lt_or_eq_of_le (Nat.le_of_lt_succ below) with lower | same
    · obtain ⟨m, held⟩ := SlotTable.exists_holds_of_lt_freeSlot lower
      exact ⟨m, SlotTable.holds_occupy.mpr (.inr held)⟩
    · exact ⟨n, SlotTable.holds_occupy.mpr (.inl ⟨same, rfl⟩)⟩
  obtain ⟨m, stands⟩ := taken
  exact ⟨m, housed.needed stands, stands⟩

variable [Sample β] [Narrow α β]

/-- Freeing what is used for the last time and placing the result leaves what is needed. -/
theorem Housed.place {table : SlotTable} (ordered : g.Ordered root entries)
    (split : entries = earlier ++ entry :: later) (operator : entry.term.axis? = none)
    (housed : Housed g root entries earlier table) :
    Housed g root entries (earlier ++ [entry])
      ((freed (Plan.ofEntries entries : Plan β) table earlier.length entry.term).occupy
        entry.node) := by
  have absent := housed.not_holds ordered split operator
  constructor
  · intro s n held
    rcases SlotTable.holds_occupy.mp held with ⟨_, rfl⟩ | old
    · exact needed_of_made ordered split
    · obtain ⟨stands, kept⟩ := SlotTable.holds_vacateAll.mp old
      refine (housed.needed stands).concat split fun input => ?_
      by_contra unused
      push Not at unused
      subst split
      exact kept (mem_dying (fun _ held' => housed.once held' stands) stands input
        (Plan.isLastUse_of_unused input unused))
  · intro s s' n held held'
    rcases SlotTable.holds_occupy.mp held with ⟨rfl, rfl⟩ | old
    · rcases SlotTable.holds_occupy.mp held' with ⟨rfl, _⟩ | old'
      · rfl
      · exact absurd (holds_of_freed old') (absent s')
    · rcases SlotTable.holds_occupy.mp held' with ⟨_, rfl⟩ | old'
      · exact absurd (holds_of_freed old) (absent s)
      · exact housed.once (holds_of_freed old) (holds_of_freed old')

theorem Encodes.axis? {plan : Plan β} {table : SlotTable} {t : Term α Nat} {op : Opcode}
    {a b : Nat} (encodes : Encodes plan table t op a b) : t.axis? = none := by
  cases encodes with
  | const c => rfl
  | unary _ => rfl
  | binary _ _ => rfl

theorem Housed.step {table next : SlotTable} (ordered : g.Ordered root entries)
    (split : entries = earlier ++ entry :: later) (housed : Housed g root entries earlier table)
    (places : Places (Plan.ofEntries entries : Plan β) earlier.length entry table next) :
    Housed g root entries (earlier ++ [entry]) next := by
  cases places with
  | axis kind =>
      refine ⟨fun held => (housed.needed held).concat split fun input => ?_, housed.once⟩
      rw [kind] at input
      cases input
  | result encodes => exact housed.place ordered split encodes.axis?

theorem housed_kept (ordered : g.Ordered root entries) :
    Kept (Plan.ofEntries entries : Plan β) entries
      fun earlier layout => Housed g root entries earlier layout.table :=
  fun split housed emits => housed.step ordered split emits.places

def Numbered (plan : Plan β) (entries : List (Graph.Entry α)) : Prop :=
  ∀ entry ∈ entries, ∀ c, entry.term = .const c →
    Plan.poolIndex plan.pool (Narrow.narrow c) < 256

/-- What a layout without failures affords: places for the constants that were loaded, and slots for
what was live at any time. -/
structure Afforded (g : Graph α) (plan : Plan β) (entries earlier : List (Graph.Entry α)) :
    Prop where
  loads : Numbered plan earlier
  live : ∀ {first rest}, earlier = first ++ rest → {n | Live g entries first n}.encard ≤ 256

theorem encard_live_le {layout : Layout} (covers : Covers g entries earlier layout.table)
    (bounded : Bounded layout) : {n | Live g entries earlier n}.encard ≤ 256 := by
  have covered : {n | Live g entries earlier n} ⊆ {n | ∃ s, layout.table.Holds s n} := covers
  refine (Set.encard_le_encard covered).trans ((SlotTable.encard_held_le _).trans ?_)
  exact_mod_cast bounded.table

theorem poolIndex_lt_of_make {plan : Plan β} {table : SlotTable} {t : Term α Nat} {op : Opcode}
    {out a b : Nat} {i : Instruction} (encodes : Encodes plan table t op a b)
    (made : Instruction.make op out a b = .ok i) (c : α) (kind : t = .const c) :
    Plan.poolIndex plan.pool (Narrow.narrow c) < 256 := by
  subst kind
  cases encodes with
  | const _ =>
      obtain ⟨_, _, first, _⟩ := Instruction.fields_of_make made
      rw [← first]
      exact i.a.toNat_lt

theorem numbered_kept (plan : Plan β) (entries : List (Graph.Entry α)) :
    Kept plan entries fun earlier _ => Numbered plan earlier := by
  intro earlier later entry layout next split numbered emits other member c kind
  rcases List.mem_append.mp member with before | last
  · exact numbered other before c kind
  · cases List.mem_singleton.mp last
    cases emits with
    | axis axis =>
        rw [axis] at kind
        cases kind
    | instruction encodes made => exact poolIndex_lt_of_make encodes made c kind

theorem Afforded.concat {plan : Plan β} (afforded : Afforded g plan entries earlier)
    (loads : Numbered plan (earlier ++ [entry]))
    (live : {n | Live g entries (earlier ++ [entry]) n}.encard ≤ 256) :
    Afforded g plan entries (earlier ++ [entry]) := by
  refine ⟨loads, fun {first rest} split => ?_⟩
  rcases List.eq_nil_or_concat' rest with rfl | ⟨rest, last, rfl⟩
  · rw [← List.append_nil first, ← split]
    exact live
  · rw [← List.append_assoc] at split
    exact afforded.live (List.append_inj_left' split rfl)

structure Supplied (g : Graph α) (root : Nat) (plan : Plan β)
    (entries earlier : List (Graph.Entry α)) (layout : Layout) : Prop where
  covers : Covers g entries earlier layout.table
  bounded : Bounded layout
  housed : Housed g root entries earlier layout.table
  afforded : Afforded g plan entries earlier

theorem supplied_start (ordered : g.Ordered root entries) (unified : g.AxesUnified root)
    (plan : Plan β) : Supplied g root plan entries [] (start entries) := by
  have covers := covers_start ordered unified
  have bounded := bounded_start entries
  refine ⟨covers, bounded, housed_start ordered, nofun, fun split => ?_⟩
  rw [(List.append_eq_nil_iff.mp split.symm).1]
  exact encard_live_le covers bounded

theorem supplied_kept (ordered : g.Ordered root entries) :
    Kept (Plan.ofEntries entries : Plan β) entries fun earlier layout =>
      Supplied g root (.ofEntries entries : Plan β) entries earlier layout := by
  intro earlier later entry layout next split supplied emits
  have covers := covers_kept ordered split supplied.covers emits
  have bounded := bounded_kept _ _ split supplied.bounded emits
  have loads := numbered_kept _ _ split supplied.afforded.loads emits
  exact ⟨covers, bounded, housed_kept ordered split supplied.housed emits,
    supplied.afforded.concat loads (encard_live_le covers bounded)⟩

end Lowering

namespace Graph

open Lowering

variable {α : Type} {g : Graph α} {root : Nat} {entries earlier later : List (Entry α)}

/-- The nodes that are alive when one part of an order has been worked off and the rest is still to
come: those that have been made, and the axes, as far as they are used later or are the root. -/
def liveAfter (g : Graph α) (root : Nat) (before after : List Nat) : Set Nat :=
  {n | (n ∈ before ∨ ∃ a, g.term? n = some (.axis a)) ∧
    (n = root ∨ ∃ user ∈ after, g.Uses user n)}

theorem liveAfter_eq (ordered : g.Ordered root entries) (split : entries = earlier ++ later) :
    g.liveAfter root (earlier.map Entry.node) (later.map Entry.node) =
      {n | Needed g root entries earlier n} := by
  have uses : ∀ n, (∃ user ∈ later.map Entry.node, g.Uses user n) ↔
      UsedAfter entries earlier n := by
    intro n
    rw [usedAfter_iff split]
    simp only [List.mem_map, exists_exists_and_eq_and]
    refine exists_congr fun user => and_congr_right fun member => ?_
    have stored := ordered.term? (split ▸ List.mem_append_right earlier member)
    simp [Uses, stored]
  ext n
  simp only [liveAfter, Set.mem_ofPred_eq, uses, Needed]

theorem needed_eq_live {t : Term α Nat} (ordered : g.Ordered root entries)
    (split : entries = earlier ++ later) (more : later ≠ []) (stored : g.term? root = some t)
    (operator : t.axis? = none) :
    {n | Needed g root entries earlier n} = {n | Live g entries earlier n} := by
  ext n
  constructor
  · intro needed
    rcases needed.2 with rfl | used
    · -- The root comes last, so it has not been made.
      rcases needed.1 with made | ⟨a, axis⟩
      · exact absurd made (root_not_mem ordered split more)
      · cases stored.symm.trans axis
        cases operator
    · exact ⟨used, needed.1⟩
  · intro live
    exact ⟨live.2, .inr live.1⟩

/-- When everything has been made, only the root is still needed. -/
theorem eq_root_of_needed {n : Nat} (needed : Needed g root entries entries n) : n = root := by
  refine needed.2.resolve_right fun used => ?_
  obtain ⟨user, none, _⟩ := (usedAfter_iff (List.append_nil entries).symm).mp used
  cases none

theorem encard_needed_le_one (entries : List (Entry α)) :
    {n | Needed g root entries entries n}.encard ≤ 1 := by
  refine Set.encard_le_one_iff.mpr fun n m needed needed' => ?_
  exact (eq_root_of_needed needed).trans (eq_root_of_needed needed').symm

variable (β : Type) [Sample β] [Narrow α β]

def constantBits (g : Graph α) (root : Nat) : Set UInt32 :=
  {w | ∃ n c, g.Reaches root n ∧ g.term? n = some (.const c) ∧
    Sample.bits (Narrow.narrow c : β) = w}

/-- The expression needs no more constants, and at no time more slots, than a byte can number. -/
structure WithinLimits (g : Graph α) (root : Nat) : Prop where
  constants : (g.constantBits β root).encard ≤ 256
  slots : ∀ before after, g.order root = .ok (before ++ after) →
    (g.liveAfter root before after).encard ≤ 256

theorem encard_constantBits (ordered : g.Ordered root entries) :
    (g.constantBits β root).encard = (Plan.poolOf entries : List β).length := by
  have listed : g.constantBits β root =
      (((Plan.poolOf entries : List β).map Sample.bits).toFinset : Set UInt32) := by
    ext w
    simp only [List.coe_toFinset, Set.mem_ofPred_eq, List.mem_map]
    constructor
    · intro used
      obtain ⟨n, c, reached, stored, rfl⟩ := used
      obtain ⟨entry, member, rfl⟩ := List.mem_map.mp ((ordered.mem_iff n).mpr reached)
      rw [ordered.term? member, Option.some.injEq] at stored
      exact ⟨_, Plan.mem_poolOf member stored, rfl⟩
    · intro pooled
      obtain ⟨d, member, rfl⟩ := pooled
      obtain ⟨entry, inside, c, kind, rfl⟩ := Plan.exists_const_of_mem_poolOf member
      refine ⟨entry.node, c, (ordered.mem_iff _).mp (List.mem_map_of_mem inside), ?_, rfl⟩
      rw [ordered.term? inside, kind]
  rw [listed, Set.encard_coe_eq_coe_finsetCard,
    List.toFinset_card_of_nodup (Plan.nodup_bits_poolOf entries), List.length_map]

variable {β}

theorem withinLimits_of_lower {tape : Tape β} (unified : g.AxesUnified root)
    (lowered : g.lower root = .ok tape) : g.WithinLimits β root := by
  obtain ⟨t, stored, operator⟩ := exists_term?_of_lower lowered
  obtain ⟨before, listed⟩ := exists_postOrder_concat stored
  have ordered := (Ordered.of_postOrder listed).2
  rcases lower_induct _ rfl listed rfl operator (supplied_start ordered unified _)
    (supplied_kept (β := β) ordered) with
    ⟨layout, op, a, b, i, supplied, encodes, made, _⟩ | ⟨_, _, _, _, e, _, _, _, failed⟩
  · constructor
    · -- Every constant was loaded, the one of the root included.
      have emits : Emits (.ofEntries (before ++ [⟨root, t⟩]) : Plan β) before.length ⟨root, t⟩
          layout ⟨_, i :: layout.code, #[]⟩ := .instruction encodes made
      have numbered := numbered_kept _ (before ++ [⟨root, t⟩]) rfl supplied.afforded.loads emits
      rw [encard_constantBits β ordered]
      exact_mod_cast Plan.length_poolOf_le List.prefix_rfl numbered
    · intro first rest nodes
      obtain ⟨earlier, later, split, rfl, rfl⟩ := exists_split_of_order listed nodes
      rw [liveAfter_eq ordered split]
      rcases List.eq_nil_or_concat' later with rfl | ⟨between, last, rfl⟩
      · rw [List.append_nil] at split
        subst split
        exact (encard_needed_le_one _).trans (by norm_num)
      · rw [needed_eq_live ordered split (by simp) stored operator]
        rw [← List.append_assoc] at split
        exact supplied.afforded.live (List.append_inj_left' split rfl)
  · rw [failed] at lowered
    cases lowered

theorem inputs_lt_of_encodes {plan : Plan β} {table : SlotTable} {t : Term α Nat} {op : Opcode}
    {a b : Nat} (inside : table.size ≤ 256) (pool : plan.pool.length ≤ 256)
    (pooled : ∀ c, t = .const c → Narrow.narrow c ∈ plan.pool)
    (encodes : Encodes plan table t op a b) : a < 256 ∧ b < 256 := by
  cases encodes with
  | const c =>
      obtain ⟨place, _⟩ := List.getElem?_eq_some_iff.mp (Plan.getElem?_poolIndex (pooled c rfl))
      exact ⟨Nat.lt_of_lt_of_le place pool, by decide⟩
  | unary found =>
      exact ⟨Nat.lt_of_lt_of_le (SlotTable.slotOf?_lt_size found) inside, by decide⟩
  | binary found found' =>
      exact ⟨Nat.lt_of_lt_of_le (SlotTable.slotOf?_lt_size found) inside,
        Nat.lt_of_lt_of_le (SlotTable.slotOf?_lt_size found') inside⟩

theorem WithinLimits.exists_make {layout : Layout} {entry : Entry α} {op : Opcode} {a b : Nat}
    (limits : g.WithinLimits β root) (listed : g.postOrder root = .ok entries)
    (split : entries = earlier ++ entry :: later) (bounded : Bounded layout)
    (housed : Housed g root entries earlier layout.table)
    (encodes : Encodes (Plan.ofEntries entries : Plan β) layout.table entry.term op a b) :
    ∃ i, Instruction.make op (freed (Plan.ofEntries entries : Plan β) layout.table earlier.length
      entry.term).freeSlot a b = .ok i := by
  have ordered := (Ordered.of_postOrder listed).2
  have member : entry ∈ entries := by simp [split]
  have split' : entries = (earlier ++ [entry]) ++ later := by simp [split]
  have output : (freed (Plan.ofEntries entries : Plan β) layout.table earlier.length
      entry.term).freeSlot < 256 := by
    have needed := (housed.place (β := β) ordered split encodes.axis?).freeSlot_lt_encard
    have few := limits.slots ((earlier ++ [entry]).map Entry.node) (later.map Entry.node) (by
      rw [order, listed, ← List.map_append, ← split']
      rfl)
    rw [liveAfter_eq ordered split'] at few
    exact_mod_cast needed.trans few
  have pool : (Plan.poolOf entries : List β).length ≤ 256 := by
    have few := limits.constants
    rw [encard_constantBits β ordered] at few
    exact_mod_cast few
  obtain ⟨first, second⟩ := inputs_lt_of_encodes bounded.table pool
    (fun c kind => Plan.mem_poolOf member kind) encodes
  exact Instruction.exists_make op output first second

theorem WithinLimits.exists_lower {t : Term α Nat} (limits : g.WithinLimits β root)
    (stored : g.term? root = some t) (operator : t.axis? = none) (unified : g.AxesUnified root) :
    ∃ tape : Tape β, g.lower root = .ok tape := by
  obtain ⟨before, listed⟩ := exists_postOrder_concat stored
  have ordered := (Ordered.of_postOrder listed).2
  rcases lower_induct _ rfl listed rfl operator (supplied_start ordered unified _)
    (supplied_kept (β := β) ordered) with
    ⟨layout, op, a, b, i, _, _, _, closed⟩ |
    ⟨earlier, entry, later, stopped, e, split, supplied, fails, _⟩
  · exact ⟨_, closed⟩
  · cases fails with
    | missing input absent =>
        obtain ⟨slot, found⟩ := supplied.covers.exists_slotOf? ordered split input
        rw [absent] at found
        cases found
    | overflow encodes failed =>
        obtain ⟨i, made⟩ :=
          limits.exists_make listed split supplied.bounded supplied.housed encodes
        rw [made] at failed
        cases failed

/-- Lowering succeeds exactly within the limits. -/
theorem exists_lower_iff {t : Term α Nat} (stored : g.term? root = some t)
    (operator : t.axis? = none) (unified : g.AxesUnified root) :
    (∃ tape : Tape β, g.lower root = .ok tape) ↔ g.WithinLimits β root :=
  ⟨fun ⟨_, lowered⟩ => withinLimits_of_lower unified lowered,
    fun limits => limits.exists_lower stored operator unified⟩

end Graph

end SurfaceTape

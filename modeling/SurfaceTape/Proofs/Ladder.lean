import SurfaceTape.Proofs.Rewriting
import SurfaceTape.Proofs.SlotDemand

/-!
# Ladders

A family of expressions that simplification makes more demanding. Each group of a ladder adds the
negation of a sine to what is below it, and uses the negation a second time. As it stands, the sine
dies when it is negated, so one slot for each group is enough. Simplification subtracts the sine
instead, and then the sine and its negation are alive together. The walk goes down the whole ladder
before it works out the first sum, so the groups wait for it all at once.
-/

set_option autoImplicit false

namespace SurfaceTape.Ladder

open SurfaceTape.Graph

variable {α : Type}

/-- Groups of four nodes above an axis: a sine, its negation, the sum of the group below and the
negation, and the minimum of the negation and the sum. -/
inductive Rung (rungs : Nat) : Nat → Term α Nat → Prop where
  | ground : Rung rungs 0 (.axis .x)
  | wave {i : Nat} : i < rungs → Rung rungs (4 * i + 1) (.unary .sin 0)
  | negation {i : Nat} : i < rungs → Rung rungs (4 * i + 2) (.unary .neg (4 * i + 1))
  | sum {i : Nat} : i < rungs → Rung rungs (4 * i + 3) (.binary .add (4 * i) (4 * i + 2))
  | top {i : Nat} : i < rungs → Rung rungs (4 * i + 4) (.binary .min (4 * i + 2) (4 * i + 3))

def termAt (n : Nat) : Term α Nat :=
  if n = 0 then .axis .x
  else
    match n % 4 with
    | 1 => .unary .sin 0
    | 2 => .unary .neg (n - 1)
    | 3 => .binary .add (n - 3) (n - 1)
    | _ => .binary .min (n - 2) (n - 1)

private theorem rung_termAt {rungs n : Nat} (inside : n < 4 * rungs + 1) :
    Rung rungs n (termAt n : Term α Nat) := by
  have place : n = 0 ∨ ∃ i < rungs,
      n = 4 * i + 1 ∨ n = 4 * i + 2 ∨ n = 4 * i + 3 ∨ n = 4 * i + 4 := by
    rcases Nat.eq_zero_or_pos n with zero | positive
    · exact .inl zero
    · exact .inr ⟨(n - 1) / 4, by omega, by omega⟩
  rcases place with rfl | ⟨i, below, rfl | rfl | rfl | rfl⟩
  · exact .ground
  · simpa [termAt] using Rung.wave below
  · simpa [termAt] using Rung.negation below
  · simpa [termAt] using Rung.sum below
  · simpa [termAt] using Rung.top below

variable {rungs n : Nat} {t : Term α Nat}

private theorem Rung.eq_termAt (rung : Rung rungs n t) : t = termAt n := by
  cases rung <;> simp [termAt]

theorem Rung.lt_of_mem_inputs (rung : Rung rungs n t) : ∀ a ∈ t.inputs, a < n := by
  intro a member
  cases rung with
  | ground => cases member
  | wave _ =>
      cases Term.mem_inputs_unary.mp member
      omega
  | negation _ =>
      cases Term.mem_inputs_unary.mp member
      omega
  | sum _ => rcases Term.mem_inputs_binary.mp member with rfl | rfl <;> omega
  | top _ => rcases Term.mem_inputs_binary.mp member with rfl | rfl <;> omega

def ofRungs (rungs : Nat) : Graph α where
  terms := Array.ofFn fun n : Fin (4 * rungs + 1) => termAt n.val
  acyclic := by
    intro n inside a member
    rw [Array.size_ofFn] at inside
    rw [Array.getElem_ofFn] at member
    exact (rung_termAt inside).lt_of_mem_inputs a member

theorem size_ofRungs (rungs : Nat) : (ofRungs rungs : Graph α).size = 4 * rungs + 1 :=
  Array.size_ofFn

theorem term?_ofRungs : (ofRungs rungs).term? n = some t ↔ Rung rungs n t := by
  have stored : (ofRungs rungs : Graph α).term? n =
      if n < 4 * rungs + 1 then some (termAt n) else none := by
    rw [term?, ofRungs, Array.getElem?_ofFn]
    rfl
  constructor
  · intro found
    have inside := lt_size_of_term? found
    rw [size_ofRungs] at inside
    rw [stored, if_pos inside] at found
    exact Option.some.inj found ▸ rung_termAt inside
  · intro rung
    have inside : n < 4 * rungs + 1 := by cases rung <;> omega
    rw [stored, if_pos inside, rung.eq_termAt]

theorem eq_zero_of_axis {a : Axis} (stored : (ofRungs rungs : Graph α).term? n = some (.axis a)) :
    n = 0 := by
  cases term?_ofRungs.mp stored
  rfl

theorem axesUnified_ofRungs (rungs root : Nat) : (ofRungs rungs : Graph α).AxesUnified root := by
  intro a k k' _ _ kind kind'
  rw [eq_zero_of_axis kind, eq_zero_of_axis kind']

/-! Without simplification a ladder needs few slots: of the nodes of one group no two are alive at
once, but for the sum, and only one sum is alive at a time. -/

section Cut

variable {before after : List Nat}

/-- A ladder that is worked off in part: what has been made has been made with all that it uses. -/
structure Cut (α : Type) (rungs : Nat) (before after : List Nat) : Prop where
  apart : ∀ {n}, n ∈ before → n ∉ after
  closed : ∀ {n a}, n ∈ before → (ofRungs rungs : Graph α).Uses n a → a ∈ before

theorem Cut.inputs (cut : Cut α rungs before after) (rung : Rung (α := α) rungs n t)
    (member : n ∈ before) : ∀ a ∈ t.inputs, a ∈ before :=
  fun _ input => cut.closed member ⟨t, term?_ofRungs.mpr rung, input⟩

theorem Cut.below (cut : Cut α rungs before after) {i j : Nat} (order : i ≤ j) (inside : j < rungs)
    (member : 4 * j + 3 ∈ before) : 4 * i ∈ before := by
  induction j with
  | zero =>
      cases Nat.le_zero.mp order
      exact cut.inputs (.sum inside) member _ (by simp)
  | succ j ih =>
      have top : 4 * j + 4 ∈ before := cut.inputs (.sum inside) member _ (by simp [Nat.mul_add])
      rcases Nat.lt_or_eq_of_le order with below | same
      · exact ih (Nat.le_of_lt_succ below) (by omega) (cut.inputs (.top (by omega)) top _ (by simp))
      · rw [same]
        exact top

/-- The nodes that are alive at a cut, each with a number that tells it from the others. -/
inductive Alive (rungs : Nat) (before after : List Nat) : Nat → Nat → Prop where
  | ground : Alive rungs before after rungs 0
  | wave {i : Nat} : i < rungs → 4 * i + 1 ∈ before → 4 * i + 2 ∈ after →
      Alive rungs before after i (4 * i + 1)
  | negation {i : Nat} : i < rungs → 4 * i + 2 ∈ before → 4 * i + 3 ∈ after ∨ 4 * i + 4 ∈ after →
      Alive rungs before after i (4 * i + 2)
  | sum {i : Nat} : i < rungs → 4 * i + 3 ∈ before → 4 * i + 4 ∈ after →
      Alive rungs before after (rungs + 1) (4 * i + 3)
  | top {i : Nat} : i < rungs → 4 * i + 4 ∈ before → Alive rungs before after i (4 * i + 4)

theorem Alive.lt {key : Nat} (alive : Alive rungs before after key n) : key < rungs + 2 := by
  cases alive <;> omega

theorem Cut.made (cut : Cut α rungs before after) {i : Nat} (inside : i < rungs)
    (member : 4 * i + 4 ∈ before) : 4 * i + 2 ∈ before ∧ 4 * i + 3 ∈ before :=
  ⟨cut.inputs (.top inside) member _ (by simp), cut.inputs (.top inside) member _ (by simp)⟩

private theorem Cut.sum_unique (cut : Cut α rungs before after) {i j : Nat} (inside : j < rungs)
    (member : 4 * j + 3 ∈ before) (open_ : 4 * i + 4 ∈ after) : j ≤ i := by
  by_contra above
  have closed := cut.below (i := i + 1) (by omega) inside member
  exact cut.apart closed open_

private theorem Cut.alive_unique (cut : Cut α rungs before after) {key m : Nat}
    (alive : Alive rungs before after key n) (alive' : Alive rungs before after key m) : n = m := by
  cases alive with
  | ground => cases alive' <;> omega
  | wave inside made used =>
      cases alive' with
      | ground => omega
      | wave _ _ _ => rfl
      | negation _ made' _ => exact absurd used (cut.apart made')
      | sum _ _ _ => omega
      | top inside' made' => exact absurd used (cut.apart (cut.made inside' made').1)
  | negation inside made used =>
      cases alive' with
      | ground => omega
      | wave _ _ used' => exact absurd used' (cut.apart made)
      | negation _ _ _ => rfl
      | sum _ _ _ => omega
      | top inside' made' =>
          rcases used with sum | top
          · exact absurd sum (cut.apart (cut.made inside' made').2)
          · exact absurd top (cut.apart made')
  | sum inside made used =>
      cases alive' with
      | wave _ _ _ => omega
      | negation _ _ _ => omega
      | sum inside' made' used' =>
          have lower := cut.sum_unique inside made used'
          have upper := cut.sum_unique inside' made' used
          omega
      | top _ _ => omega
  | top inside made =>
      cases alive' with
      | ground => omega
      | wave _ _ used' => exact absurd used' (cut.apart (cut.made inside made).1)
      | negation _ _ used' =>
          rcases used' with sum | top
          · exact absurd sum (cut.apart (cut.made inside made).2)
          · exact absurd top (cut.apart made)
      | sum _ _ _ => omega
      | top _ _ => rfl

private theorem exists_alive
    (made : n ∈ before ∨ ∃ a, (ofRungs rungs : Graph α).term? n = some (.axis a))
    (used : ∃ user ∈ after, (ofRungs rungs : Graph α).Uses user n) :
    ∃ key, Alive rungs before after key n := by
  rcases made with made | ⟨a, axis⟩
  · obtain ⟨user, open_, t, stored, input⟩ := used
    cases term?_ofRungs.mp stored with
    | ground => cases input
    | wave _ =>
        cases Term.mem_inputs_unary.mp input
        exact ⟨rungs, .ground⟩
    | @negation i inside =>
        cases Term.mem_inputs_unary.mp input
        exact ⟨i, .wave inside made open_⟩
    | @sum i inside =>
        rcases Term.mem_inputs_binary.mp input with rfl | rfl
        · cases i with
          | zero => exact ⟨rungs, .ground⟩
          | succ i => exact ⟨i, .top (by omega) made⟩
        · exact ⟨i, .negation inside made (.inl open_)⟩
    | @top i inside =>
        rcases Term.mem_inputs_binary.mp input with rfl | rfl
        · exact ⟨i, .negation inside made (.inr open_)⟩
        · exact ⟨rungs + 1, .sum inside made open_⟩
  · cases term?_ofRungs.mp axis
    exact ⟨rungs, .ground⟩

theorem encard_liveAfter_ofRungs
    (nodes : (ofRungs rungs : Graph α).order (4 * rungs) = .ok (before ++ after)) :
    ((ofRungs rungs : Graph α).liveAfter (4 * rungs) before after).encard ≤ (rungs + 3 : Nat) := by
  have inside : 4 * rungs < (ofRungs rungs : Graph α).size := by
    rw [size_ofRungs]
    omega
  have cut : Cut α rungs before after :=
    ⟨fun member => (closed_of_order inside nodes member).1,
      fun member used => (closed_of_order inside nodes member).2 _ used⟩
  have counted : {n | ∃ key, Alive rungs before after key n}.encard ≤ (rungs + 2 : Nat) := by
    rw [← encard_Iio]
    refine encard_le_of_related (fun n key => Alive rungs before after key n) ?_ cut.alive_unique
    intro n alive
    obtain ⟨key, holds⟩ := alive
    exact ⟨key, holds.lt, holds⟩
  have contained : (ofRungs rungs : Graph α).liveAfter (4 * rungs) before after ⊆
      insert (4 * rungs) {n | ∃ key, Alive rungs before after key n} := by
    intro n live
    rcases live.2 with root | used
    · exact .inl root
    · exact .inr (exists_alive live.1 used)
  calc ((ofRungs rungs : Graph α).liveAfter (4 * rungs) before after).encard
    _ ≤ (insert (4 * rungs) {n | ∃ key, Alive rungs before after key n}).encard :=
        Set.encard_le_encard contained
    _ ≤ {n | ∃ key, Alive rungs before after key n}.encard + 1 := Set.encard_insert_le _ _
    _ ≤ (rungs + 2 : Nat) + 1 := add_le_add_left counted 1

end Cut

/-- A ladder loads no constants and, unless it is very long, needs few slots. -/
theorem withinLimits_ofRungs (β : Type) [Sample β] [Narrow α β] (short : rungs ≤ 253) :
    (ofRungs rungs : Graph α).WithinLimits β (4 * rungs) := by
  constructor
  · have none : (ofRungs rungs : Graph α).constantBits β (4 * rungs) = ∅ := by
      refine Set.eq_empty_iff_forall_notMem.mpr fun w used => ?_
      obtain ⟨n, c, _, stored, _⟩ := used
      cases term?_ofRungs.mp stored
    rw [none, Set.encard_empty]
    exact zero_le
  · intro before after nodes
    exact (encard_liveAfter_ofRungs nodes).trans (by exact_mod_cast Nat.add_le_add_right short 3)

/-- The ladder after simplification: every sum has become a difference with the sine itself. -/
inductive Climbs (h : Graph α) : Nat → Nat → Prop where
  | ground : h.term? 0 = some (.axis .x) → Climbs h 0 0
  | rung {i a b r : Nat} : Climbs h i a → h.term? (4 * i + 1) = some (.unary .sin 0) →
      h.term? (4 * i + 2) = some (.unary .neg (4 * i + 1)) →
      h.term? b = some (.binary .sub a (4 * i + 1)) →
      h.term? r = some (.binary .min (4 * i + 2) b) → Climbs h (i + 1) r

variable {h k : Graph α} {i r : Nat}

theorem Climbs.grow (climbs : Climbs h i r) (grown : h ≤ k) : Climbs k i r := by
  induction climbs with
  | ground axis => exact .ground (term?_of_le grown axis)
  | rung _ wave negation difference top ih =>
      exact .rung ih (term?_of_le grown wave) (term?_of_le grown negation)
        (term?_of_le grown difference) (term?_of_le grown top)

theorem Climbs.ground_term? (climbs : Climbs h i r) : h.term? 0 = some (.axis .x) := by
  induction climbs with
  | ground axis => exact axis
  | rung _ _ _ _ _ ih => exact ih

theorem Climbs.lt_size (climbs : Climbs h i r) : r < h.size := by
  cases climbs with
  | ground axis => exact lt_size_of_term? axis
  | rung _ _ _ _ top => exact lt_size_of_term? top

def pair (i : Nat) : List (Entry α) :=
  [⟨4 * i + 2, .unary .neg (4 * i + 1)⟩, ⟨4 * i + 1, .unary .sin 0⟩]

def pairs : Nat → List (Entry α)
  | 0 => []
  | i + 1 => pairs i ++ pair i

/-- Nothing has been recorded of the groups below, nor any operator with two inputs. -/
def Untouched (h : Graph α) (i : Nat) (done : List (Entry α)) : Prop :=
  ∀ n ∈ done.map Entry.node, (n = 0 ∨ ∃ j, i ≤ j ∧ (n = 4 * j + 1 ∨ n = 4 * j + 2)) ∧
    ∀ op a b, h.term? n ≠ some (.binary op a b)

variable {done : List (Entry α)}

private theorem mem_search_ground (ground : h.term? 0 = some (.axis .x)) (n : Nat) :
    n ∈ (h.search 0 done).map Entry.node ↔ n = 0 ∨ n ∈ done.map Entry.node := by
  by_cases old : 0 ∈ done.map Entry.node
  · rw [search_of_recorded old]
    constructor
    · exact .inr
    · intro place
      rcases place with rfl | member
      · exact old
      · exact member
  · rw [search_of_fresh old ground]
    exact List.mem_cons

private theorem Untouched.search_negation (untouched : Untouched h (i + 1) done)
    (wave : h.term? (4 * i + 1) = some (.unary .sin 0))
    (negation : h.term? (4 * i + 2) = some (.unary .neg (4 * i + 1))) :
    h.search (4 * i + 2) done = pair i ++ h.search 0 done := by
  have freshWave : 4 * i + 1 ∉ done.map Entry.node := by
    intro old
    obtain ⟨place, _⟩ := untouched _ old
    omega
  have freshNegation : 4 * i + 2 ∉ done.map Entry.node := by
    intro old
    obtain ⟨place, _⟩ := untouched _ old
    omega
  rw [search_of_fresh freshNegation negation]
  show _ :: h.search (4 * i + 1) done = _
  rw [search_of_fresh freshWave wave]
  rfl

private theorem Untouched.pair (untouched : Untouched h (i + 1) done)
    (ground : h.term? 0 = some (.axis .x)) (wave : h.term? (4 * i + 1) = some (.unary .sin 0))
    (negation : h.term? (4 * i + 2) = some (.unary .neg (4 * i + 1))) :
    Untouched h i (pair i ++ h.search 0 done) := by
  intro n member
  rcases List.mem_cons.mp member with rfl | member
  · exact ⟨.inr ⟨i, le_rfl, .inr rfl⟩, by simp [negation]⟩
  rcases List.mem_cons.mp member with rfl | member
  · exact ⟨.inr ⟨i, le_rfl, .inl rfl⟩, by simp [wave]⟩
  rcases (mem_search_ground ground n).mp member with rfl | old
  · exact ⟨.inl rfl, by simp [ground]⟩
  · obtain ⟨place, operator⟩ := untouched n old
    exact ⟨place.imp_right fun ⟨j, order, which⟩ => ⟨j, by omega, which⟩, operator⟩

/-- The walk goes down to the ground first, and leaves every sine and its negation to be used on the
way up. -/
theorem Climbs.exists_search (climbs : Climbs h i r) (untouched : Untouched h i done) :
    ∃ ups, h.search r done = ups ++ (pairs i ++ h.search 0 done) ∧
      ∀ j < i, (∃ user ∈ ups, 4 * j + 1 ∈ user.term.inputs) ∧
        ∃ user ∈ ups, 4 * j + 2 ∈ user.term.inputs := by
  induction climbs generalizing done with
  | ground _ => exact ⟨[], rfl, nofun⟩
  | @rung i a b r below wave negation difference top ih =>
      have ground := below.ground_term?
      have down := untouched.pair ground wave negation
      have freshTop : r ∉ done.map Entry.node := fun old => (untouched _ old).2 _ _ _ top
      have freshDifference : b ∉ (Ladder.pair i ++ h.search 0 done).map Entry.node :=
        fun old => (down _ old).2 _ _ _ difference
      have recorded : 0 ∈ (Ladder.pair i ++ h.search 0 done).map Entry.node :=
        .tail _ (.tail _ ((mem_search_ground ground 0).mpr (.inl rfl)))
      obtain ⟨ups, found, used⟩ := ih down
      rw [search_of_recorded recorded] at found
      refine ⟨⟨r, .binary .min (4 * i + 2) b⟩ :: ⟨b, .binary .sub a (4 * i + 1)⟩ :: ups, ?_, ?_⟩
      · rw [search_of_fresh freshTop top]
        show _ :: h.search b (h.search (4 * i + 2) done) = _
        rw [untouched.search_negation wave negation, search_of_fresh freshDifference difference]
        show _ :: _ :: h.search (4 * i + 1) (h.search a _) = _
        rw [found, search_of_recorded (by simp [Ladder.pair])]
        simp [pairs]
      · intro j order
        rcases Nat.lt_or_eq_of_le (Nat.le_of_lt_succ order) with lower | rfl
        · obtain ⟨⟨user, member, input⟩, user', member', input'⟩ := used j lower
          exact ⟨⟨user, .tail _ (.tail _ member), input⟩, user', .tail _ (.tail _ member'), input'⟩
        · exact ⟨⟨_, .tail _ (.head _), by simp⟩, _, .head _, by simp⟩

private theorem mem_pairs {j : Nat} (order : j < i) :
    4 * j + 1 ∈ (pairs i : List (Entry α)).map Entry.node ∧
      4 * j + 2 ∈ (pairs i : List (Entry α)).map Entry.node := by
  induction i with
  | zero => cases order
  | succ i ih =>
      rw [pairs, List.map_append, List.mem_append, List.mem_append]
      rcases Nat.lt_or_eq_of_le (Nat.le_of_lt_succ order) with lower | rfl
      · exact ⟨.inl (ih lower).1, .inl (ih lower).2⟩
      · exact ⟨.inr (by simp [pair]), .inr (by simp [pair])⟩

/-- Before the walk goes up again, all sines and all negations are alive. -/
theorem Climbs.exists_cut (climbs : Climbs h i r) :
    ∃ before after, h.order r = .ok (before ++ after) ∧ ∀ j < i,
      4 * j + 1 ∈ h.liveAfter r before after ∧ 4 * j + 2 ∈ h.liveAfter r before after := by
  have untouched : Untouched h i [] := nofun
  obtain ⟨ups, found, used⟩ := climbs.exists_search untouched
  have ordered := ordered_search climbs.lt_size
  have listed := postOrder_eq_search climbs.lt_size
  rw [found, List.reverse_append] at ordered listed
  have alive : ∀ {n}, n ∈ (pairs i : List (Entry α)).map Entry.node →
      (∃ user ∈ ups, n ∈ user.term.inputs) →
      n ∈ h.liveAfter r ((pairs i ++ h.search 0 []).reverse.map Entry.node)
        (ups.reverse.map Entry.node) := by
    intro n made used
    rw [liveAfter_eq ordered rfl]
    refine ⟨.inl ?_, .inr ((Lowering.usedAfter_iff rfl).mpr ?_)⟩
    · rw [List.map_reverse, List.mem_reverse, List.map_append, List.mem_append]
      exact .inl made
    · obtain ⟨user, member, input⟩ := used
      exact ⟨user, List.mem_reverse.mpr member, input⟩
  refine ⟨_, _, ?_, fun j order => ⟨alive (mem_pairs order).1 (used j order).1,
    alive (mem_pairs order).2 (used j order).2⟩⟩
  rw [order, listed, ← List.map_append]
  rfl

private theorem encard_of_pairs {nodes : Set Nat}
    (both : ∀ j < i, 4 * j + 1 ∈ nodes ∧ 4 * j + 2 ∈ nodes) :
    ((2 * i : Nat) : ℕ∞) ≤ nodes.encard := by
  rw [← encard_Iio]
  refine encard_le_of_related (fun s n => n = 4 * (s / 2) + 1 + s % 2) ?_ (by omega)
  intro s below
  obtain ⟨wave, negation⟩ := both (s / 2) (Nat.div_lt_of_lt_mul below)
  refine ⟨_, ?_, rfl⟩
  rcases Nat.mod_two_eq_zero_or_one s with even | odd
  · rw [even]
    exact wave
  · rw [odd]
    exact negation

theorem Climbs.not_withinLimits (β : Type) [Sample β] [Narrow α β] (climbs : Climbs h i r)
    (long : 128 < i) : ¬h.WithinLimits β r := by
  intro limits
  obtain ⟨before, after, nodes, both⟩ := climbs.exists_cut
  have few : ((2 * i : Nat) : ℕ∞) ≤ (256 : Nat) :=
    (encard_of_pairs both).trans (limits.slots before after nodes)
  have : 2 * i ≤ 256 := by exact_mod_cast few
  omega

/-! Simplification turns a ladder into what climbs in that way. -/

def Rises (h : Graph α) (n r : Nat) : Prop :=
  match n % 4 with
  | 0 => Climbs h (n / 4) r
  | 3 => ∃ a, Climbs h (n / 4) a ∧ h.term? r = some (.binary .sub a (n - 2))
  | _ => r = n

private theorem rises_top : Rises h (4 * i) r ↔ Climbs h i r := by
  simp [Rises]

private theorem rises_wave : Rises h (4 * i + 1) r ↔ r = 4 * i + 1 := by
  simp [Rises]

private theorem rises_negation : Rises h (4 * i + 2) r ↔ r = 4 * i + 2 := by
  simp [Rises]

private theorem rises_sum : Rises h (4 * i + 3) r ↔
    ∃ a, Climbs h i a ∧ h.term? r = some (.binary .sub a (4 * i + 1)) := by
  have quotient : (4 * i + 3) / 4 = i := by omega
  simp [Rises, quotient]

theorem Rises.grow {n : Nat} (grown : h ≤ k) (rises : Rises h n r) : Rises k n r := by
  unfold Rises at rises ⊢
  split at rises
  · exact rises.grow grown
  · obtain ⟨a, climbs, stored⟩ := rises
    exact ⟨a, climbs.grow grown, term?_of_le grown stored⟩
  · exact rises

theorem Climbs.const?_eq_none (climbs : Climbs h i r) : h.const? r = none := by
  cases climbs with
  | ground axis => rw [const?, axis]; rfl
  | rung _ _ _ _ top => rw [const?, top]; rfl

theorem Climbs.negand?_eq_none (climbs : Climbs h i r) : h.negand? r = none := by
  cases climbs with
  | ground axis => rw [negand?, axis]
  | rung _ _ _ _ top => rw [negand?, top]

open SurfaceTape.Build

variable [Scalar α] {before after : Term α Nat}

/-- A sum with a negation becomes a difference with what is negated. -/
private theorem simplifyTerm_sum (n : Nat) {i a : Nat} (climbs : Climbs h i a)
    (wave : h.term? (4 * i + 1) = some (.unary .sin 0))
    (negation : h.term? (4 * i + 2) = some (.unary .neg (4 * i + 1)))
    (operator : before.operator?.isSome = true) :
    ∃ r h', simplifyTerm n before (.binary .add a (4 * i + 2)) h = .ok r h' ∧ h ≤ h' ∧
      h'.term? r = some (.binary .sub a (4 * i + 1)) := by
  have constWave : h.const? (4 * i + 1) = none := by
    rw [const?, wave]
    rfl
  have constNegation : h.const? (4 * i + 2) = none := by
    rw [const?, negation]
    rfl
  have negandWave : h.negand? (4 * i + 1) = none := by
    rw [negand?, wave]
  have negandNegation : h.negand? (4 * i + 2) = some (4 * i + 1) := by
    rw [negand?, negation]
  have applied : h.reduct? (.binary .add a (4 * i + 2)) =
      some (.term (.binary .sub a (4 * i + 1))) := by
    simp [reduct?, addRule, isConst, climbs.const?_eq_none, constNegation, climbs.negand?_eq_none,
      negandNegation]
  have normal : h.reduct? (.binary .sub a (4 * i + 1)) = none := by
    simp [reduct?, subRule, isConst, climbs.const?_eq_none, constWave, negandWave]
  have fits : (.binary .sub a (4 * i + 1) : Term α Nat).Fits h.size :=
    Term.fits_binary.mpr ⟨climbs.lt_size, lt_size_of_term? wave⟩
  exact ⟨h.size, h.push _ fits, simplifyTerm_of_rewritten operator applied normal fits,
    h.le_push _ fits, h.term?_push_self _ fits⟩

/-- A minimum of what was kept and what was replaced is kept or built anew. -/
private theorem simplifyTerm_min {a b : Nat} (stored : h.term? n = some before)
    (shape : Term.Rel (fun _ _ => True) before (.binary .min a b)) (first : h.const? a = none)
    (fits : (.binary .min a b : Term α Nat).Fits h.size) :
    ∃ r h', simplifyTerm n before (.binary .min a b) h = .ok r h' ∧ h ≤ h' ∧
      h'.term? r = some (.binary .min a b) := by
  have operator : before.operator?.isSome = true := by
    cases shape
    rfl
  have normal : h.reduct? (.binary .min a b) = none := by
    simp [reduct?, first]
  rw [simplifyTerm_of_normal operator normal fits]
  split
  · next same => exact ⟨n, h, rfl, le_rfl, shape.eq_of_inputs same ▸ stored⟩
  · exact ⟨h.size, h.push _ fits, rfl, h.le_push _ fits, h.term?_push_self _ fits⟩

theorem simplifyTerm_rises (grown : ofRungs rungs ≤ h)
    (stored : (ofRungs rungs).term? n = some before) (rel : Term.Rel (Rises h) before after) :
    ∃ r h', simplifyTerm n before after h = .ok r h' ∧ h ≤ h' ∧ Rises h' n r := by
  have found := term?_of_le grown stored
  have placed : ∀ {m t}, Rung rungs m t → h.term? m = some t :=
    fun rung => term?_of_le grown (term?_ofRungs.mpr rung)
  cases term?_ofRungs.mp stored with
  | ground => exact ⟨0, h, simplifyTerm_leaf rfl, le_rfl, rises_top.mpr (.ground found)⟩
  | @wave i inside =>
      cases rel with
      | unary first =>
          cases (rises_top (i := 0)).mp first
          have normal : h.reduct? (.unary .sin 0) = none := by
            simp [reduct?, const?, placed .ground, Term.const?]
          exact ⟨_, h, simplifyTerm_of_kept found rfl normal, le_rfl, rises_wave.mpr rfl⟩
  | @negation i inside =>
      cases rel with
      | unary first =>
          cases rises_wave.mp first
          have normal : h.reduct? (.unary .neg (4 * i + 1)) = none := by
            simp [reduct?, negRule, const?, placed (.wave inside), Term.const?]
          exact ⟨_, h, simplifyTerm_of_kept found rfl normal, le_rfl, rises_negation.mpr rfl⟩
  | @sum i inside =>
      cases rel with
      | binary first second =>
          cases rises_negation.mp second
          have climbs := rises_top.mp first
          obtain ⟨r, h', ran, grown', difference⟩ :=
            simplifyTerm_sum (4 * i + 3) climbs (placed (.wave inside)) (placed (.negation inside))
              (rfl : (Term.binary .add (4 * i) (4 * i + 2) : Term α Nat).operator?.isSome = true)
          exact ⟨r, h', ran, grown', rises_sum.mpr ⟨_, climbs.grow grown', difference⟩⟩
  | @top i inside =>
      cases rel with
      | binary first second =>
          cases rises_negation.mp first
          obtain ⟨a, climbs, difference⟩ := rises_sum.mp second
          have wave := placed (.wave inside)
          have negation := placed (.negation inside)
          obtain ⟨r, h', ran, grown', top⟩ := simplifyTerm_min found (.binary trivial trivial)
            (by rw [const?, negation]; rfl)
            (Term.fits_binary.mpr ⟨lt_size_of_term? negation, lt_size_of_term? difference⟩)
          refine ⟨r, h', ran, grown', (rises_top (i := i + 1)).mpr ?_⟩
          exact .rung (climbs.grow grown') (term?_of_le grown' wave) (term?_of_le grown' negation)
            (term?_of_le grown' difference) top

theorem simplify_ofRungs (rungs : Nat) :
    ∃ out h, simplify (4 * rungs) (ofRungs rungs : Graph α) = .ok out h ∧ Climbs h rungs out := by
  have inside : 4 * rungs < (ofRungs rungs : Graph α).size := by
    rw [size_ofRungs]
    omega
  obtain ⟨entries, listed, ordered⟩ := exists_postOrder inside
  obtain ⟨out, h, ran, _, rises⟩ := foldEntries_induct ordered (fun h n r => Rises h n r)
    (fun grown rises => rises.grow grown)
    (fun grown stored _ rel => simplifyTerm_rises grown stored rel)
  refine ⟨out, h, ?_, rises_top.mp rises⟩
  rw [simplify, fold, listed]
  exact ran

end SurfaceTape.Ladder

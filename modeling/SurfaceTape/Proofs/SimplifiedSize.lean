import SurfaceTape.Proofs.RuleNesting
import Mathlib.Tactic.IntervalCases

/-!
# The size of a simplified expression

No rule makes the unfolded expression larger. The number of distinct nodes is another matter: a
constant that a rule passes by may be used elsewhere, and the rule has put a new node in its place.
This can happen only where a term expands into two new nodes, so the number of such places bounds
the growth. Every other node is either kept or replaced by at most one.
-/

set_option autoImplicit false

namespace SurfaceTape

namespace Graph

variable {α : Type} {g h : Graph α} {n root : Nat} {t : Term α Nat}

def sizeMeaning : Interpretation α Nat where
  axis _ := 1
  const _ := 1
  unary _ s := s + 1
  binary _ s s' := s + s' + 1

/-- How many nodes the expression has when it is unfolded: a shared node counts as often as it is
met. -/
def treeSize (g : Graph α) (n : Nat) : Nat := (g.value? sizeMeaning n).getD 0

def termSize (g : Graph α) : Term α Nat → Nat
  | .axis _ => 1
  | .const _ => 1
  | .unary _ a => g.treeSize a + 1
  | .binary _ a b => g.treeSize a + g.treeSize b + 1

private theorem value?_sizeMeaning (inside : n < g.size) :
    g.value? sizeMeaning n = some (g.treeSize n) := by
  obtain ⟨s, value⟩ := exists_value? sizeMeaning inside
  rw [treeSize, value]
  rfl

theorem treeSize_of_term? (stored : g.term? n = some t) : g.treeSize n = g.termSize t := by
  have inside : ∀ a ∈ t.inputs, a < g.size := fun a input =>
    Nat.lt_trans (lt_of_mem_inputs stored input) (lt_size_of_term? stored)
  rw [treeSize, value?_of_term? stored]
  cases t with
  | axis a => rfl
  | const c => rfl
  | unary op a =>
      rw [termValue?_unary (value?_sizeMeaning (inside a (by simp)))]
      rfl
  | binary op a b =>
      rw [termValue?_binary (value?_sizeMeaning (inside a (by simp)))
        (value?_sizeMeaning (inside b (by simp)))]
      rfl

theorem treeSize_of_le (grown : g ≤ h) (inside : n < g.size) : h.treeSize n = g.treeSize n := by
  rw [treeSize, treeSize, value?_of_le grown sizeMeaning inside]

private theorem termSize_of_le (grown : g ≤ h) (fits : t.Fits g.size) :
    h.termSize t = g.termSize t := by
  cases t with
  | axis a => rfl
  | const c => rfl
  | unary op a => simp only [termSize, treeSize_of_le grown (fits a (by simp))]
  | binary op a b =>
      simp only [termSize, treeSize_of_le grown (fits a (by simp)),
        treeSize_of_le grown (fits b (by simp))]

private theorem treeSize_push (fits : t.Fits g.size) :
    (g.push t fits).treeSize g.size = g.termSize t := by
  rw [treeSize_of_term? (g.term?_push_self t fits), termSize_of_le (g.le_push t fits) fits]

theorem termSize_le_of_rel {before after : Term α Nat}
    (rel : Term.Rel (fun a r => h.treeSize r ≤ g.treeSize a) before after) :
    h.termSize after ≤ g.termSize before := by
  cases rel with
  | axis => exact Nat.le_refl 1
  | const => exact Nat.le_refl 1
  | unary first => exact Nat.succ_le_succ first
  | binary first second => exact Nat.succ_le_succ (Nat.add_le_add first second)

theorem nodeCount_of_postOrder {entries : List (Entry α)}
    (listed : g.postOrder root = .ok entries) : g.nodeCount root = .ok entries.length := by
  rw [nodeCount, listed]
  rfl

/-- A search records at most as many nodes as the unfolded expression has. -/
theorem length_search_le (inside : n < g.size) (done : List (Entry α)) :
    (g.search n done).length ≤ done.length + g.treeSize n := by
  induction n using Nat.strongRecOn generalizing done with
  | ind n ih =>
      by_cases old : n ∈ done.map Entry.node
      · rw [search_of_recorded old]
        exact Nat.le_add_right _ _
      · obtain ⟨t, stored⟩ := exists_term?_of_lt_size inside
        have input : ∀ a ∈ t.inputs, ∀ done,
            (g.search a done).length ≤ done.length + g.treeSize a := fun a input =>
          have lower := lt_of_mem_inputs stored input
          ih a lower (Nat.lt_trans lower inside)
        rw [search_of_fresh old stored, List.length_cons, treeSize_of_term? stored]
        cases t with
        | axis a => exact Nat.le_refl _
        | const c => exact Nat.le_refl _
        | unary op a =>
            have first := input a (by simp) done
            simp only [Term.inputs, searchAll, List.foldl_cons, List.foldl_nil, termSize]
            omega
        | binary op a b =>
            have first := input a (by simp) done
            have second := input b (by simp) (g.search a done)
            simp only [Term.inputs, searchAll, List.foldl_cons, List.foldl_nil, termSize]
            omega

/-- No node below the root is used twice, neither by two nodes nor by one. -/
structure Unshared (g : Graph α) (root : Nat) : Prop where
  user_unique : ∀ {m m' k}, g.Reaches root m → g.Reaches root m' → g.Uses m k → g.Uses m' k → m = m'
  inputs_ne : ∀ {m op a b}, g.Reaches root m → g.term? m = some (.binary op a b) → a ≠ b

theorem Unshared.of_reaches (unshared : g.Unshared root) (reached : g.Reaches root n) :
    g.Unshared n :=
  ⟨fun below below' => unshared.user_unique (reached.trans below) (reached.trans below'),
    fun below => unshared.inputs_ne (reached.trans below)⟩

/-- The two sides of an unshared operator have no node in common. -/
theorem Unshared.not_reaches {op : BinaryOp} {a b k : Nat} (unshared : g.Unshared n)
    (stored : g.term? n = some (.binary op a b)) (below : g.Reaches a k) : ¬g.Reaches b k := by
  have first : g.Uses n a := ⟨_, stored, by simp⟩
  have second : g.Uses n b := ⟨_, stored, by simp⟩
  induction below with
  | refl =>
      intro reached
      rcases reached.cases_tail with same | ⟨m, above, used⟩
      · exact unshared.inputs_ne .refl stored same
      · cases unshared.user_unique .refl (.head second above) first used
        exact absurd (Reaches.le above) (Nat.not_le.mpr second.lt)
  | @tail m k above used ih =>
      intro reached
      rcases reached.cases_tail with same | ⟨m', above', used'⟩
      · subst same
        cases unshared.user_unique .refl (.head first above) second used
        exact absurd (Reaches.le above) (Nat.not_le.mpr first.lt)
      · cases unshared.user_unique (.head first above) (.head second above') used used'
        exact ih above'

/-- Where nothing is shared, the search records as many nodes as the unfolded expression has. -/
theorem Unshared.length_search (unshared : g.Unshared n) (inside : n < g.size)
    {done : List (Entry α)} (recorded : g.Recorded done)
    (apart : ∀ k, g.Reaches n k → k ∉ done.map Entry.node) :
    (g.search n done).length = done.length + g.treeSize n := by
  induction n using Nat.strongRecOn generalizing done with
  | ind n ih =>
      obtain ⟨t, stored⟩ := exists_term?_of_lt_size inside
      have within : ∀ a ∈ t.inputs, a < g.size := fun a input =>
        Nat.lt_trans (lt_of_mem_inputs stored input) inside
      have input : ∀ a ∈ t.inputs, ∀ {done : List (Entry α)}, g.Recorded done →
          (∀ k, g.Reaches a k → k ∉ done.map Entry.node) →
          (g.search a done).length = done.length + g.treeSize a := fun a input _ =>
        ih a (lt_of_mem_inputs stored input) (unshared.of_reaches (reaches_input stored input))
          (within a input)
      rw [search_of_fresh (apart n .refl) stored, List.length_cons, treeSize_of_term? stored]
      cases t with
      | axis a => rfl
      | const c => rfl
      | unary op a =>
          have first := input a (by simp) recorded fun k below =>
            apart k ((reaches_input stored (by simp)).trans below)
          simp only [Term.inputs, searchAll, List.foldl_cons, List.foldl_nil, termSize]
          omega
      | binary op a b =>
          have first := input a (by simp) recorded fun k below =>
            apart k ((reaches_input stored (by simp)).trans below)
          have explored := explored_search (within a (by simp)) recorded
          have second := input b (by simp) explored.recorded (by
            intro k below member
            rcases explored.reached k member with old | ⟨m, start, reached⟩
            · exact apart k ((reaches_input stored (by simp)).trans below) old
            · cases List.mem_singleton.mp start
              exact unshared.not_reaches stored reached below)
          simp only [Term.inputs, searchAll, List.foldl_cons, List.foldl_nil, termSize]
          omega

variable [Scalar α]

/-- The unfolded size of what a rule asks for, if nothing in it were simplified any further. -/
def reductSize (g : Graph α) : Reduct α → Nat
  | .node n => g.treeSize n
  | .constant _ => 1
  | .term t => g.termSize t
  | .negatedSum a b => g.treeSize a + g.treeSize b + 2
  | .scaled a _ => g.treeSize a + 2

/-- No rule makes an expression larger. -/
theorem Rule.reductSize_le {r : Reduct α} (rule : g.Rule t r) : g.reductSize r ≤ g.termSize t := by
  cases rule <;> grind [reductSize, termSize, → treeSize_of_term?]

omit [Scalar α] in
/-- Where no node may be kept, there is nothing to be known of it. -/
private theorem keeps_none (g : Graph α) (t : Term α Nat) (m : Nat) (same : none = some m) :
    g.term? m = some t := by
  cases same

theorem Reduces.treeSize_le {kept : Option Nat} (reduces : Reduces g t kept n h)
    (fits : t.Fits g.size) (keeps : ∀ m, kept = some m → g.term? m = some t) :
    h.treeSize n ≤ g.termSize t := by
  induction reduces with
  | kept _ => exact Nat.le_of_eq (treeSize_of_term? (keeps _ rfl))
  | append fits _ => exact Nat.le_of_eq (treeSize_push fits)
  | node applied => exact (rule_of_reduct? applied).reductSize_le
  | @constant g t kept c applied =>
      rw [pushConst, treeSize_push]
      exact (rule_of_reduct? applied).reductSize_le
  | term applied _ ih =>
      have rule := rule_of_reduct? applied
      have reduced := ih (fun b input => rule.lt_size fits input) (keeps_none _ _)
      exact Nat.le_trans reduced rule.reductSize_le
  | @negatedSum g h k t kept a b sum n applied sums _ sumIH negIH =>
      have rule := rule_of_reduct? applied
      have inputs : (Term.binary .add a b : Term α Nat).Fits g.size := fun c input =>
        rule.lt_size fits input
      have summed := sumIH inputs (keeps_none _ _)
      have inside := (sums.toExtends inputs rfl (keeps_none _ _)).inside
      have negated := negIH (Term.fits_unary.mpr inside) (keeps_none _ _)
      calc k.treeSize n ≤ h.treeSize sum + 1 := negated
        _ ≤ g.treeSize a + g.treeSize b + 2 := Nat.succ_le_succ summed
        _ ≤ g.termSize t := rule.reductSize_le
  | @scaled g h t kept a n c applied _ ih =>
      have rule := rule_of_reduct? applied
      have inside := rule.lt_size fits List.mem_cons_self
      calc h.treeSize n ≤ (g.pushConst c).termSize (.binary .mul a g.size) :=
            ih (fits_scaled inside c) (keeps_none _ _)
        _ = g.treeSize a + 2 := by
            rw [termSize, treeSize_of_le (g.le_pushConst c) inside,
              treeSize_of_term? (g.term?_pushConst_self c)]
            rfl
        _ ≤ g.termSize t := rule.reductSize_le

theorem Simplified.treeSize_le (simplified : Simplified g t h n) (fits : t.Fits g.size) :
    h.treeSize n ≤ g.termSize t := by
  cases simplified with
  | derived keeps reduces => exact reduces.treeSize_le fits keeps
  | @appended k inside grown => rw [treeSize_push, termSize_of_le grown fits]

end Graph

namespace Build

open SurfaceTape.Graph

variable {α : Type} [Scalar α] {g h : Graph α} {n r root : Nat} {before after : Term α Nat}

theorem simplifyTerm_treeSize_le (grown : g ≤ h) (stored : g.term? n = some before)
    (rel : Term.Rel (fun a r => r < h.size ∧ h.treeSize r ≤ g.treeSize a) before after) :
    ∃ r h', simplifyTerm n before after h = .ok r h' ∧ h ≤ h' ∧ r < h'.size ∧
      h'.treeSize r ≤ g.treeSize n := by
  have found := term?_of_le grown stored
  cases kind : before.operator? with
  | none =>
      exact ⟨n, h, simplifyTerm_leaf kind, le_rfl, lt_size_of_term? found,
        Nat.le_of_eq (treeSize_of_le grown (lt_size_of_term? stored))⟩
  | some op =>
      have operator : before.operator?.isSome = true := by rw [kind]; rfl
      have fits := rel.fits fun _ _ small => small.1
      obtain ⟨r, h', ran, simplified⟩ := simplifyTerm_operator found operator rel fits
      have replaces := simplified.replaces fits (rel.axis?_of_operator operator)
      refine ⟨r, h', ran, replaces.grown, replaces.inside, ?_⟩
      calc h'.treeSize r ≤ h.termSize after := simplified.treeSize_le fits
        _ ≤ g.termSize before := termSize_le_of_rel (rel.imp fun _ _ small => small.2)
        _ = g.treeSize n := (treeSize_of_term? stored).symm

/-- Simplification does not make the unfolded expression larger. -/
theorem simplify_treeSize_le (inside : root < g.size) :
    ∃ out h, simplify root g = .ok out h ∧ h.treeSize out ≤ g.treeSize root := by
  obtain ⟨entries, listed, ordered⟩ := exists_postOrder inside
  obtain ⟨out, h, ran, _, _, small⟩ := foldEntries_induct ordered
    (fun h n r => r < h.size ∧ h.treeSize r ≤ g.treeSize n)
    (fun grown small => ⟨Nat.lt_of_lt_of_le small.1 (size_le_of_le grown),
      Nat.le_trans (Nat.le_of_eq (treeSize_of_le grown small.1)) small.2⟩)
    (fun grown stored _ rel => simplifyTerm_treeSize_le grown stored rel)
  refine ⟨out, h, ?_, small⟩
  rw [simplify, fold, listed]
  exact ran

/-- What simplification promises of the node that replaces another one: it is the same node just if
nothing was left to simplify there, and of the old nodes it uses none that lay elsewhere. -/
structure Inherits (g h : Graph α) (n r : Nat) : Prop where
  simple : Simple h r
  kept_iff : r = n ↔ g.Normal n
  below : ∀ k < g.size, h.Reaches r k → g.Reaches n k

theorem Inherits.grow {h' : Graph α} (grown : h ≤ h') (inherits : Inherits g h n r) :
    Inherits g h' n r :=
  ⟨inherits.simple.grow grown, inherits.kept_iff, fun k old reached =>
    inherits.below k old ((reaches_iff_of_le grown inherits.simple.inside).mp reached)⟩

private theorem inherits_self (grown : g ≤ h) (inside : n < g.size) (normal : g.Normal n) :
    Inherits g h n n :=
  ⟨⟨Nat.lt_of_lt_of_le inside (size_le_of_le grown), normal_of_le grown inside normal⟩,
    iff_of_true rfl normal, fun _ _ reached => (reaches_iff_of_le grown inside).mp reached⟩

/-- One step of simplification. One new node is enough, unless the term expands into two; where
nothing was left to simplify, none is appended. -/
theorem simplifyTerm_inherits {added : Nat} (grown : g ≤ h) (stored : g.term? n = some before)
    (rel : Term.Rel (Inherits g h) before after) (room : 1 ≤ added)
    (expands : h.Expands after → 2 ≤ added) :
    ∃ r h', simplifyTerm n before after h = .ok r h' ∧ h ≤ h' ∧ Inherits g h' n r ∧
      (g.Normal n → h' = h) ∧ h'.size ≤ h.size + added := by
  have found := term?_of_le grown stored
  have inside := lt_size_of_term? stored
  cases kind : before.operator? with
  | none =>
      exact ⟨n, h, simplifyTerm_leaf kind, le_rfl,
        inherits_self grown inside (normal_of_leaf stored kind), fun _ => rfl,
        Nat.le_add_right _ _⟩
  | some op =>
      have operator : before.operator?.isSome = true := by rw [kind]; rfl
      by_cases normal : g.Normal n
      · have inputs : after.inputs = before.inputs :=
          (rel.inputs_eq_iff_kept fun _ _ inherits => inherits.kept_iff).mpr fun a input =>
            normal.of_reaches (reaches_input stored input)
        rw [rel.eq_of_inputs inputs]
        have irreducible := (normal_of_le grown inside normal).not_redex found
        exact ⟨n, h, simplifyTerm_of_kept found operator (reduct?_eq_none_iff.mpr irreducible),
          le_rfl, inherits_self grown inside normal, fun _ => rfl, Nat.le_add_right _ _⟩
      · have simple := rel.imp fun _ _ inherits => inherits.simple
        obtain ⟨r, h', reduced, settled⟩ := exists_reduce_within found operator simple room expands
        refine ⟨r, h', simplifyTerm_of_reduced operator reduced, settled.grown,
          ⟨⟨settled.inside, settled.normal⟩, ⟨?_, (absurd · normal)⟩, ?_⟩, (absurd · normal),
          settled.few⟩
        · intro same
          exact (same ▸ settled.normal).of_le (grown.trans settled.grown) inside
        · intro k old reached
          have extended := (reduces_of_reduce reduced).toExtends
            (rel.fits fun _ _ inherits => inherits.simple.inside) (rel.axis?_of_operator operator)
            (keeps_of_rel found rel)
          rcases extended.below k (Nat.lt_of_lt_of_le old (size_le_of_le grown)) reached with
            ⟨m, same, below⟩ | ⟨b, input, below⟩
          · cases (Option.ite_none_right_eq_some.mp same).2
            exact (reaches_iff_of_le grown inside).mp below
          · obtain ⟨a, original, inherits⟩ := rel.exists_of_mem_inputs input
            exact .head ⟨before, stored, original⟩ (inherits.below k old below)

def expanding (g : Graph α) (root : Nat) : Set Nat :=
  {n | ∃ h before after, Visits g root n h before after ∧ h.Expands after}

open Classical in
/-- Any part of the run. For an entry at which nothing was left to simplify no node was appended,
for any other at most one, and one more if its term expands. -/
theorem foldlM_inherits {entries before rest : List (Entry α)}
    (listed : g.postOrder root = .ok entries) (split : entries = before ++ rest) :
    ∃ results h, before.foldlM (foldEntry simplifyTerm) ∅ g = .ok results h ∧ g ≤ h ∧
      Filed results (before.map Entry.node) (Inherits g h) ∧
      h.size + before.countP (fun entry => g.Normal entry.node) ≤
        g.size + before.length + before.countP (fun entry => entry.node ∈ expanding g root) := by
  induction before using List.reverseRecOn generalizing rest with
  | nil => exact ⟨∅, g, rfl, le_rfl, nofun, Nat.le_refl _⟩
  | append_singleton before entry ih =>
      rw [List.append_assoc, List.singleton_append] at split
      obtain ⟨stored, fresh, inputs⟩ := (Ordered.of_postOrder listed).2.split split
      obtain ⟨results, h, ran, grown, filed, few⟩ := ih split
      obtain ⟨after, replaced, rel⟩ := filed.map? inputs
      have visits : Visits g root entry.node h entry.term after :=
        ⟨before, rest, results, split ▸ listed, ran, replaced⟩
      let added := if entry.node ∈ expanding g root then 2 else 1
      have room : 1 ≤ added := by grind
      have expands : h.Expands after → 2 ≤ added := fun expands =>
        Nat.le_of_eq (if_pos ⟨h, entry.term, after, visits, expands⟩).symm
      obtain ⟨r, h', worked, grown', inherits, kept, more⟩ :=
        simplifyTerm_inherits grown stored rel room expands
      refine ⟨_, h', foldlM_concat ran replaced worked, grown.trans grown', ?_, ?_⟩
      · rw [List.map_append]
        exact (filed.imp fun _ _ => Inherits.grow grown').insert fresh inherits
      · simp only [List.countP_append, List.countP_singleton, List.length_append,
          List.length_singleton]
        grind

open Classical in
/-- The nodes that were kept are counted as before, and all others were appended. -/
theorem Inherits.length_le {entries entries' : List (Entry α)} {out : Nat}
    (ordered : g.Ordered root entries) (ordered' : h.Ordered out entries') (grown : g ≤ h)
    (inherits : Inherits g h root out) :
    entries'.length + g.size ≤ h.size + entries.countP fun entry => g.Normal entry.node := by
  have nodes : entries'.map Entry.node ⊆
      (entries.map Entry.node).filter (fun n => g.Normal n) ++
        List.range' g.size (h.size - g.size) := by
    intro k member
    have reached := (ordered'.mem_iff k).mp member
    have within := reached.lt_size inherits.simple.inside
    rcases Nat.lt_or_ge k g.size with old | new
    · have normal := (inherits.simple.normal.of_reaches reached).of_le grown old
      exact List.mem_append_left _ (List.mem_filter.mpr
        ⟨(ordered.mem_iff k).mpr (inherits.below k old reached), decide_eq_true normal⟩)
    · refine List.mem_append_right _ (List.mem_range'_1.mpr ⟨new, ?_⟩)
      omega
  have few := (ordered'.nodup.subperm nodes).length_le
  have larger := size_le_of_le grown
  rw [List.length_append, ← List.countP_eq_length_filter, List.countP_map, List.length_range',
    List.length_map] at few
  have same : List.countP ((fun n => decide (g.Normal n)) ∘ Entry.node) entries =
      entries.countP fun entry => decide (g.Normal entry.node) := rfl
  omega

open Classical in
theorem countP_expanding {entries : List (Entry α)} (listed : g.postOrder root = .ok entries) :
    entries.countP (fun entry => entry.node ∈ expanding g root) = (expanding g root).ncard := by
  apply (Ordered.of_postOrder listed).2.countP_eq_ncard
  intro n
  constructor
  · intro member
    obtain ⟨h, before, after, ⟨earlier, later, results, listed', _⟩, _⟩ := id member
    cases listed.symm.trans listed'
    exact ⟨⟨n, before⟩, by simp, decide_eq_true member, rfl⟩
  · intro member
    obtain ⟨entry, _, expands, rfl⟩ := member
    exact of_decide_eq_true expands

/-- Simplification adds no more nodes to an expression than there are places at which a term
expands. The unfolded expression is not made larger, and the result has at most as many nodes as it;
so where nothing was shared none are added. -/
theorem simplify_size_bounds (inside : root < g.size) :
    ∃ out h count count', simplify root g = .ok out h ∧ g.nodeCount root = .ok count ∧
      h.nodeCount out = .ok count' ∧ count' ≤ count + (expanding g root).ncard ∧
      count' ≤ h.treeSize out ∧ h.treeSize out ≤ g.treeSize root ∧
      (g.Unshared root → count' ≤ count) := by
  classical
  obtain ⟨entries, listed, ordered⟩ := exists_postOrder inside
  obtain ⟨results, h, ran, grown, filed, few⟩ :=
    foldlM_inherits listed (List.append_nil entries).symm
  obtain ⟨out, found, inherits⟩ := filed root ((ordered.mem_iff root).mpr .refl)
  have simplified : simplify root g = .ok out h := by
    rw [simplify, fold, listed]
    exact foldEntries_of_foldlM ran found
  have smaller : h.treeSize out ≤ g.treeSize root := by
    obtain ⟨out', h', simplified', smaller⟩ := simplify_treeSize_le inside
    cases simplified.symm.trans simplified'
    exact smaller
  have inside' := inherits.simple.inside
  have unfolded : (h.search out []).reverse.length ≤ h.treeSize out := by
    simpa using length_search_le inside' []
  refine ⟨out, h, _, _, simplified, nodeCount_of_postOrder listed,
    nodeCount_of_postOrder (postOrder_eq_search inside'), ?_, unfolded, smaller, ?_⟩
  · have kept := inherits.length_le ordered (ordered_search inside') grown
    rw [countP_expanding listed] at few
    omega
  · intro unshared
    have whole := unshared.length_search inside .nil fun _ _ => List.not_mem_nil
    cases listed.symm.trans (postOrder_eq_search inside)
    simp only [List.length_nil, List.length_reverse] at whole unfolded ⊢
    omega

/-- The expression `min (x / 2) 2`, in which the two constants are one node. -/
def sharedDivisor : Graph Float where
  terms := #[.axis .x, .const 2, .binary .div 0 1, .binary .min 2 1]
  acyclic := by decide

/-- The graph after simplification. The reciprocal is new, and the divisor is still in use. -/
def besideReciprocal (reciprocal : Float) : Graph Float where
  terms := #[.axis .x, .const 2, .binary .div 0 1, .binary .min 2 1, .const reciprocal,
    .binary .mul 0 4, .binary .min 5 1]
  acyclic := by
    intro n inside
    have few : n < 7 := inside
    interval_cases n <;> simp [Term.inputs]

private theorem postOrder_sharedDivisor :
    sharedDivisor.postOrder 3 = .ok [⟨0, .axis .x⟩, ⟨1, .const 2⟩, ⟨2, .binary .div 0 1⟩,
      ⟨3, .binary .min 2 1⟩] := by
  cbv

private theorem simplify_sharedDivisor :
    simplify 3 sharedDivisor = .ok 6 (besideReciprocal (1 / 2)) := by
  rw [simplify, fold, postOrder_sharedDivisor]
  rfl

private theorem nodeCount_sharedDivisor : sharedDivisor.nodeCount 3 = .ok 4 :=
  nodeCount_of_postOrder postOrder_sharedDivisor

private theorem nodeCount_besideReciprocal (reciprocal : Float) :
    (besideReciprocal reciprocal).nodeCount 6 = .ok 5 := by
  cbv

theorem simplify_sharedDivisor_size_bounds :
    3 < sharedDivisor.size ∧ simplify 3 sharedDivisor = .ok 6 (besideReciprocal (1 / 2)) ∧
      sharedDivisor.nodeCount 3 = .ok 4 ∧ (besideReciprocal (1 / 2)).nodeCount 6 = .ok 5 ∧
      5 ≤ 4 + (expanding sharedDivisor 3).ncard ∧ ¬sharedDivisor.Unshared 3 ∧
      (besideReciprocal (1 / 2)).treeSize 6 ≤ sharedDivisor.treeSize 3 := by
  have inside : 3 < sharedDivisor.size := by decide
  obtain ⟨out, h, count, count', ran, counted, counted', few, _, smaller, unshared⟩ :=
    simplify_size_bounds inside
  cases simplify_sharedDivisor.symm.trans ran
  cases nodeCount_sharedDivisor.symm.trans counted
  cases (nodeCount_besideReciprocal (1 / 2)).symm.trans counted'
  exact ⟨inside, ran, counted, counted', few, fun apart => absurd (unshared apart) (by decide),
    smaller⟩

/-- The number of nodes may grow. -/
theorem simplify_sharedDivisor_adds_node : ¬∀ (g h : Graph Float) (root out count count' : Nat),
    root < g.size → simplify root g = .ok out h → g.nodeCount root = .ok count →
    h.nodeCount out = .ok count' → count' ≤ count := by
  intro never
  have smaller := never sharedDivisor (besideReciprocal (1 / 2)) 3 6 4 5 (by decide)
    simplify_sharedDivisor nodeCount_sharedDivisor (nodeCount_besideReciprocal (1 / 2))
  exact absurd smaller (by decide)

end Build

end SurfaceTape

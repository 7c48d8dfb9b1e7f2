import SurfaceTape.Proofs.AxisSharing
import SurfaceTape.Proofs.Compilation
import SurfaceTape.Proofs.RenumberedCode

/-!
# The order of the passes

Simplification asks about nodes only whether an input was replaced. Graphs that share axes
differently agree in that, so simplification leads from two such graphs to two such graphs again.
Merging before and merging after it then end in graphs that match, which lower to the same tape.
-/

set_option autoImplicit false

namespace SurfaceTape.Build

open SurfaceTape.Graph

variable {α : Type} {g h : Graph α} {matched held : Nat → Nat → Prop}
  {done done' : List (Entry α)} {results results' : Std.TreeMap Nat Nat}

/-- Results filed on both sides: corresponding ones for corresponding nodes, and no node is replaced
on one side only. An axis is its own result. -/
structure Tracked (h : Graph α) (matched held : Nat → Nat → Prop) (done done' : List (Entry α))
    (results results' : Std.TreeMap Nat Nat) : Prop where
  pairs : ∀ {m n}, matched m n → m ∈ done.map Entry.node →
    ∃ r r', results[m]? = some r ∧ results'[n]? = some r' ∧ held r r' ∧ (r = m ↔ r' = n)
  axes : ∀ {n a}, n ∈ done'.map Entry.node → h.term? n = some (.axis a) → results'[n]? = some n

private theorem Tracked.map? (tracked : Tracked h matched held done done' results results')
    {t u : Term α Nat} (rel : Term.Rel matched t u)
    (inputs : ∀ a ∈ t.inputs, a ∈ done.map Entry.node) :
    ∃ after after', (t.map? fun n => results[n]?) = some after ∧
      (u.map? fun n => results'[n]?) = some after' ∧ Term.Rel held after after' ∧
      (after.inputs = t.inputs ↔ after'.inputs = u.inputs) := by
  cases rel with
  | axis => exact ⟨_, _, rfl, rfl, .axis, Iff.rfl⟩
  | const => exact ⟨_, _, rfl, rfl, .const, Iff.rfl⟩
  | @unary op a a' first =>
      obtain ⟨r, r', filed, filed', pair, same⟩ := tracked.pairs first (inputs a (by simp))
      exact ⟨.unary op r, .unary op r', by simp [Term.map?, filed], by simp [Term.map?, filed'],
        .unary pair, by simp [Term.inputs, same]⟩
  | @binary op a b a' b' first second =>
      obtain ⟨r, r', filed, filed', pair, same⟩ := tracked.pairs first (inputs a (by simp))
      obtain ⟨s, s', stored, stored', pair', same'⟩ := tracked.pairs second (inputs b (by simp))
      exact ⟨.binary op r s, .binary op r' s', by simp [Term.map?, filed, stored],
        by simp [Term.map?, filed', stored'], .binary pair pair',
        by simp [Term.inputs, same, same']⟩

private theorem getElem?_insert_of_ne {node n r : Nat} (different : n ≠ node) :
    (results.insert node r)[n]? = results[n]? := by
  rw [Std.TreeMap.getElem?_insert, if_neg (by simpa [Nat.compare_eq_eq] using different.symm)]

theorem Tracked.add {larger : Nat → Nat → Prop} {entry entry' : Entry α} {r r' : Nat}
    (tracked : Tracked h matched held done done' results results')
    (thinned : Thinned matched done done') (partner : Relator.RightUnique matched)
    (fresh : entry.node ∉ done.map Entry.node) (fresh' : entry'.node ∉ done'.map Entry.node)
    (pair : matched entry.node entry'.node) (grown : held ≤ larger) (result : larger r r')
    (same : r = entry.node ↔ r' = entry'.node)
    (axis : ∀ a, h.term? entry'.node = some (.axis a) → r' = entry'.node) :
    Tracked h matched larger (entry :: done) (entry' :: done') (results.insert entry.node r)
      (results'.insert entry'.node r') := by
  constructor
  · intro m n asked member
    rcases List.mem_cons.mp member with rfl | old
    · cases partner asked pair
      exact ⟨r, r', by simp, by simp, result, same⟩
    · obtain ⟨s, s', filed, filed', related, same'⟩ := tracked.pairs asked old
      have old' := thinned.mem_of_mem partner asked old
      rw [getElem?_insert_of_ne (ne_of_mem_of_not_mem old fresh),
        getElem?_insert_of_ne (ne_of_mem_of_not_mem old' fresh')]
      exact ⟨s, s', filed, filed', grown _ _ related, same'⟩
  · intro n a member kind
    rcases List.mem_cons.mp member with rfl | old
    · rw [axis a kind]
      simp
    · rw [getElem?_insert_of_ne (ne_of_mem_of_not_mem old fresh')]
      exact tracked.axes old kind

/-- An axis that was met before under another number. -/
theorem Tracked.again {entry : Entry α} {n : Nat} {a : Axis}
    (tracked : Tracked h matched held done done' results results')
    (partner : Relator.RightUnique matched) (fresh : entry.node ∉ done.map Entry.node)
    (pair : matched entry.node n) (related : held entry.node n) (met : n ∈ done'.map Entry.node)
    (kind : h.term? n = some (.axis a)) :
    Tracked h matched held (entry :: done) done' (results.insert entry.node entry.node)
      results' := by
  refine ⟨?_, tracked.axes⟩
  intro m k asked member
  rcases List.mem_cons.mp member with rfl | old
  · cases partner asked pair
    exact ⟨entry.node, n, by simp, tracked.axes met kind, related, by simp⟩
  · rw [getElem?_insert_of_ne (ne_of_mem_of_not_mem old fresh)]
    exact tracked.pairs asked old

variable [Scalar α]

private theorem simplifyTerm_axis {k l : Graph α} {n r : Nat} {a : Axis} {before after : Term α Nat}
    (ran : simplifyTerm n before after k = .ok r l) (kind : before = .axis a) : r = n := by
  subst kind
  cases ran
  rfl

/-- Simplification keeps pace on both sides, entry by entry. -/
theorem foldlM_simplifyTerm_tracked (unifies : Unifies g h matched)
    (thinned : Thinned matched done done') (recorded : g.Recorded done)
    (recorded' : h.Recorded done') :
    ∃ results results' k l held, done.reverse.foldlM (foldEntry simplifyTerm) ∅ g = .ok results k ∧
      done'.reverse.foldlM (foldEntry simplifyTerm) ∅ h = .ok results' l ∧ g ≤ k ∧
      matched ≤ held ∧ Unifies k l held ∧ Tracked h matched held done done' results results' := by
  induction thinned with
  | nil => exact ⟨∅, ∅, g, h, matched, rfl, rfl, le_rfl, le_rfl, unifies, nofun, nofun⟩
  | @both entry entry' done done' thinned rel ih =>
      rcases recorded with _ | ⟨rest, stored, fresh, inputs⟩
      rcases recorded' with _ | ⟨rest', stored', fresh', _⟩
      obtain ⟨results, results', k, l, held, ran, ran', grown, related, unifiesNow, tracked⟩ :=
        ih rest rest'
      obtain ⟨after, after', replaced, replaced', shape, same⟩ := tracked.map? rel.term inputs
      obtain ⟨larger, r, r', k', l', further, worked, worked', grown', unifiesNext, pair⟩ :=
        simplifyTerm_alike appendable_unifies unifiesNow (related _ _ rel.node) rel.term shape same
      have kept := unifiesNext.kept_iff (further _ _ (related _ _ rel.node)) pair (by
        intro a kind
        rw [term?_of_le (grown.trans grown') stored, Option.some.injEq] at kind
        exact simplifyTerm_axis worked kind)
      rw [List.reverse_cons, List.reverse_cons]
      refine ⟨_, _, k', l', larger, foldlM_concat ran replaced worked,
        foldlM_concat ran' replaced' worked', grown.trans grown', related.trans further,
        unifiesNext, tracked.add thinned unifies.partner fresh fresh' rel.node further pair kept ?_⟩
      intro a kind
      rw [stored', Option.some.injEq] at kind
      exact simplifyTerm_axis worked' kind
  | @again entry done done' a n thinned kind pair met ih =>
      rcases recorded with _ | ⟨rest, stored, fresh, _⟩
      obtain ⟨results, results', k, l, held, ran, ran', grown, related, unifiesNow, tracked⟩ :=
        ih rest recorded'
      have replaced : (entry.term.map? fun n => results[n]?) = some (.axis a) := by
        rw [kind]
        rfl
      have worked : simplifyTerm entry.node entry.term (.axis a) k = .ok entry.node k :=
        simplifyTerm_leaf (by rw [kind]; rfl)
      have kind' := (unifies.corresponds.axis_iff pair a).mp (kind ▸ stored)
      rw [List.reverse_cons]
      exact ⟨_, results', k, l, held, foldlM_concat ran replaced worked, ran', grown, related,
        unifiesNow, tracked.again unifies.partner fresh pair (related _ _ pair) met kind'⟩

theorem simplify_eq_of_foldlM {root r : Nat} (inside : root < g.size) {k : Graph α}
    (ran : (g.search root []).reverse.foldlM (foldEntry simplifyTerm) ∅ g = .ok results k)
    (filed : results[root]? = some r) : simplify root g = .ok r k := by
  rw [simplify, fold, postOrder_eq_search inside]
  exact foldEntries_of_foldlM ran filed

/-- Simplification leads from graphs that share axes differently to such graphs. -/
theorem simplify_unifies {root root' : Nat} (unifies : Unifies g h matched)
    (pair : matched root root') :
    ∃ out out' k l held, simplify root g = .ok out k ∧ simplify root' h = .ok out' l ∧
      Unifies k l held ∧ held out out' := by
  obtain ⟨inside, inside'⟩ := unifies.corresponds.lt_size pair
  have explored := explored_search inside (.nil : g.Recorded [])
  have explored' := explored_search inside' (.nil : h.Recorded [])
  obtain ⟨results, results', k, l, held, ran, ran', _, _, unifiesNow, tracked⟩ :=
    foldlM_simplifyTerm_tracked unifies (unifies.thinned_search pair .nil) explored.recorded
      explored'.recorded
  obtain ⟨r, r', filed, filed', related, _⟩ :=
    tracked.pairs pair (explored.starts_mem root List.mem_cons_self)
  exact ⟨r, r', k, l, held, simplify_eq_of_foldlM inside ran filed,
    simplify_eq_of_foldlM inside' ran' filed', unifiesNow, related⟩

/-- Whether axes are merged before simplification or after it makes no difference to the tape, nor
to the failure where there is none. -/
theorem passes_commute {β : Type} [Sample β] [Narrow α β] {root : Nat} (inside : root < g.size) :
    ∃ out h out' h', (unifyAxes root >>= simplify) g = .ok out h ∧
      (simplify root >>= unifyAxes) g = .ok out' h' ∧
      (h.lower out : Except Error (Tape β)) = h'.lower out' := by
  obtain ⟨merged, h, matched, ran, unifies, pair, unified⟩ := unifyAxes_unifies inside
  obtain ⟨mid, out, k, l, held, simplified, simplified', unifiesNow, related⟩ :=
    simplify_unifies unifies pair
  obtain ⟨insideMid, insideOut⟩ := unifiesNow.corresponds.lt_size related
  obtain ⟨out', h', matched', ran', unifies', pair', unified'⟩ := unifyAxes_unifies insideMid
  have unifiedOut : l.AxesUnified out := by
    have insideMerged := (unifies.corresponds.lt_size pair).2
    obtain ⟨_, _, again, grown, descends⟩ := simplify_spec insideMerged
    cases simplified'.symm.trans again
    intro a n n' reached reached'
    exact descends.axesUnified grown insideMerged unified reached reached'
  refine ⟨out, l, out', h', ?_, ?_, ?_⟩
  · rw [bind_ok ran, simplified']
  · rw [bind_ok simplified, ran']
  · exact (unifiesNow.matching unifies' unifiedOut unified').lower_eq
      ⟨.refl, .refl, mid, related, pair'⟩ unifiedOut

/-- The expression `sin (x * 0 + x)`, with two nodes for the axis `x`. -/
def vanishingTwin : Graph Float where
  terms := #[.axis .x, .const 0, .binary .mul 0 1, .axis .x, .binary .add 2 3, .unary .sin 4]
  acyclic := by decide

def mergedVanishingTwin : Graph Float where
  terms := #[.axis .x, .const 0, .binary .mul 0 1, .axis .x, .binary .add 2 3, .unary .sin 4,
    .binary .add 2 0, .unary .sin 6]
  acyclic := by decide

private theorem postOrder_vanishingTwin :
    vanishingTwin.postOrder 5 = .ok [⟨0, .axis .x⟩, ⟨1, .const 0⟩, ⟨2, .binary .mul 0 1⟩,
      ⟨3, .axis .x⟩, ⟨4, .binary .add 2 3⟩, ⟨5, .unary .sin 4⟩] := by
  cbv

private theorem unifyAxes_vanishingTwin :
    unifyAxes 5 vanishingTwin = .ok 7 mergedVanishingTwin := by
  rw [unifyAxes, postOrder_vanishingTwin]
  rfl

private theorem simplify_vanishingTwin :
    simplify 5 vanishingTwin = .ok 6 (vanishingTwin.push (.unary .sin 3) (by decide)) := by
  rw [simplify, fold, postOrder_vanishingTwin]
  rfl

private theorem unifyAxes_simplifiedVanishingTwin :
    unifyAxes 6 (vanishingTwin.push (.unary .sin 3) (by decide)) =
      .ok 6 (vanishingTwin.push (.unary .sin 3) (by decide)) := by
  have listed : (vanishingTwin.push (.unary .sin 3) (by decide)).postOrder 6 =
      .ok [⟨3, .axis .x⟩, ⟨6, .unary .sin 3⟩] := by
    cbv
  rw [unifyAxes, listed]
  rfl

private theorem simplify_mergedVanishingTwin :
    simplify 7 mergedVanishingTwin =
      .ok 8 (mergedVanishingTwin.push (.unary .sin 0) (by decide)) := by
  have listed : mergedVanishingTwin.postOrder 7 = .ok [⟨0, .axis .x⟩, ⟨1, .const 0⟩,
      ⟨2, .binary .mul 0 1⟩, ⟨6, .binary .add 2 0⟩, ⟨7, .unary .sin 6⟩] := by
    cbv
  rw [simplify, fold, listed]
  rfl

/-- Merging first keeps the node of `x` that simplification drops, so the two orders end with
different nodes. -/
theorem passes_commute_on_vanishingTwin :
    5 < vanishingTwin.size ∧ ∃ out h out' h',
      (unifyAxes 5 >>= simplify) vanishingTwin = .ok out h ∧
      (simplify 5 >>= unifyAxes) vanishingTwin = .ok out' h' ∧
      h.term? out = some (.unary .sin 0) ∧ h'.term? out' = some (.unary .sin 3) ∧
      (h.lower out : Except Error (Tape Float32)) = h'.lower out' := by
  have inside : 5 < vanishingTwin.size := by decide
  have first := (bind_ok unifyAxes_vanishingTwin).trans simplify_mergedVanishingTwin
  have second := (bind_ok simplify_vanishingTwin).trans unifyAxes_simplifiedVanishingTwin
  obtain ⟨out, h, out', h', ran, ran', same⟩ := passes_commute (β := Float32) inside
  cases first.symm.trans ran
  cases second.symm.trans ran'
  exact ⟨inside, _, _, _, _, ran, ran', rfl, rfl, same⟩

end SurfaceTape.Build

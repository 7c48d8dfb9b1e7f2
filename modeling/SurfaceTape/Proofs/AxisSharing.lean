import SurfaceTape.Proofs.RenumberedPasses

/-!
# Graphs that share axes differently

Two graphs that differ in how often an axis was inserted. Constants and operators correspond one to
one, while several nodes of an axis on the first side may have one partner on the second. Merging
the axes leads from a graph to such a partner. A walk on the second side meets what it meets on the
first, apart from the axes that it has met before.
-/

set_option autoImplicit false

namespace SurfaceTape

open Relator

variable {α : Type} {matched : Nat → Nat → Prop}

/-- Two terms of the shape of a third one have the same shape, and inputs that come from one. -/
private theorem Term.Rel.fork {ν μ μ' : Type} {related : ν → μ → Prop} {related' : ν → μ' → Prop}
    {t : Term α ν} {u : Term α μ} {u' : Term α μ'} (rel : Rel related t u)
    (rel' : Rel related' t u') :
    Rel (fun b b' => b ∈ u.inputs ∧ b' ∈ u'.inputs ∧ ∃ a, related a b ∧ related' a b') u u' := by
  cases rel with
  | axis =>
      cases rel'
      exact .axis
  | const =>
      cases rel'
      exact .const
  | unary first =>
      cases rel' with
      | unary first' => exact .unary ⟨by simp, by simp, _, first, first'⟩
  | binary first second =>
      cases rel' with
      | binary first' second' =>
          exact .binary ⟨by simp, by simp, _, first, first'⟩ ⟨by simp, by simp, _, second, second'⟩

namespace Graph

variable {g h : Graph α}

/-- The second graph is the first one with some of its axes taken as one. -/
structure Unifies (g h : Graph α) (matched : Nat → Nat → Prop) : Prop where
  corresponds : Corresponds g h matched
  partner : RightUnique matched
  shared : ∀ {m m' n : Nat}, matched m n → matched m' n →
    m = m' ∨ ∃ a, g.term? m = some (.axis a)

theorem Corresponds.axis_iff (corresponds : Corresponds g h matched) {m n : Nat}
    (pair : matched m n) (a : Axis) :
    g.term? m = some (.axis a) ↔ h.term? n = some (.axis a) := by
  obtain ⟨t, u, found, found', rel⟩ := corresponds _ _ pair
  rw [found, found', Option.some.injEq, Option.some.injEq]
  constructor
  · intro kind
    subst kind
    cases rel
    rfl
  · intro kind
    subst kind
    cases rel
    rfl

/-- A node is replaced on both sides or on neither. Where its partner is kept, what replaces it has
the same partner, and only for an axis could that be another node. -/
theorem Unifies.kept_iff (unifies : Unifies g h matched) {m n r r' : Nat} (pair : matched m n)
    (result : matched r r') (axis : ∀ a, g.term? m = some (.axis a) → r = m) :
    r = m ↔ r' = n := by
  constructor
  · intro kept
    exact unifies.partner (kept ▸ result) pair
  · intro kept
    subst kept
    rcases unifies.shared result pair with same | ⟨a, kind⟩
    · exact same
    · have kind' := (unifies.corresponds.axis_iff result a).mp kind
      exact axis a ((unifies.corresponds.axis_iff pair a).mpr kind')

theorem Unifies.grow {k l : Graph α} (unifies : Unifies g h matched) (grown : g ≤ k)
    (grown' : h ≤ l) : Unifies k l matched := by
  refine ⟨unifies.corresponds.grow grown grown', unifies.partner, ?_⟩
  intro m m' n pair pair'
  rcases unifies.shared pair pair' with same | ⟨a, kind⟩
  · exact .inl same
  · exact .inr ⟨a, term?_of_le grown kind⟩

/-- A node that has no partner yet may be given one that only axes have so far. -/
theorem Unifies.withPair (unifies : Unifies g h matched) {a b : Nat} {t u : Term α Nat}
    (found : g.term? a = some t) (found' : h.term? b = some u) (rel : Term.Rel matched t u)
    (fresh : ∀ n, ¬matched a n) (alone : ∀ m, matched m b → ∃ c, g.term? m = some (.axis c)) :
    Unifies g h (withPair matched a b) := by
  have paired := unifies.corresponds.withPair found found' rel
  refine ⟨paired, ?_, ?_⟩
  · intro m n n' pair pair'
    rcases pair with old | ⟨rfl, rfl⟩
    · rcases pair' with old' | ⟨rfl, rfl⟩
      · exact unifies.partner old old'
      · exact absurd old (fresh n)
    · rcases pair' with old' | ⟨_, rfl⟩
      · exact absurd old' (fresh n')
      · rfl
  · intro m m' n pair pair'
    rcases pair with old | ⟨rfl, rfl⟩
    · rcases pair' with old' | ⟨rfl, rfl⟩
      · exact unifies.shared old old'
      · exact .inr (alone m old)
    · rcases pair' with old' | ⟨rfl, _⟩
      · obtain ⟨c, kind⟩ := alone m' old'
        have kind' := (unifies.corresponds.axis_iff old' c).mp kind
        exact .inr ⟨c, (paired.axis_iff (.inr ⟨rfl, rfl⟩) c).mpr kind'⟩
      · exact .inl rfl

theorem Unifies.push (unifies : Unifies g h matched) {t u : Term α Nat}
    (rel : Term.Rel matched t u) (fits : t.Fits g.size) (fits' : u.Fits h.size) :
    Unifies (g.push t fits) (h.push u fits') (Graph.withPair matched g.size h.size) := by
  refine (unifies.grow (g.le_push t fits) (h.le_push u fits')).withPair (g.term?_push_self t fits)
    (h.term?_push_self u fits') rel ?_ ?_
  · intro n pair
    exact absurd (unifies.corresponds.lt_size pair).1 (Nat.lt_irrefl _)
  · intro m pair
    exact absurd (unifies.corresponds.lt_size pair).2 (Nat.lt_irrefl _)

theorem appendable_unifies : Appendable (Unifies (α := α)) :=
  ⟨Unifies.corresponds, fun unifies => unifies.push⟩

end Graph

namespace Build

open SurfaceTape.Graph

variable {g h : Graph α} {earlier : List (Entry α)} {entry : Entry α}

/-- What has been merged: the replacements so far, each of them the node itself, a node that was
appended, or the node that stands for an axis. -/
structure Merging (g : Graph α) (earlier : List (Entry α)) (matched : Nat → Nat → Prop)
    (h : Graph α) : Prop where
  grown : g ≤ h
  unifies : Unifies g h matched
  worked : ∀ {n r}, matched n r → n ∈ earlier.map Entry.node
  place : ∀ {n r}, matched n r → r = n ∨ g.size ≤ r ∨ ∃ a, g.term? n = some (.axis a)

private theorem Merging.add {h' : Graph α} {r : Nat} {u : Term α Nat}
    (merging : Merging g earlier matched h) (grown : h ≤ h')
    (fresh : entry.node ∉ earlier.map Entry.node) (found : g.term? entry.node = some entry.term)
    (found' : h'.term? r = some u) (rel : Term.Rel matched entry.term u)
    (alone : ∀ m, matched m r → ∃ c, g.term? m = some (.axis c))
    (place : r = entry.node ∨ g.size ≤ r ∨ ∃ a, g.term? entry.node = some (.axis a)) :
    Merging g (earlier ++ [entry]) (withPair matched entry.node r) h' := by
  refine ⟨merging.grown.trans grown, ?_, ?_, ?_⟩
  · exact (merging.unifies.grow le_rfl grown).withPair found found' rel
      (fun n pair => fresh (merging.worked pair)) alone
  · intro n s pair
    rw [List.map_append, List.mem_append]
    rcases pair with old | ⟨rfl, rfl⟩
    · exact .inl (merging.worked old)
    · exact .inr List.mem_cons_self
  · intro n s pair
    rcases pair with old | ⟨rfl, rfl⟩
    · exact merging.place old
    · exact place

/-- A node that stays has not been given to another one, unless to an axis. -/
private theorem Merging.keep {after : Term α Nat} (merging : Merging g earlier matched h)
    (fresh : entry.node ∉ earlier.map Entry.node) (found : g.term? entry.node = some entry.term)
    (rel : Term.Rel matched entry.term after) (same : after.inputs = entry.term.inputs) :
    Merging g (earlier ++ [entry]) (withPair matched entry.node entry.node) h := by
  refine merging.add le_rfl fresh found (term?_of_le merging.grown found)
    (rel.eq_of_inputs same ▸ rel) ?_ (.inl rfl)
  intro m pair
  rcases merging.place pair with moved | outside | axis
  · exact absurd (moved ▸ merging.worked pair) fresh
  · exact absurd (lt_size_of_term? found) (Nat.not_lt.mpr outside)
  · exact axis

private theorem Merging.operator {after : Term α Nat} (axes : List (Option Nat))
    (merging : Merging g earlier matched h) (fresh : entry.node ∉ earlier.map Entry.node)
    (found : g.term? entry.node = some entry.term) (rel : Term.Rel matched entry.term after)
    (operator : entry.term.operator?.isSome = true) :
    ∃ r h', unifyTerm axes entry.node entry.term after h = .ok r h' ∧
      Merging g (earlier ++ [entry]) (withPair matched entry.node r) h' := by
  rw [unifyTerm_operator operator]
  by_cases same : after.inputs = entry.term.inputs
  · rw [if_pos same]
    exact ⟨entry.node, h, rfl, merging.keep fresh found rel same⟩
  · have fits := (merging.unifies.corresponds.fits rel).2
    rw [if_neg same]
    refine ⟨h.size, h.push after fits, insert_ok fits, merging.add (h.le_push after fits) fresh
      found (h.term?_push_self after fits) rel ?_ (.inr (.inl (size_le_of_le merging.grown)))⟩
    intro m pair
    exact absurd (merging.unifies.corresponds.lt_size pair).2 (Nat.lt_irrefl _)

theorem Merging.step {root : Nat} {entries later : List (Entry α)} {after : Term α Nat}
    (ordered : g.Ordered root entries) (split : entries = earlier ++ entry :: later)
    (merging : Merging g earlier matched h) (rel : Term.Rel matched entry.term after) :
    ∃ r h', unifyTerm (axisNodes entries) entry.node entry.term after h = .ok r h' ∧
      Merging g (earlier ++ [entry]) (withPair matched entry.node r) h' := by
  obtain ⟨found, fresh, _⟩ := ordered.split split
  cases kind : entry.term with
  | axis a =>
      rw [kind] at found
      have reached : g.Reaches root entry.node := by
        rw [← ordered.mem_iff, split]
        simp
      obtain ⟨k, first⟩ := ordered.exists_axisNode? reached found
      have stands := term?_of_le merging.grown (ordered.axisNode?_spec first).1
      refine ⟨k, h, ?_, ?_⟩
      · rw [unifyTerm, getElem?_axisNodes, first]
        rfl
      · refine merging.add le_rfl fresh (kind ▸ found) stands ?_ ?_
          (.inr (.inr ⟨a, found⟩))
        · rw [kind]
          exact .axis
        · intro m pair
          exact ⟨a, (merging.unifies.corresponds.axis_iff pair a).mpr stands⟩
  | const c =>
      have itself : Term.Rel matched entry.term (.const c) := by
        rw [kind]
        exact .const
      exact ⟨entry.node, h, rfl, merging.keep fresh found itself (by rw [kind])⟩
  | unary op a => exact kind ▸ merging.operator _ fresh found rel (by rw [kind]; rfl)
  | binary op a b => exact kind ▸ merging.operator _ fresh found rel (by rw [kind]; rfl)

theorem merging_start (g : Graph α) : Merging g ([] : List (Entry α)) (fun _ _ => False) g :=
  ⟨le_rfl, ⟨fun _ _ => False.elim, fun _ _ _ => False.elim, False.elim⟩, False.elim, False.elim⟩

/-- What merging leads to is the graph below the root with its axes taken as one. -/
theorem unifyAxes_unifies {root : Nat} (inside : root < g.size) :
    ∃ out h matched, unifyAxes root g = .ok out h ∧ Unifies g h matched ∧ matched root out ∧
      h.AxesUnified out := by
  obtain ⟨entries, listed, ordered⟩ := exists_postOrder inside
  obtain ⟨out, h, matched, ran, merging, pair⟩ := foldEntries_track ordered
    (fun earlier matched h => Merging g earlier matched h) (merging_start g)
    (fun split merging rel => merging.step ordered split rel)
  obtain ⟨out', h', ran', _, _, unified, _⟩ := unifyAxes_spec inside
  rw [unifyAxes, listed] at ran'
  cases ran.symm.trans ran'
  refine ⟨out, h, matched, ?_, merging.unifies, pair, unified⟩
  rw [unifyAxes, listed]
  exact ran

end Build

namespace Graph

variable {g h : Graph α}

/-- Entries of the second graph, last first, beside those of the first one. An axis that was met
before under another number has no entry of its own. -/
inductive Thinned (matched : Nat → Nat → Prop) : List (Entry α) → List (Entry α) → Prop where
  | nil : Thinned matched [] []
  | both {entry entry' : Entry α} {done done' : List (Entry α)} :
      Thinned matched done done' → Entry.Rel matched entry entry' →
      Thinned matched (entry :: done) (entry' :: done')
  | again {entry : Entry α} {done done' : List (Entry α)} {a : Axis} {n : Nat} :
      Thinned matched done done' → entry.term = .axis a → matched entry.node n →
      n ∈ done'.map Entry.node → Thinned matched (entry :: done) done'

theorem Thinned.mem_of_mem {done done' : List (Entry α)} (thinned : Thinned matched done done')
    (partner : RightUnique matched) {m n : Nat} (pair : matched m n)
    (member : m ∈ done.map Entry.node) : n ∈ done'.map Entry.node := by
  induction thinned with
  | nil => cases member
  | both _ rel ih =>
      rcases List.mem_cons.mp member with rfl | old
      · rw [partner pair rel.node]
        exact List.mem_cons_self
      · exact List.mem_cons_of_mem _ (ih old)
  | again _ _ pair' met ih =>
      rcases List.mem_cons.mp member with rfl | old
      · rw [partner pair pair']
        exact met
      · exact ih old

/-- What is no axis has a partner of its own, so it was met on both sides or on neither. -/
theorem Unifies.mem_of_thinned (unifies : Unifies g h matched) {done done' : List (Entry α)}
    (thinned : Thinned matched done done') {m n : Nat} (pair : matched m n)
    (member : n ∈ done'.map Entry.node) :
    m ∈ done.map Entry.node ∨ ∃ a, g.term? m = some (.axis a) := by
  induction thinned with
  | nil => cases member
  | both _ rel ih =>
      rcases List.mem_cons.mp member with rfl | old
      · rcases unifies.shared pair rel.node with rfl | axis
        · exact .inl List.mem_cons_self
        · exact .inr axis
      · exact (ih old).imp_left (List.mem_cons_of_mem _)
  | again _ _ _ _ ih => exact (ih member).imp_left (List.mem_cons_of_mem _)

private theorem thinned_searchAll {starts starts' : List Nat} {done done' : List (Entry α)}
    (starting : List.Forall₂ matched starts starts')
    (each : ∀ m ∈ starts, ∀ n, matched m n → ∀ done done', Thinned matched done done' →
      Thinned matched (g.search m done) (h.search n done'))
    (thinned : Thinned matched done done') :
    Thinned matched (g.searchAll starts done) (h.searchAll starts' done') := by
  induction starting generalizing done done' with
  | nil => exact thinned
  | @cons m n starts starts' pair _ ih =>
      exact ih (fun k member => each k (List.mem_cons_of_mem m member))
        (each m List.mem_cons_self n pair done done' thinned)

theorem Unifies.thinned_search (unifies : Unifies g h matched) {m n : Nat} (pair : matched m n)
    {done done' : List (Entry α)} (thinned : Thinned matched done done') :
    Thinned matched (g.search m done) (h.search n done') := by
  induction m using Nat.strongRecOn generalizing n done done' with
  | ind m ih =>
      by_cases old : m ∈ done.map Entry.node
      · have old' := thinned.mem_of_mem unifies.partner pair old
        rw [search_of_recorded old, search_of_recorded old']
        exact thinned
      obtain ⟨t, u, found, found', rel⟩ := unifies.corresponds _ _ pair
      rw [search_of_fresh old found]
      by_cases met : n ∈ done'.map Entry.node
      · -- Only an axis can have been met on the second side alone, and below it there is nothing.
        rcases unifies.mem_of_thinned thinned pair met with recorded | ⟨a, axis⟩
        · exact absurd recorded old
        · cases found.symm.trans axis
          rw [search_of_recorded met]
          exact .again thinned rfl pair met
      · rw [search_of_fresh met found']
        refine .both (thinned_searchAll rel.forall₂_inputs ?_ thinned) ⟨pair, rel⟩
        intro a input b pair' done done' thinned
        exact ih a (lt_of_mem_inputs found input) pair' thinned

/-- Nodes with one partner on the first side have one on the second, where each axis has one node
only. -/
theorem Unifies.partner_unique {k : Graph α} {matched' : Nat → Nat → Prop}
    {out m m' j n n' : Nat} (unifies : Unifies g h matched) (unifies' : Unifies g k matched')
    (unified : k.AxesUnified out) (first : matched m j) (second : matched m' j)
    (pair : matched' m n) (pair' : matched' m' n') (below : k.Reaches out n)
    (below' : k.Reaches out n') : n = n' := by
  rcases unifies.shared first second with rfl | ⟨a, axis⟩
  · exact unifies'.partner pair pair'
  · have kind := (unifies.corresponds.axis_iff first a).mp axis
    have axis' := (unifies.corresponds.axis_iff second a).mpr kind
    exact unified below below' ((unifies'.corresponds.axis_iff pair a).mp axis)
      ((unifies'.corresponds.axis_iff pair' a).mp axis')

/-- Two graphs that come from one by taking its axes as one match below their roots, if on either
side no axis is left with two nodes. -/
theorem Unifies.matching {k : Graph α} {matched' : Nat → Nat → Prop} {out out' : Nat}
    (unifies : Unifies g h matched) (unifies' : Unifies g k matched')
    (unified : h.AxesUnified out) (unified' : k.AxesUnified out') :
    Matching h k fun n n' =>
      h.Reaches out n ∧ k.Reaches out' n' ∧ ∃ m, matched m n ∧ matched' m n' := by
  refine ⟨⟨?_, ?_⟩, ?_⟩
  · rintro n n' j ⟨below, _, m, pair, first⟩ ⟨below', _, m', pair', second⟩
    exact unifies'.partner_unique unifies unified first second pair pair' below below'
  · rintro j n n' ⟨_, below, m, first, pair⟩ ⟨_, below', m', second, pair'⟩
    exact unifies.partner_unique unifies' unified' first second pair pair' below below'
  · rintro n n' ⟨below, below', m, pair, pair'⟩
    obtain ⟨t, u, found, stored, rel⟩ := unifies.corresponds _ _ pair
    obtain ⟨t', u', found', stored', rel'⟩ := unifies'.corresponds _ _ pair'
    cases found.symm.trans found'
    refine ⟨u, u', stored, stored', (rel.fork rel').imp fun a a' ⟨input, input', inputs⟩ => ?_⟩
    exact ⟨below.trans (reaches_input stored input), below'.trans (reaches_input stored' input'),
      inputs⟩

end Graph

end SurfaceTape

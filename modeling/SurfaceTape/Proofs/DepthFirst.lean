import SurfaceTape.Proofs.Reachability

/-!
# Post-order is depth-first search

The walk with its own stack records what the recursive depth-first search records, in the same
order. From the search it follows that a post-order holds the nodes below its root and no others,
each once and each after its inputs.
-/

set_option autoImplicit false

namespace SurfaceTape.Graph

variable {α : Type}

/-- Records what lies below a node, first input first, and then the node itself. A node that is
recorded already is passed over. Recorded entries are kept last first. -/
def search (g : Graph α) (n : Nat) (done : List (Entry α)) : List (Entry α) :=
  if n ∈ done.map Entry.node then done
  else
    match found : g.term? n with
    | none => done
    | some t =>
        ⟨n, t⟩ :: t.inputs.attach.foldl (fun done (a : Subtype fun a => a ∈ t.inputs) =>
          have : a.val < n := lt_of_mem_inputs found a.property
          search g a.val done) done
termination_by n

def searchAll (g : Graph α) (starts : List Nat) (done : List (Entry α)) : List (Entry α) :=
  starts.foldl (fun done n => g.search n done) done

theorem search_of_recorded {g : Graph α} {n : Nat} {done : List (Entry α)}
    (recorded : n ∈ done.map Entry.node) : g.search n done = done := by
  rw [search, if_pos recorded]

theorem search_of_fresh {g : Graph α} {n : Nat} {t : Term α Nat} {done : List (Entry α)}
    (fresh : n ∉ done.map Entry.node) (found : g.term? n = some t) :
    g.search n done = ⟨n, t⟩ :: g.searchAll t.inputs done := by
  rw [search, if_neg fresh]
  split
  · next absent => rw [absent] at found; cases found
  · next u stored =>
      rw [stored] at found
      cases found
      rw [searchAll, ← List.foldl_attach (l := t.inputs)]

/-- Entries, last first, each with the term of its node, each once and each after its inputs. -/
inductive Recorded (g : Graph α) : List (Entry α) → Prop where
  | nil : Recorded g []
  | cons {entry : Entry α} {earlier : List (Entry α)} :
      Recorded g earlier → g.term? entry.node = some entry.term →
      entry.node ∉ earlier.map Entry.node →
      (∀ a ∈ entry.term.inputs, a ∈ earlier.map Entry.node) →
      Recorded g (entry :: earlier)

theorem Recorded.of_append {g : Graph α} {later earlier : List (Entry α)}
    (recorded : g.Recorded (later ++ earlier)) : g.Recorded earlier := by
  induction later with
  | nil => exact recorded
  | cons entry later ih =>
      cases recorded with
      | cons rest _ _ _ => exact ih rest

theorem Recorded.term? {g : Graph α} {entries : List (Entry α)} (recorded : g.Recorded entries)
    {entry : Entry α} (member : entry ∈ entries) : g.term? entry.node = some entry.term := by
  induction recorded with
  | nil => cases member
  | cons _ stored _ _ ih =>
      rcases List.mem_cons.mp member with rfl | inside
      · exact stored
      · exact ih inside

theorem Recorded.reaches {g : Graph α} {entries : List (Entry α)} (recorded : g.Recorded entries)
    {n k : Nat} (member : n ∈ entries.map Entry.node) (reached : g.Reaches n k) :
    k ∈ entries.map Entry.node := by
  induction recorded generalizing n with
  | nil => cases member
  | @cons entry earlier _ stored _ inputs ih =>
      have later : ∀ {a}, a ∈ earlier.map Entry.node → g.Reaches a k →
          k ∈ (entry :: earlier).map Entry.node :=
        fun old below => List.mem_cons_of_mem _ (ih old below)
      rcases List.mem_cons.mp member with rfl | old
      · rcases (reaches_iff stored).mp reached with rfl | ⟨a, input, below⟩
        · exact member
        · exact later (inputs a input) below
      · exact later old reached

theorem Recorded.nodup {g : Graph α} {entries : List (Entry α)} (recorded : g.Recorded entries) :
    (entries.map Entry.node).Nodup := by
  induction recorded with
  | nil => exact List.nodup_nil
  | cons _ _ fresh _ ih => exact List.nodup_cons.mpr ⟨fresh, ih⟩

structure Explored (g : Graph α) (starts : List Nat) (before after : List (Entry α)) : Prop where
  suffix : before <:+ after
  recorded : g.Recorded after
  starts_mem : ∀ n ∈ starts, n ∈ after.map Entry.node
  reached : ∀ k ∈ after.map Entry.node,
    k ∈ before.map Entry.node ∨ ∃ n ∈ starts, g.Reaches n k

private theorem mem_map_of_suffix {before after : List (Entry α)} (suffix : before <:+ after)
    {k : Nat} (member : k ∈ before.map Entry.node) : k ∈ after.map Entry.node :=
  (suffix.map Entry.node).subset member

private theorem explored_searchAll {g : Graph α} {starts : List Nat} {done : List (Entry α)}
    (each : ∀ n ∈ starts, ∀ done, g.Recorded done → g.Explored [n] done (g.search n done))
    (recorded : g.Recorded done) : g.Explored starts done (g.searchAll starts done) := by
  induction starts generalizing done with
  | nil =>
      exact ⟨List.suffix_rfl, recorded, fun _ member => (List.not_mem_nil member).elim,
        fun k member => .inl member⟩
  | cons n starts ih =>
      have first := each n List.mem_cons_self done recorded
      have rest := ih (fun m member => each m (List.mem_cons_of_mem n member)) first.recorded
      refine ⟨first.suffix.trans rest.suffix, rest.recorded, ?_, ?_⟩
      · intro m member
        rcases List.mem_cons.mp member with rfl | later
        · exact mem_map_of_suffix rest.suffix (first.starts_mem m List.mem_cons_self)
        · exact rest.starts_mem m later
      · intro k member
        rcases rest.reached k member with old | ⟨m, later, below⟩
        · rcases first.reached k old with older | ⟨m, same, below⟩
          · exact .inl older
          · exact .inr ⟨m, by simp_all, below⟩
        · exact .inr ⟨m, List.mem_cons_of_mem n later, below⟩

theorem explored_search {g : Graph α} {n : Nat} (inside : n < g.size) {done : List (Entry α)}
    (recorded : g.Recorded done) : g.Explored [n] done (g.search n done) := by
  induction n using Nat.strongRecOn generalizing done with
  | ind n ih =>
      by_cases old : n ∈ done.map Entry.node
      · rw [search_of_recorded old]
        exact ⟨List.suffix_rfl, recorded, by simpa using old, fun k member => .inl member⟩
      · obtain ⟨t, found⟩ := exists_term?_of_lt_size inside
        rw [search_of_fresh old found]
        have below : g.Explored t.inputs done (g.searchAll t.inputs done) := by
          apply explored_searchAll _ recorded
          intro a member done recorded
          have earlier := lt_of_mem_inputs found member
          exact ih a earlier (Nat.lt_trans earlier inside) recorded
        -- An input lies strictly below the node, so the node cannot have been recorded on the way.
        have fresh : n ∉ (g.searchAll t.inputs done).map Entry.node := by
          intro member
          rcases below.reached n member with older | ⟨a, input, reached⟩
          · exact old older
          · have upper := reached.le
            have lower := lt_of_mem_inputs found input
            omega
        refine ⟨below.suffix.trans (List.suffix_cons _ _),
          .cons below.recorded found fresh below.starts_mem, by simp, ?_⟩
        intro k member
        rcases List.mem_cons.mp member with rfl | later
        · exact .inr ⟨_, List.mem_cons_self, .refl⟩
        · rcases below.reached k later with older | ⟨a, input, reached⟩
          · exact .inl older
          · exact .inr ⟨n, List.mem_cons_self, .head ⟨t, found, input⟩ reached⟩

/-! The walk against the search. A node is marked as seen when it is entered, before its inputs are
recorded; below that node, seen and recorded still agree. -/

theorem contains_insert_iff {seen : Std.TreeSet Nat} {n k : Nat} :
    (seen.insert n).contains k = true ↔ k = n ∨ seen.contains k = true := by
  rw [Std.TreeSet.contains_insert, Bool.or_eq_true, beq_iff_eq, Nat.compare_eq_eq, eq_comm]

structure SeenRecorded (bound : Nat) (seen : Std.TreeSet Nat) (done : List (Entry α)) : Prop where
  seen_of_mem : ∀ k ∈ done.map Entry.node, seen.contains k = true
  mem_of_seen : ∀ k < bound, seen.contains k = true → k ∈ done.map Entry.node

private theorem SeenRecorded.mono {low high : Nat} {seen : Std.TreeSet Nat} {done : List (Entry α)}
    (agrees : SeenRecorded high seen done) (smaller : low ≤ high) : SeenRecorded low seen done :=
  ⟨agrees.seen_of_mem, fun k below => agrees.mem_of_seen k (Nat.lt_of_lt_of_le below smaller)⟩

/-- Working off the tasks amounts to recording the entries, whatever is to be done afterwards. -/
def WalksTo (g : Graph α) (tasks : List (Task α)) (seen : Std.TreeSet Nat)
    (before after : List (Entry α)) : Prop :=
  ∀ rest, ∃ entered, g.walk (tasks ++ rest) seen before = g.walk rest entered after ∧
    ∀ k, entered.contains k = true ↔ seen.contains k = true ∨ k ∈ after.map Entry.node

private theorem SeenRecorded.advance {bound : Nat} {seen entered : Std.TreeSet Nat}
    {before after : List (Entry α)} (agrees : SeenRecorded bound seen before)
    (suffix : before <:+ after)
    (spec : ∀ k, entered.contains k = true ↔ seen.contains k = true ∨ k ∈ after.map Entry.node) :
    SeenRecorded bound entered after := by
  constructor
  · intro k member
    exact (spec k).mpr (.inr member)
  · intro k below marked
    rcases (spec k).mp marked with old | member
    · exact mem_map_of_suffix suffix (agrees.mem_of_seen k below old)
    · exact member

private theorem walksTo_enterAll {g : Graph α} {bound : Nat} {starts : List Nat}
    (inside : ∀ n ∈ starts, n < g.size)
    (each : ∀ n ∈ starts, ∀ seen done, g.Recorded done → SeenRecorded bound seen done →
      g.WalksTo [.enter n] seen done (g.search n done))
    {seen : Std.TreeSet Nat} {done : List (Entry α)}
    (recorded : g.Recorded done) (agrees : SeenRecorded bound seen done) :
    g.WalksTo (starts.map .enter) seen done (g.searchAll starts done) := by
  induction starts generalizing seen done with
  | nil =>
      intro rest
      refine ⟨seen, rfl, fun k => ⟨.inl, ?_⟩⟩
      rintro (entered | member)
      · exact entered
      · exact agrees.seen_of_mem k member
  | cons n starts ih =>
      intro rest
      have first := explored_search (inside n List.mem_cons_self) recorded
      have others := explored_searchAll (fun m member done recorded =>
        explored_search (inside m (List.mem_cons_of_mem n member)) recorded) first.recorded
      obtain ⟨entered, walked, spec⟩ :=
        each n List.mem_cons_self seen done recorded agrees (starts.map .enter ++ rest)
      obtain ⟨final, finished, finalSpec⟩ :=
        ih (fun m member => inside m (List.mem_cons_of_mem n member))
          (fun m member => each m (List.mem_cons_of_mem n member)) first.recorded
          (agrees.advance first.suffix spec) rest
      refine ⟨final, walked.trans finished, fun k => ?_⟩
      rw [finalSpec k, spec k]
      constructor
      · rintro ((old | member) | member)
        · exact .inl old
        · exact .inr (mem_map_of_suffix others.suffix member)
        · exact .inr member
      · rintro (old | member)
        · exact .inl (.inl old)
        · exact .inr member

private theorem walksTo_enter {g : Graph α} {n : Nat} (inside : n < g.size) {seen : Std.TreeSet Nat}
    {done : List (Entry α)} (recorded : g.Recorded done) (agrees : SeenRecorded (n + 1) seen done) :
    g.WalksTo [.enter n] seen done (g.search n done) := by
  induction n using Nat.strongRecOn generalizing seen done with
  | ind n ih =>
      intro rest
      rw [List.singleton_append, walk]
      by_cases old : seen.contains n = true
      · have member := agrees.mem_of_seen n (Nat.lt_succ_self n) old
        rw [if_pos old, search_of_recorded member]
        refine ⟨seen, rfl, fun k => ⟨.inl, ?_⟩⟩
        rintro (entered | member)
        · exact entered
        · exact agrees.seen_of_mem k member
      · have fresh : n ∉ done.map Entry.node := fun member => old (agrees.seen_of_mem n member)
        obtain ⟨t, found⟩ := exists_term?_of_lt_size inside
        have earlier : ∀ a ∈ t.inputs, a < n := fun a member => lt_of_mem_inputs found member
        -- The node is marked before it is recorded. Its inputs lie below it, where marks and
        -- records still agree.
        have agreesBelow : SeenRecorded n (seen.insert n) done := by
          constructor
          · intro k member
            exact contains_insert_iff.mpr (.inr (agrees.seen_of_mem k member))
          · intro k below marked
            rcases contains_insert_iff.mp marked with rfl | marked
            · exact absurd below (Nat.lt_irrefl k)
            · exact agrees.mem_of_seen k (Nat.lt_succ_of_lt below) marked
        obtain ⟨entered, walked, spec⟩ := walksTo_enterAll
          (fun a member => Nat.lt_trans (earlier a member) inside)
          (fun a member seen done recorded agrees => ih a (earlier a member)
            (Nat.lt_trans (earlier a member) inside) recorded (agrees.mono (earlier a member)))
          recorded agreesBelow (.leave ⟨n, t⟩ :: rest)
        refine ⟨entered, ?_, fun k => ?_⟩
        · rw [if_neg old]
          split
          · next absent => rw [absent] at found; cases found
          · next u stored =>
              rw [stored] at found
              cases found
              rw [walked, walk, search_of_fresh fresh stored]
        · rw [spec k, search_of_fresh fresh found, contains_insert_iff, List.map_cons,
            List.mem_cons]
          constructor
          · rintro ((rfl | marked) | member)
            · exact .inr (.inl rfl)
            · exact .inl marked
            · exact .inr (.inr member)
          · rintro (marked | rfl | member)
            · exact .inl (.inr marked)
            · exact .inl (.inl rfl)
            · exact .inr member

/-- The post-order of a node of the graph is what the search records, in the order of recording. -/
theorem postOrder_eq_search {g : Graph α} {root : Nat} (inside : root < g.size) :
    g.postOrder root = .ok (g.search root []).reverse := by
  have agrees : SeenRecorded (root + 1) (∅ : Std.TreeSet Nat) ([] : List (Entry α)) := by
    constructor
    · intro k member
      cases member
    · intro k _ marked
      simp at marked
  obtain ⟨entered, walked, _⟩ := walksTo_enter inside .nil agrees []
  rw [postOrder]
  exact walked.trans (by rw [walk])

theorem postOrder_of_absent {g : Graph α} {root : Nat} (absent : g.size ≤ root) :
    g.postOrder root = .error .badNode := by
  have missing := (g.term?_eq_none_iff root).mpr absent
  rw [postOrder, walk, if_neg (by simp)]
  split
  · rfl
  · next stored => rw [stored] at missing; cases missing

/-- A list of entries is a post-order: each entry comes after its inputs and comes once, they are
the nodes that the root reaches, and the root is the last of them. -/
structure Ordered (g : Graph α) (root : Nat) (entries : List (Entry α)) : Prop where
  recorded : g.Recorded entries.reverse
  mem_iff : ∀ k, k ∈ entries.map Entry.node ↔ g.Reaches root k
  last : ∃ t earlier, g.term? root = some t ∧ entries = earlier ++ [⟨root, t⟩]

theorem ordered_search {g : Graph α} {root : Nat} (inside : root < g.size) :
    g.Ordered root (g.search root []).reverse := by
  have explored := explored_search inside .nil
  obtain ⟨t, found⟩ := exists_term?_of_lt_size inside
  refine ⟨by simpa using explored.recorded, fun k => ?_, t, (g.searchAll t.inputs []).reverse,
    found, ?_⟩
  · rw [List.map_reverse, List.mem_reverse]
    constructor
    · intro member
      rcases explored.reached k member with old | ⟨n, start, reached⟩
      · cases old
      · rw [List.mem_singleton.mp start] at reached
        exact reached
    · intro reached
      exact explored.recorded.reaches (explored.starts_mem root List.mem_cons_self) reached
  · rw [search_of_fresh (by simp) found, List.reverse_cons]

theorem exists_postOrder {g : Graph α} {root : Nat} (inside : root < g.size) :
    ∃ entries, g.postOrder root = .ok entries ∧ g.Ordered root entries :=
  ⟨_, postOrder_eq_search inside, ordered_search inside⟩

theorem Ordered.of_postOrder {g : Graph α} {root : Nat} {entries : List (Entry α)}
    (ordered : g.postOrder root = .ok entries) : root < g.size ∧ g.Ordered root entries := by
  rcases Nat.lt_or_ge root g.size with inside | absent
  · rw [postOrder_eq_search inside] at ordered
    cases ordered
    exact ⟨inside, ordered_search inside⟩
  · rw [postOrder_of_absent absent] at ordered
    cases ordered

theorem order_of_postOrder {g : Graph α} {root : Nat} {entries : List (Entry α)}
    (listed : g.postOrder root = .ok entries) : g.order root = .ok (entries.map Entry.node) := by
  rw [order, listed]
  rfl

theorem exists_entries_of_order {g : Graph α} {root : Nat} {nodes : List Nat}
    (listed : g.order root = .ok nodes) :
    ∃ entries, g.Ordered root entries ∧ entries.map Entry.node = nodes := by
  rw [order] at listed
  cases ordered : g.postOrder root with
  | error e =>
      rw [ordered] at listed
      cases listed
  | ok entries =>
      rw [ordered] at listed
      cases listed
      exact ⟨entries, (Ordered.of_postOrder ordered).2, rfl⟩

theorem mem_order_iff {g : Graph α} {root : Nat} {nodes : List Nat}
    (listed : g.order root = .ok nodes) (n : Nat) : n ∈ nodes ↔ g.Reaches root n := by
  obtain ⟨entries, ordered, rfl⟩ := exists_entries_of_order listed
  exact ordered.mem_iff n

/-- At every place of a post-order, what stands before it is closed under inputs. -/
theorem Ordered.split {g : Graph α} {root : Nat} {entries earlier later : List (Entry α)}
    {entry : Entry α} (ordered : g.Ordered root entries)
    (split : entries = earlier ++ entry :: later) :
    g.term? entry.node = some entry.term ∧ entry.node ∉ earlier.map Entry.node ∧
      ∀ a ∈ entry.term.inputs, a ∈ earlier.map Entry.node := by
  have recorded := ordered.recorded
  rw [split, List.reverse_append, List.reverse_cons, List.append_assoc,
    List.singleton_append] at recorded
  cases recorded.of_append with
  | cons _ stored fresh inputs =>
      simp only [List.map_reverse, List.mem_reverse] at fresh inputs
      exact ⟨stored, fresh, inputs⟩

theorem Ordered.term? {g : Graph α} {root : Nat} {entries : List (Entry α)}
    (ordered : g.Ordered root entries) {entry : Entry α} (member : entry ∈ entries) :
    g.term? entry.node = some entry.term :=
  ordered.recorded.term? (List.mem_reverse.mpr member)

theorem Ordered.nodup {g : Graph α} {root : Nat} {entries : List (Entry α)}
    (ordered : g.Ordered root entries) : (entries.map Entry.node).Nodup := by
  have distinct := ordered.recorded.nodup
  rw [List.map_reverse] at distinct
  exact (List.reverse_perm _).nodup distinct

theorem nodup_order {g : Graph α} {root : Nat} {nodes : List Nat}
    (listed : g.order root = .ok nodes) : nodes.Nodup := by
  obtain ⟨entries, ordered, rfl⟩ := exists_entries_of_order listed
  exact ordered.nodup

theorem exists_split_of_order {g : Graph α} {root : Nat} {entries : List (Entry α)}
    {before after : List Nat} (listed : g.postOrder root = .ok entries)
    (nodes : g.order root = .ok (before ++ after)) :
    ∃ earlier later, entries = earlier ++ later ∧ earlier.map Entry.node = before ∧
      later.map Entry.node = after := by
  rw [order, listed] at nodes
  exact List.map_eq_append_iff.mp (Except.ok.inj nodes)

/-- Wherever an order is cut, what stands before the cut is closed under inputs and does not appear
again behind it. -/
theorem closed_of_order {g : Graph α} {root : Nat} {before after : List Nat}
    (inside : root < g.size) (nodes : g.order root = .ok (before ++ after)) {n : Nat}
    (member : n ∈ before) :
    n ∉ after ∧ ∀ a, g.Uses n a → a ∈ before := by
  obtain ⟨entries, listed, ordered⟩ := exists_postOrder inside
  obtain ⟨earlier, later, split, rfl, rfl⟩ := exists_split_of_order listed nodes
  constructor
  · intro again
    obtain ⟨entry, behind, rfl⟩ := List.mem_map.mp again
    obtain ⟨between, rest, rfl⟩ := List.append_of_mem behind
    rw [← List.append_assoc] at split
    exact (ordered.split split).2.1 (List.map_append ▸ List.mem_append_left _ member)
  · intro a used
    obtain ⟨entry, listed, rfl⟩ := List.mem_map.mp member
    obtain ⟨first, between, rfl⟩ := List.append_of_mem listed
    obtain ⟨t, stored, input⟩ := used
    rw [List.append_assoc, List.cons_append] at split
    obtain ⟨found, _, inputs⟩ := ordered.split split
    cases found.symm.trans stored
    exact List.map_append ▸ List.mem_append_left _ (inputs a input)

end SurfaceTape.Graph

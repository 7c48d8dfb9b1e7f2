import SurfaceTape.Proofs.DepthFirst
import Mathlib.Data.Set.Insert

/-!
# Visiting every node once

The recursive search marks a node when it meets it, searches the inputs of the node one after the
other, and then visits the node; a marked node is passed over. What such a search still has to do
when a call returns is what the walk keeps on its stack, so both visit the same nodes in the same
order. Nor does it matter whether a visitor is called during the walk or afterwards.
-/

set_option autoImplicit false

namespace SurfaceTape.Graph

variable {α : Type} {g : Graph α}

/-- The recursive search from several nodes in turn: the nodes that were marked before, what is
visited, and the nodes that are marked afterwards. -/
inductive Searches (g : Graph α) : Set Nat → List Nat → List (Entry α) → Set Nat → Prop where
  | nil {marked : Set Nat} : Searches g marked [] [] marked
  | skip {marked after : Set Nat} {n : Nat} {rest : List Nat} {visited : List (Entry α)} :
      n ∈ marked → Searches g marked rest visited after →
      Searches g marked (n :: rest) visited after
  | enter {marked between after : Set Nat} {n : Nat} {t : Term α Nat} {rest : List Nat}
      {below visited : List (Entry α)} :
      n ∉ marked → g.term? n = some t → Searches g (insert n marked) t.inputs below between →
      Searches g between rest visited after →
      Searches g marked (n :: rest) (below ++ ⟨n, t⟩ :: visited) after

theorem exists_searches {bound : Nat} (fits : bound ≤ g.size) {starts : List Nat}
    (inside : ∀ n ∈ starts, n < bound) (marked : Set Nat) :
    ∃ visited after, g.Searches marked starts visited after := by
  induction bound using Nat.strongRecOn generalizing starts marked with
  | ind bound deeper =>
      induction starts generalizing marked with
      | nil => exact ⟨[], marked, .nil⟩
      | cons n rest ih =>
          have lower : n < bound := inside n List.mem_cons_self
          have further := ih fun m member => inside m (List.mem_cons_of_mem n member)
          by_cases met : n ∈ marked
          · obtain ⟨visited, after, searched⟩ := further marked
            exact ⟨visited, after, .skip met searched⟩
          · obtain ⟨t, found⟩ := exists_term?_of_lt_size (Nat.lt_of_lt_of_le lower fits)
            obtain ⟨below, between, descended⟩ :=
              deeper n lower (Nat.le_trans (Nat.le_of_lt lower) fits)
                (fun a input => lt_of_mem_inputs found input) (insert n marked)
            obtain ⟨visited, after, searched⟩ := further between
            exact ⟨below ++ ⟨n, t⟩ :: visited, after, .enter met found descended searched⟩

def Marks (seen : Std.TreeSet Nat) (marked : Set Nat) : Prop :=
  ∀ k, seen.contains k = true ↔ k ∈ marked

private theorem Marks.insert {seen : Std.TreeSet Nat} {marked : Set Nat} (marks : Marks seen marked)
    (n : Nat) : Marks (seen.insert n) (insert n marked) := by
  intro k
  rw [contains_insert_iff, marks k, Set.mem_insert_iff]

/-- The walk from a search's starting nodes goes on, after what the search visits, with the rest of
its tasks. No use is made of the order of the nodes: both mark a node when they meet it. -/
theorem Searches.walk_eq {marked after : Set Nat} {starts : List Nat} {visited : List (Entry α)}
    (searches : g.Searches marked starts visited after) {seen : Std.TreeSet Nat}
    (marks : Marks seen marked) (rest : List (Task α)) (done : List (Entry α)) :
    ∃ entered, Marks entered after ∧
      g.walk (starts.map .enter ++ rest) seen done =
        g.walk rest entered (visited.reverse ++ done) := by
  induction searches generalizing seen rest done with
  | nil => exact ⟨seen, marks, rfl⟩
  | @skip marked after n starts visited met _ ih =>
      obtain ⟨entered, marksAfter, walked⟩ := ih marks rest done
      refine ⟨entered, marksAfter, ?_⟩
      rw [← walked, List.map_cons, List.cons_append, walk, if_pos ((marks n).mpr met)]
  | @enter marked between after n t starts below visited fresh found _ _ ihBelow ih =>
      obtain ⟨seenBelow, marksBelow, walkedBelow⟩ :=
        ihBelow (marks.insert n) (.leave ⟨n, t⟩ :: (starts.map .enter ++ rest)) done
      obtain ⟨entered, marksAfter, walked⟩ :=
        ih marksBelow rest (⟨n, t⟩ :: (below.reverse ++ done))
      refine ⟨entered, marksAfter, ?_⟩
      have unseen : ¬seen.contains n = true := mt (marks n).mp fresh
      calc g.walk ((n :: starts).map .enter ++ rest) seen done
        _ = g.walk (t.inputs.map .enter ++ .leave ⟨n, t⟩ :: (starts.map .enter ++ rest))
              (seen.insert n) done := by
            rw [List.map_cons, List.cons_append, walk, if_neg unseen]
            split
            · next absent => cases absent.symm.trans found
            · next stored =>
                cases stored.symm.trans found
                rfl
        _ = g.walk (starts.map .enter ++ rest) seenBelow (⟨n, t⟩ :: (below.reverse ++ done)) := by
            rw [walkedBelow, walk]
        _ = g.walk rest entered ((below ++ ⟨n, t⟩ :: visited).reverse ++ done) := by
            rw [walked]
            simp

theorem Searches.postOrder_eq {root : Nat} {visited : List (Entry α)} {after : Set Nat}
    (searches : g.Searches ∅ [root] visited after) : g.postOrder root = .ok visited := by
  have marks : Marks ∅ ∅ := by simp [Marks]
  obtain ⟨entered, _, walked⟩ := searches.walk_eq marks [] []
  calc g.postOrder root
    _ = g.walk [] entered (visited.reverse ++ []) := walked
    _ = .ok visited := by
        rw [walk]
        simp

theorem postOrder_eq_ok_iff {root : Nat} {entries : List (Entry α)} :
    g.postOrder root = .ok entries ↔ ∃ after, g.Searches ∅ [root] entries after := by
  constructor
  · intro listed
    have inside := (Ordered.of_postOrder listed).1
    have below : ∀ n ∈ [root], n < root + 1 := by simp
    obtain ⟨visited, after, searched⟩ := exists_searches inside below ∅
    cases searched.postOrder_eq.symm.trans listed
    exact ⟨after, searched⟩
  · rintro ⟨after, searched⟩
    exact searched.postOrder_eq

section Visitors

variable {m : Type → Type} [Monad m] [MonadExceptOf Error m]

/-- Works off the tasks, and hands each entry to the visitor at the moment when it is met. -/
def visitFrom (g : Graph α) (visitor : Entry α → m PUnit) (tasks : List (Task α))
    (seen : Std.TreeSet Nat) : m PUnit :=
  match tasks with
  | [] => pure ⟨⟩
  | .leave entry :: rest => do
      visitor entry
      visitFrom g visitor rest seen
  | .enter n :: rest =>
      if seen.contains n then visitFrom g visitor rest seen
      else
        match found : g.term? n with
        | none => throw .badNode
        | some t =>
            visitFrom g visitor (t.inputs.map .enter ++ .leave ⟨n, t⟩ :: rest) (seen.insert n)
termination_by 3 * g.unseen seen + tasks.length
decreasing_by
  · simp
  · simp
  · exact unseen_enter_lt (Bool.eq_false_iff.mpr (by assumption)) found

/-- Hands every node below a root to the visitor, each once and each after its inputs. -/
def visit (g : Graph α) (visitor : Entry α → m PUnit) (root : Nat) : m PUnit :=
  g.visitFrom visitor [.enter root] ∅

private theorem visitFrom_of_walk (visitor : Entry α → m PUnit) {tasks : List (Task α)}
    {seen : Std.TreeSet Nat} {done entries : List (Entry α)}
    (walked : g.walk tasks seen done = .ok entries) :
    ∃ visited, entries = done.reverse ++ visited ∧
      g.visitFrom visitor tasks seen = visited.forM visitor := by
  fun_induction walk g tasks seen done with
  | case1 seen done =>
      cases walked
      exact ⟨[], by simp, by rw [visitFrom]; rfl⟩
  | case2 seen done entry rest ih =>
      obtain ⟨visited, split, visits⟩ := ih walked
      refine ⟨entry :: visited, by simpa using split, ?_⟩
      rw [visitFrom, visits]
      rfl
  | case3 seen done n rest marked ih =>
      obtain ⟨visited, split, visits⟩ := ih walked
      refine ⟨visited, split, ?_⟩
      rw [visitFrom, if_pos marked, visits]
  | case4 seen done n rest unmarked absent => cases walked
  | case5 seen done n rest unmarked t found ih =>
      obtain ⟨visited, split, visits⟩ := ih walked
      refine ⟨visited, split, ?_⟩
      rw [visitFrom, if_neg unmarked]
      split
      · next absent => cases absent.symm.trans found
      · next stored =>
          cases stored.symm.trans found
          exact visits

private theorem visit_of_absent (visitor : Entry α → m PUnit) {root : Nat}
    (absent : g.size ≤ root) :
    g.visit visitor root = throw .badNode := by
  have missing := (g.term?_eq_none_iff root).mpr absent
  rw [visit, visitFrom, if_neg (by simp)]
  split
  · rfl
  · next stored => cases stored.symm.trans missing

private theorem visit_of_postOrder (visitor : Entry α → m PUnit) {root : Nat}
    {entries : List (Entry α)} (listed : g.postOrder root = .ok entries) :
    g.visit visitor root = entries.forM visitor := by
  obtain ⟨visited, split, visits⟩ := visitFrom_of_walk visitor listed
  cases split
  exact visits

end Visitors

/-- A node that is not in the graph is refused before anything is visited. From any other node the
walk visits what the recursive search visits, in its order, whatever the visitor does. So the order
of a node lists the nodes that it reaches, each once and each after its inputs, and ends with the
node itself; their number is what is counted. -/
theorem walk_is_recursive_search (g : Graph α) (root : Nat) :
    (g.size ≤ root → g.postOrder root = .error .badNode ∧ g.order root = .error .badNode ∧
      g.nodeCount root = .error .badNode ∧
      ∀ {m : Type → Type} [Monad m] [MonadExceptOf Error m] (visitor : Entry α → m PUnit),
        g.visit visitor root = throw .badNode) ∧
    (root < g.size → ∃ entries nodes, g.postOrder root = .ok entries ∧
      (∀ visited, (∃ marked, g.Searches ∅ [root] visited marked) ↔ visited = entries) ∧
      (∀ {m : Type → Type} [Monad m] [MonadExceptOf Error m] (visitor : Entry α → m PUnit),
        g.visit visitor root = entries.forM visitor) ∧
      (∀ entry ∈ entries, g.term? entry.node = some entry.term) ∧
      entries.map Entry.node = nodes ∧ g.order root = .ok nodes ∧ nodes.Nodup ∧
      (∀ n, n ∈ nodes ↔ g.Reaches root n) ∧
      (∀ {before n after}, nodes = before ++ n :: after → ∀ a, g.Uses n a → a ∈ before) ∧
      nodes.getLast? = some root ∧ g.nodeCount root = .ok nodes.length) := by
  constructor
  · intro absent
    have failed := postOrder_of_absent absent
    refine ⟨failed, ?_, ?_, fun visitor => visit_of_absent visitor absent⟩
    · rw [order, failed]
      rfl
    · rw [nodeCount, failed]
      rfl
  · intro inside
    obtain ⟨entries, listed, ordered⟩ := exists_postOrder inside
    have nodes := order_of_postOrder listed
    refine ⟨entries, entries.map Entry.node, listed, fun visited => ?_,
      fun visitor => visit_of_postOrder visitor listed, fun entry => ordered.term?, rfl, nodes,
      ordered.nodup, ordered.mem_iff, ?_, ?_, ?_⟩
    · rw [← postOrder_eq_ok_iff, listed, Except.ok.injEq]
      exact eq_comm
    · intro before n after split a used
      rw [split, ← List.singleton_append, ← List.append_assoc] at nodes
      have closed := (closed_of_order inside nodes (n := n) (by simp)).2 a used
      rcases List.mem_append.mp closed with earlier | same
      · exact earlier
      · cases List.mem_singleton.mp same
        exact absurd used.lt (Nat.lt_irrefl n)
    · obtain ⟨t, earlier, _, rfl⟩ := ordered.last
      simp
    · rw [nodeCount, listed, List.length_map]
      rfl

/-- The expression `(sin x - x) * sin x`, beside an axis that it does not use. While its first
factor is searched, the node of `sin x` stands on the stack twice. -/
def stackedTwice : Graph Float where
  terms := #[.axis .y, .axis .x, .unary .sin 1, .binary .sub 2 1, .binary .mul 3 2]
  acyclic := by decide

theorem walk_stackedTwice_is_recursive_search :
    4 < stackedTwice.size ∧ stackedTwice.size ≤ 5 ∧
      (∃ entries marked, stackedTwice.Searches ∅ [4] entries marked ∧
        entries.map Entry.node = [1, 2, 3, 4] ∧ stackedTwice.nodeCount 4 = .ok 4 ∧
        ∀ visitor : Entry Float → EStateM Error (List Nat) PUnit,
          stackedTwice.visit visitor 4 = entries.forM visitor) ∧
      ∀ visitor : Entry Float → EStateM Error (List Nat) PUnit,
        stackedTwice.visit visitor 5 = throw .badNode := by
  have inside : 4 < stackedTwice.size := by decide
  have outside : stackedTwice.size ≤ 5 := by decide
  have listed : stackedTwice.order 4 = .ok [1, 2, 3, 4] := by cbv
  obtain ⟨_, _, _, refused⟩ := (walk_is_recursive_search stackedTwice 5).1 outside
  obtain ⟨entries, nodes, _, searched, visits, _, same, ordered, _, _, _, _, counted⟩ :=
    (walk_is_recursive_search stackedTwice 4).2 inside
  obtain ⟨marked, searches⟩ := (searched entries).mpr rfl
  cases listed.symm.trans ordered
  exact ⟨inside, outside, ⟨entries, marked, searches, same, counted, fun visitor => visits visitor⟩,
    fun visitor => refused visitor⟩

end SurfaceTape.Graph

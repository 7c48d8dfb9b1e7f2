import SurfaceTape.Proofs.Folding
import Mathlib.Algebra.GroupWithZero.Nat
import Mathlib.Data.List.Induction

/-!
# The calls of a fold

A fold calls its step once for each node below the root, in post-order, and gives it the results
that it had for the inputs. The state that the step works on may hold more than the graph, and the
graph may grow meanwhile; which calls are made does not depend on that. A step that leaves the state
as it is gives what the recursion over the unfolded expression gives, failures included, although
that recursion works out a shared node as often as it is met.
-/

set_option autoImplicit false

namespace SurfaceTape

def failure? {τ : Type} : Except Error τ → Option Error
  | .ok _ => none
  | .error e => some e

namespace Graph

variable {α σ τ : Type}

/-- A call of the step of a fold that gave a result: the node and its term, the term with results
in the place of inputs, and the state in which the call was made. -/
structure Call (α σ τ : Type) where
  node : Nat
  before : Term α Nat
  after : Term α τ
  state : σ
  result : τ

namespace Call

def entry (call : Call α σ τ) : Entry α := ⟨call.node, call.before⟩

end Call

/-- One of the calls was made for the node, and this was its result. -/
def Answered (calls : List (Call α σ τ)) (n : Nat) (r : τ) : Prop :=
  ∃ call ∈ calls, call.node = n ∧ call.result = r

private theorem Answered.concat {calls : List (Call α σ τ)} {n : Nat} {r : τ}
    (answered : Answered calls n r) (call : Call α σ τ) : Answered (calls ++ [call]) n r := by
  obtain ⟨made, member, here⟩ := answered
  exact ⟨made, List.mem_append_left _ member, here⟩

/-- Calls that were made one after the other, each in the state that the one before it had left, and
each with results of earlier calls in the place of inputs. -/
inductive Made (step : Nat → Term α Nat → Term α τ → EStateM Error σ τ) (s : σ) :
    List (Call α σ τ) → σ → Prop where
  | nil : Made step s [] s
  | concat {calls : List (Call α σ τ)} {call : Call α σ τ} {s' : σ} :
      Made step s calls call.state → Term.Rel (Answered calls) call.before call.after →
      step call.node call.before call.after call.state = .ok call.result s' →
      Made step s (calls ++ [call]) s'

/-- Works out the root while the step works on a state of which the graph is a part. The nodes that
are worked out are those of the graph at the start. -/
def foldIn (graph : σ → Graph α) (step : Nat → Term α Nat → Term α τ → EStateM Error σ τ)
    (root : Nat) : EStateM Error σ τ := fun s =>
  match (graph s).postOrder root with
  | .error e => .error e s
  | .ok entries => foldEntries entries root step s

variable {g : Graph α} {root : Nat} {entries : List (Entry α)}
  {step : Nat → Term α Nat → Term α τ → EStateM Error σ τ} {s : σ}

/-- Any part of a fold. Either every call gave a result, and the results are filed, or the calls end
with one that failed. -/
private theorem foldlM_calls (ordered : g.Ordered root entries) {before rest : List (Entry α)}
    (split : entries = before ++ rest) :
    (∃ calls results s', Made step s calls s' ∧ calls.map Call.entry = before ∧
      before.foldlM (foldEntry step) ∅ s = .ok results s' ∧
      Filed results (before.map Entry.node) (Answered calls)) ∨
    ∃ calls s' entry after later e s'', Made step s calls s' ∧
      before = calls.map Call.entry ++ entry :: later ∧ Term.Rel (Answered calls) entry.term after ∧
      step entry.node entry.term after s' = .error e s'' ∧
      before.foldlM (foldEntry step) ∅ s = .error e s'' := by
  induction before using List.reverseRecOn generalizing rest with
  | nil => exact .inl ⟨[], ∅, s, .nil, rfl, rfl, nofun⟩
  | append_singleton before entry ih =>
      rw [List.append_assoc, List.singleton_append] at split
      obtain ⟨_, fresh, inputs⟩ := ordered.split split
      rcases ih split with ⟨calls, results, s', made, listed, ran, filed⟩ |
        ⟨calls, s', stopped, after, later, e, s'', made, listed, related, failed, ran⟩
      · obtain ⟨after, replaced, related⟩ := filed.map? inputs
        cases worked : step entry.node entry.term after s' with
        | ok r s'' =>
            let call : Call α σ τ := ⟨entry.node, entry.term, after, s', r⟩
            have filedNext : Filed (results.insert entry.node r)
                (before.map Entry.node ++ [entry.node]) (Answered (calls ++ [call])) :=
              (filed.imp fun n r answered => answered.concat call).insert fresh
                ⟨call, by simp, rfl, rfl⟩
            refine .inl ⟨calls ++ [call], _, s'', .concat made related worked, ?_,
              Build.foldlM_concat ran replaced worked, by simpa using filedNext⟩
            rw [List.map_append, listed]
            rfl
        | error e s'' =>
            refine .inr ⟨calls, s', entry, after, [], e, s'', made, by rw [listed], related,
              worked, ?_⟩
            rw [List.foldlM_append, bind_ok ran, List.foldlM_cons]
            exact bind_error (Build.foldEntry_error replaced worked)
      · refine .inr ⟨calls, s', stopped, after, later ++ [entry], e, s'', made, by simp [listed],
          related, failed, ?_⟩
        rw [List.foldlM_append]
        exact bind_error ran

variable (step s) in
theorem foldEntries_calls (ordered : g.Ordered root entries) :
    (∃ calls s' r, Made step s calls s' ∧ calls.map Call.entry = entries ∧
      Answered calls root r ∧ foldEntries entries root step s = .ok r s') ∨
    ∃ calls s' entry after later e s'', Made step s calls s' ∧
      entries = calls.map Call.entry ++ entry :: later ∧
      Term.Rel (Answered calls) entry.term after ∧
      step entry.node entry.term after s' = .error e s'' ∧
      foldEntries entries root step s = .error e s'' := by
  rcases foldlM_calls ordered (List.append_nil entries).symm with
    ⟨calls, results, s', made, listed, ran, filed⟩ |
    ⟨calls, s', entry, after, later, e, s'', made, listed, related, failed, ran⟩
  · obtain ⟨r, found, answered⟩ := filed root ((ordered.mem_iff root).mpr .refl)
    exact .inl ⟨calls, s', r, made, listed, answered, Build.foldEntries_of_foldlM ran found⟩
  · exact .inr ⟨calls, s', entry, after, later, e, s'', made, listed, related, failed,
      bind_error ran⟩

/-- Where the graph only grows, every call finds the terms that there were at the start. -/
theorem Made.le {graph : σ → Graph α}
    (appends : ∀ {n before after s r s'}, step n before after s = .ok r s' → graph s ≤ graph s')
    {calls : List (Call α σ τ)} {s' : σ} (made : Made step s calls s') :
    graph s ≤ graph s' ∧ ∀ call ∈ calls, graph s ≤ graph call.state := by
  induction made with
  | nil => exact ⟨le_rfl, nofun⟩
  | concat _ _ worked ih =>
      refine ⟨ih.1.trans (appends worked), fun made member => ?_⟩
      rcases List.mem_append.mp member with earlier | last
      · exact ih.2 made earlier
      · cases List.mem_singleton.mp last
        exact ih.1

/-- The recursive fold over the expression at a node: the inputs are worked out anew, the first one
first, and then the node. The first failure ends it. -/
def foldTree (g : Graph α) (f : Nat → Term α Nat → Term α τ → Except Error τ) (n : Nat) :
    Except Error τ :=
  match found : g.term? n with
  | none => .error .badNode
  | some (.axis a) => f n (.axis a) (.axis a)
  | some (.const c) => f n (.const c) (.const c)
  | some (.unary op a) =>
      have first : a < n := lt_of_mem_inputs found (by simp [Term.inputs])
      do
        let r ← foldTree g f a
        f n (.unary op a) (.unary op r)
  | some (.binary op a b) =>
      have first : a < n := lt_of_mem_inputs found (by simp [Term.inputs])
      have second : b < n := lt_of_mem_inputs found (by simp [Term.inputs])
      do
        let r ← foldTree g f a
        let r' ← foldTree g f b
        f n (.binary op a b) (.binary op r r')
termination_by n

variable {f : Nat → Term α Nat → Term α τ → Except Error τ}

private theorem foldTree_of_absent {n : Nat} (absent : g.size ≤ n) :
    g.foldTree f n = .error .badNode := by
  have missing := (g.term?_eq_none_iff n).mpr absent
  rw [foldTree]
  split <;> simp_all

private theorem foldTree_unary {n a : Nat} {op : UnaryOp} (found : g.term? n = some (.unary op a)) :
    g.foldTree f n = g.foldTree f a >>= fun r => f n (.unary op a) (.unary op r) := by
  rw [foldTree]
  split <;> simp_all

private theorem foldTree_binary {n a b : Nat} {op : BinaryOp}
    (found : g.term? n = some (.binary op a b)) :
    g.foldTree f n = g.foldTree f a >>= fun r => g.foldTree f b >>= fun r' =>
      f n (.binary op a b) (.binary op r r') := by
  rw [foldTree]
  split <;> simp_all

theorem foldTree_of_rel {n : Nat} {before : Term α Nat} {after : Term α τ}
    (found : g.term? n = some before)
    (rel : Term.Rel (fun a r => g.foldTree f a = .ok r) before after) :
    g.foldTree f n = f n before after := by
  cases rel with
  | axis =>
      rw [foldTree]
      split <;> simp_all
  | const =>
      rw [foldTree]
      split <;> simp_all
  | unary first =>
      rw [foldTree_unary found, first]
      rfl
  | binary first second =>
      rw [foldTree_binary found, first]
      simp only [second]
      rfl

/-- The first failure among the entries, when the expression at each of them is worked out by
itself. -/
def firstFailure (g : Graph α) (f : Nat → Term α Nat → Term α τ → Except Error τ)
    (entries : List (Entry α)) : Option Error :=
  entries.findSome? fun entry => failure? (g.foldTree f entry.node)

private theorem firstFailure_concat (before : List (Entry α)) (entry : Entry α) :
    g.firstFailure f (before ++ [entry]) =
      (g.firstFailure f before).or (failure? (g.foldTree f entry.node)) := by
  simp [firstFailure]

private theorem firstFailure_search_grows {n : Nat} (inside : n < g.size) {done : List (Entry α)}
    (recorded : g.Recorded done) {e : Error} (failed : g.firstFailure f done.reverse = some e) :
    g.firstFailure f (g.search n done).reverse = some e := by
  obtain ⟨later, grown⟩ := (explored_search inside recorded).suffix
  rw [firstFailure] at failed
  rw [← grown, List.reverse_append, firstFailure, List.findSome?_append, failed]
  rfl

/-- The search meets the failure of a node before any other one, provided that nothing failed among
what it has recorded. -/
theorem firstFailure_search {n : Nat} (inside : n < g.size) {done : List (Entry α)}
    (recorded : g.Recorded done) (clean : g.firstFailure f done.reverse = none) :
    g.firstFailure f (g.search n done).reverse = failure? (g.foldTree f n) := by
  induction n using Nat.strongRecOn generalizing done with
  | ind n ih =>
      by_cases old : n ∈ done.map Entry.node
      · obtain ⟨entry, member, rfl⟩ := List.mem_map.mp old
        rw [search_of_recorded old, clean]
        exact (List.findSome?_eq_none_iff.mp clean entry (List.mem_reverse.mpr member)).symm
      · obtain ⟨t, found⟩ := exists_term?_of_lt_size inside
        have lower : ∀ a ∈ t.inputs, a < n := fun a input => lt_of_mem_inputs found input
        have within : ∀ a ∈ t.inputs, a < g.size := fun a input =>
          Nat.lt_trans (lower a input) inside
        rw [search_of_fresh old found, List.reverse_cons, firstFailure_concat]
        cases t with
        | axis a =>
            show (g.firstFailure f done.reverse).or _ = _
            rw [clean]
            rfl
        | const c =>
            show (g.firstFailure f done.reverse).or _ = _
            rw [clean]
            rfl
        | unary op a =>
            show (g.firstFailure f (g.search a done).reverse).or _ = _
            rw [ih a (lower a (by simp)) (within a (by simp)) recorded clean, foldTree_unary found]
            cases g.foldTree f a <;> rfl
        | binary op a b =>
            have first := ih a (lower a (by simp)) (within a (by simp)) recorded clean
            have recorded' := (explored_search (within a (by simp)) recorded).recorded
            show (g.firstFailure f (g.search b (g.search a done)).reverse).or _ = _
            rw [foldTree_binary found]
            cases worked : g.foldTree f a with
            | error e =>
                rw [worked] at first
                rw [firstFailure_search_grows (within b (by simp)) recorded' first]
                rfl
            | ok r =>
                rw [worked] at first
                rw [ih b (lower b (by simp)) (within b (by simp)) recorded' first]
                cases g.foldTree f b <;> rfl

theorem Made.foldTree_eq {calls : List (Call α σ τ)} {s' : σ} (made : Made step s calls s')
    (stored : ∀ call ∈ calls, g.term? call.node = some call.before)
    (steady : ∀ n before after,
      step n before after s = (ofExcept (f n before after) : EStateM Error σ τ) s) :
    s' = s ∧ ∀ n r, Answered calls n r → g.foldTree f n = .ok r := by
  induction made with
  | nil => exact ⟨rfl, nofun⟩
  | @concat calls call s' _ rel worked ih =>
      obtain ⟨same, values⟩ := ih fun made member => stored made (List.mem_append_left _ member)
      have value : g.foldTree f call.node = f call.node call.before call.after :=
        foldTree_of_rel (stored call (by simp)) (rel.imp values)
      rw [same, steady] at worked
      cases answer : f call.node call.before call.after with
      | error e =>
          rw [answer] at worked
          cases worked
      | ok r =>
          rw [answer] at worked
          cases worked
          refine ⟨rfl, fun n r answered => ?_⟩
          obtain ⟨made, member, rfl, rfl⟩ := answered
          rcases List.mem_append.mp member with earlier | last
          · exact values _ _ ⟨made, earlier, rfl, rfl⟩
          · cases List.mem_singleton.mp last
            exact value.trans answer

theorem foldEntries_eq_foldTree (inside : root < g.size)
    (steady : ∀ n before after,
      step n before after s = (ofExcept (f n before after) : EStateM Error σ τ) s) :
    foldEntries (g.search root []).reverse root step s =
      (ofExcept (g.foldTree f root) : EStateM Error σ τ) s := by
  have ordered := ordered_search inside
  have failing := firstFailure_search (f := f) inside .nil rfl
  rcases foldEntries_calls step s ordered with
    ⟨calls, s', r, made, listed, answered, ran⟩ |
    ⟨calls, s', entry, after, later, e, s'', made, listed, related, failed, ran⟩
  · have stored : ∀ call ∈ calls, g.term? call.node = some call.before := fun call member =>
      ordered.term? (listed ▸ List.mem_map_of_mem member)
    obtain ⟨same, values⟩ := made.foldTree_eq stored steady
    rw [ran, values root r answered, same]
    rfl
  · have stored : ∀ call ∈ calls, g.term? call.node = some call.before := fun call member =>
      ordered.term? (listed ▸ List.mem_append_left _ (List.mem_map_of_mem member))
    obtain ⟨same, values⟩ := made.foldTree_eq stored steady
    have value : g.foldTree f entry.node = f entry.node entry.term after :=
      foldTree_of_rel (ordered.split listed).1 (related.imp values)
    rw [same, steady] at failed
    cases answer : f entry.node entry.term after with
    | ok r =>
        rw [answer] at failed
        cases failed
    | error e' =>
        rw [answer] at failed
        cases failed
        -- Every call before that one gave a result, so its failure is the first one.
        have clean : g.firstFailure f (calls.map Call.entry) = none := by
          refine List.findSome?_eq_none_iff.mpr fun called listed => ?_
          obtain ⟨call, member, rfl⟩ := List.mem_map.mp listed
          have answered : Answered calls call.entry.node call.result := ⟨call, member, rfl, rfl⟩
          rw [values _ _ answered]
          rfl
        have first : failure? (g.foldTree f root) = some e := by
          rw [← failing, listed, ← List.singleton_append, ← List.append_assoc, firstFailure,
            List.findSome?_append, ← firstFailure, firstFailure_concat, clean, value, answer]
          rfl
        cases total : g.foldTree f root with
        | ok r =>
            rw [total] at first
            cases first
        | error e' =>
            rw [total] at first
            cases first
            exact ran

theorem foldIn_of_postOrder {graph : σ → Graph α}
    (listed : (graph s).postOrder root = .ok entries) :
    foldIn graph step root s = foldEntries entries root step s := by
  rw [foldIn, listed]

theorem foldIn_of_absent {graph : σ → Graph α} (absent : (graph s).size ≤ root) :
    foldIn graph step root s = .error .badNode s := by
  rw [foldIn, postOrder_of_absent absent]

/-- A node that is not in the graph is refused. From any other node, a fold whose step only appends
to the graph calls it once for each node of the order at the start, in that order, with the term
that the node has had all along and the results for its inputs, and gives the result for the root;
or a call fails, no other one is made, and the fold fails likewise. A step that leaves the state as
it is gives the result of the recursion over the expression, and so does evaluation. A fold over
graphs is the case in which the state is the graph. -/
theorem fold_calls_in_order (graph : σ → Graph α)
    (step : Nat → Term α Nat → Term α τ → EStateM Error σ τ)
    (appends : ∀ {n before after s r s'}, step n before after s = .ok r s' → graph s ≤ graph s')
    (root : Nat) (s : σ) :
    ((graph s).size ≤ root → foldIn graph step root s = .error .badNode s) ∧
    (root < (graph s).size → ∃ nodes calls s', (graph s).order root = .ok nodes ∧
      Made step s calls s' ∧
      (∀ call ∈ calls, (graph s).term? call.node = some call.before ∧
        (graph call.state).term? call.node = some call.before) ∧
      ((calls.map Call.node = nodes ∧
        ∃ r, Answered calls root r ∧ foldIn graph step root s = .ok r s') ∨
      ∃ n before after later e s'', nodes = calls.map Call.node ++ n :: later ∧
        (graph s).term? n = some before ∧ (graph s').term? n = some before ∧
        Term.Rel (Answered calls) before after ∧ step n before after s' = .error e s'' ∧
        foldIn graph step root s = .error e s'')) ∧
    (∀ f : Nat → Term α Nat → Term α τ → Except Error τ,
      (∀ n before after,
        step n before after s = (ofExcept (f n before after) : EStateM Error σ τ) s) →
      foldIn graph step root s = (ofExcept ((graph s).foldTree f root) : EStateM Error σ τ) s) ∧
    (∀ [Arith α] (p : Point α),
      ((graph s).size ≤ root → (graph s).evalAt p root = .error .badNode) ∧
      (root < (graph s).size → ∃ v, (graph s).value? (.atPoint id p) root = some v ∧
        (graph s).evalAt p root = .ok v)) ∧
    ∀ step' : Nat → Term α Nat → Term α τ → Build α τ,
      Build.fold step' root = foldIn id step' root := by
  refine ⟨foldIn_of_absent, ?_, ?_, ?_, fun step' => rfl⟩
  · intro inside
    obtain ⟨entries, listed, ordered⟩ := exists_postOrder inside
    have nodes := order_of_postOrder listed
    have lookups : ∀ {calls : List (Call α σ τ)} {s' : σ}, Made step s calls s' →
        (∀ call ∈ calls, call.entry ∈ entries) →
        ∀ call ∈ calls, (graph s).term? call.node = some call.before ∧
          (graph call.state).term? call.node = some call.before := by
      intro calls s' made among call member
      have stored := ordered.term? (among call member)
      exact ⟨stored, term?_of_le ((made.le appends).2 call member) stored⟩
    rcases foldEntries_calls step s ordered with
      ⟨calls, s', r, made, complete, answered, ran⟩ |
      ⟨calls, s', entry, after, later, e, s'', made, stopped, related, failed, ran⟩
    · have among : ∀ call ∈ calls, call.entry ∈ entries := fun call member =>
        complete ▸ List.mem_map_of_mem member
      refine ⟨_, calls, s', nodes, made, lookups made among, .inl ⟨?_, r, answered, ?_⟩⟩
      · rw [← complete, List.map_map]
        rfl
      · rw [foldIn_of_postOrder listed, ran]
    · have among : ∀ call ∈ calls, call.entry ∈ entries := fun call member =>
        stopped ▸ List.mem_append_left _ (List.mem_map_of_mem member)
      have stored := (ordered.split stopped).1
      refine ⟨_, calls, s', nodes, made, lookups made among, .inr ⟨entry.node, entry.term, after,
        later.map Entry.node, e, s'', ?_, stored, term?_of_le (made.le appends).1 stored, related,
        failed, ?_⟩⟩
      · rw [stopped, List.map_append, List.map_cons, List.map_map]
        rfl
      · rw [foldIn_of_postOrder listed, ran]
  · intro f steady
    rcases Nat.lt_or_ge root (graph s).size with inside | absent
    · rw [foldIn_of_postOrder (postOrder_eq_search inside), foldEntries_eq_foldTree inside steady]
    · rw [foldIn_of_absent absent, foldTree_of_absent absent]
      rfl
  · intro _ p
    constructor
    · intro absent
      rw [evalAt, eval_eq_value?, value?_of_absent absent]
      rfl
    · intro inside
      obtain ⟨v, value⟩ := exists_value? (Interpretation.atPoint id p) inside
      exact ⟨v, value, eval_of_value? value⟩

def diamond : Graph Float where
  terms := #[.axis .x, .binary .add 0 0, .binary .mul 1 1]
  acyclic := by decide

def countedCopy (_ : Nat) (_ after : Term Float Nat) : EStateM Error (Graph Float × Nat) Nat :=
  fun s => if fits : after.Fits s.1.size then .ok s.1.size (s.1.push after fits, s.2 + 1)
    else .error .badNode s

/-- How many ways lead from the term down to a leaf. -/
def paths (_ : Nat) (_ : Term Float Nat) (after : Term Float Nat) : Except Error Nat :=
  .ok (if after.inputs = [] then 1 else after.inputs.sum)

theorem fold_diamond_calls_in_order :
    2 < diamond.size ∧
      (∃ calls h, Made countedCopy (diamond, 0) calls (h, 3) ∧ calls.map Call.node = [0, 1, 2] ∧
        Answered calls 2 5 ∧ foldIn Prod.fst countedCopy 2 (diamond, 0) = .ok 5 (h, 3)) ∧
      Build.fold (fun n before after => ofExcept (paths n before after)) 2 diamond =
        .ok 4 diamond := by
  have inside : 2 < diamond.size := by decide
  have appends : ∀ {n before after s r s'}, countedCopy n before after s = .ok r s' →
      s.1 ≤ s'.1 := by
    intro n before after s r s' ran
    unfold countedCopy at ran
    split at ran
    · next fits =>
        cases ran
        exact s.1.le_push after fits
    · cases ran
  have known : diamond.postOrder 2 = .ok [⟨0, .axis .x⟩, ⟨1, .binary .add 0 0⟩,
      ⟨2, .binary .mul 1 1⟩] := by
    cbv
  have listed : diamond.order 2 = .ok [0, 1, 2] := order_of_postOrder known
  obtain ⟨_, follows, _, _, _⟩ := fold_calls_in_order Prod.fst countedCopy appends 2 (diamond, 0)
  obtain ⟨nodes, calls, s', ordered, made, _, ended⟩ := follows inside
  cases listed.symm.trans ordered
  obtain ⟨h, copied⟩ : ∃ h, foldIn Prod.fst countedCopy 2 (diamond, 0) = .ok 5 (h, 3) := by
    rw [foldIn_of_postOrder known]
    exact ⟨_, rfl⟩
  refine ⟨inside, ?_, ?_⟩
  · rcases ended with ⟨complete, r, answered, ran⟩ | ⟨_, _, _, _, _, _, _, _, _, _, _, ran⟩
    · cases copied.symm.trans ran
      exact ⟨calls, h, made, complete, answered, copied⟩
    · cases copied.symm.trans ran
  · obtain ⟨_, _, recursive, _, same⟩ := fold_calls_in_order id
      (fun n before after => (ofExcept (paths n before after) : Build Float Nat))
      (fun {_ _ _ _ _ _} ran => by cases ran; exact le_rfl) 2 diamond
    have counted : diamond.foldTree paths 2 = .ok 4 := by cbv
    rw [same, recursive paths fun _ _ _ => rfl, id_eq, counted]
    rfl

end Graph

end SurfaceTape

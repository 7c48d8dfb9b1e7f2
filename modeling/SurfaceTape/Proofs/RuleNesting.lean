import SurfaceTape.Proofs.NormalForm
import Mathlib.Data.Set.Card

/-!
# Rules nest at most five deep

A rule may ask for another term to be simplified, and the rule for that one may ask again. The calls
that nest in this way are followed here as they are made, without a bound on their number. While an
expression is simplified from its leaves to its root, no chain of them is longer than five, whatever
the scalars are. So the depth that the simplifier is given never runs out, and a larger depth gives
the same result.
-/

set_option autoImplicit false

namespace SurfaceTape

namespace Graph

variable {α : Type}

theorem Ordered.countP_eq_ncard {g : Graph α} {root : Nat} {entries : List (Entry α)}
    (ordered : g.Ordered root entries) {p : Entry α → Bool} {nodes : Set Nat}
    (mem_iff : ∀ n, n ∈ nodes ↔ ∃ entry ∈ entries, p entry = true ∧ entry.node = n) :
    entries.countP p = nodes.ncard := by
  have distinct : ((entries.filter p).map Entry.node).Nodup :=
    (List.filter_sublist.map _).nodup ordered.nodup
  have same : nodes = (((entries.filter p).map Entry.node).toFinset : Set Nat) := by
    ext n
    rw [List.coe_toFinset, Set.mem_ofPred_eq, List.mem_map, mem_iff]
    simp only [List.mem_filter, and_assoc]
  rw [same, Set.ncard_coe_finset, List.toFinset_card_of_nodup distinct, List.length_map,
    List.countP_eq_length_filter]

theorem operatorCount_eq_ncard {g : Graph α} {root : Nat} {entries : List (Entry α)}
    (ordered : g.Ordered root entries) :
    Build.operatorCount entries = (g.operators root).ncard := by
  apply ordered.countP_eq_ncard
  intro n
  constructor
  · intro member
    obtain ⟨reached, t, stored, operator⟩ := member
    obtain ⟨entry, listed, rfl⟩ := List.mem_map.mp ((ordered.mem_iff n).mpr reached)
    cases stored.symm.trans (ordered.term? listed)
    exact ⟨entry, listed, operator, rfl⟩
  · intro member
    obtain ⟨entry, listed, operator, rfl⟩ := member
    exact ⟨(ordered.mem_iff _).mp (List.mem_map_of_mem listed), entry.term, ordered.term? listed,
      operator⟩

variable [Scalar α]

/-- Simplifying the first term leads to a call for the second one, which is made in the graph that
there is by then. -/
inductive Calls : Graph α → Term α Nat → Graph α → Term α Nat → Prop where
  | term {g : Graph α} {t u : Term α Nat} : g.reduct? t = some (.term u) → Calls g t g u
  | sum {g : Graph α} {t : Term α Nat} {a b : Nat} :
      g.reduct? t = some (.negatedSum a b) → Calls g t g (.binary .add a b)
  | negation {g h : Graph α} {t : Term α Nat} {a b sum : Nat} :
      g.reduct? t = some (.negatedSum a b) → Reduces g (.binary .add a b) none sum h →
      Calls g t h (.unary .neg sum)
  | product {g : Graph α} {t : Term α Nat} {a : Nat} {c : α} :
      g.reduct? t = some (.scaled a c) → Calls g t (g.pushConst c) (.binary .mul a g.size)

/-- Calls that are nested in each other, and their number. The outermost is the one for the term. -/
inductive CallChain : Nat → Graph α → Term α Nat → Prop where
  | single {g : Graph α} {t : Term α Nat} : CallChain 1 g t
  | nested {length : Nat} {g h : Graph α} {t u : Term α Nat} :
      Calls g t h u → CallChain length h u → CallChain (length + 1) g t

theorem Reduces.exists_reduce {g h : Graph α} {t : Term α Nat} {kept : Option Nat} {n : Nat}
    (reduces : Reduces g t kept n h) : ∃ depth, g.reduce depth t kept = (some n, h) := by
  induction reduces with
  | kept unruled => exact ⟨1, by simp only [reduce, unruled]⟩
  | append fits unruled => exact ⟨1, by simp only [reduce, unruled, dif_pos fits]⟩
  | node applied => exact ⟨1, by simp only [reduce, applied]⟩
  | constant applied => exact ⟨1, by simp only [reduce, applied]⟩
  | term applied _ ih =>
      obtain ⟨depth, reduced⟩ := ih
      exact ⟨depth + 1, by simp only [reduce, applied, reduced]⟩
  | negatedSum applied _ _ sumIH negIH =>
      obtain ⟨depth, summed⟩ := sumIH
      obtain ⟨depth', negated⟩ := negIH
      have summed' := reduce_of_le summed (Nat.le_max_left depth depth')
      have negated' := reduce_of_le negated (Nat.le_max_right depth depth')
      exact ⟨max depth depth' + 1, by simp only [reduce, applied, summed', negated']⟩
  | scaled applied _ ih =>
      obtain ⟨depth, reduced⟩ := ih
      exact ⟨depth + 1, by simp only [reduce, applied, reduced]⟩

theorem Reduces.unique {g h h' : Graph α} {t : Term α Nat} {kept : Option Nat} {n n' : Nat}
    (first : Reduces g t kept n h) (second : Reduces g t kept n' h') : n = n' ∧ h = h' := by
  obtain ⟨depth, reduced⟩ := first.exists_reduce
  obtain ⟨depth', reduced'⟩ := second.exists_reduce
  have same := (reduce_of_le reduced (Nat.le_max_left depth depth')).symm.trans
    (reduce_of_le reduced' (Nat.le_max_right depth depth'))
  cases same
  exact ⟨rfl, rfl⟩

/-- A call that ends within a depth makes only calls that end within one less. -/
theorem Calls.exists_reduce {depth : Nat} {g h k : Graph α} {t u : Term α Nat} {kept : Option Nat}
    {n : Nat} (calls : Calls g t h u) (reduced : g.reduce (depth + 1) t kept = (some n, k)) :
    ∃ m k', h.reduce depth u none = (some m, k') := by
  cases calls with
  | term applied =>
      simp only [reduce, applied] at reduced
      exact ⟨n, k, reduced⟩
  | product applied =>
      simp only [reduce, applied] at reduced
      exact ⟨n, k, reduced⟩
  | @sum _ a b applied =>
      simp only [reduce, applied] at reduced
      cases summed : g.reduce depth (.binary .add a b) none with
      | mk result k' =>
          cases result with
          | none =>
              rw [summed] at reduced
              cases reduced
          | some s => exact ⟨s, k', rfl⟩
  | @negation _ _ a b sum applied sums =>
      simp only [reduce, applied] at reduced
      cases summed : g.reduce depth (.binary .add a b) none with
      | mk result k' =>
          rw [summed] at reduced
          cases result with
          | none => cases reduced
          | some s =>
              obtain ⟨same, same'⟩ := (reduces_of_reduce summed).unique sums
              subst same same'
              exact ⟨n, k, reduced⟩

theorem CallChain.length_le {depth length : Nat} {g h : Graph α} {t : Term α Nat}
    {kept : Option Nat} {n : Nat} (chain : CallChain length g t)
    (reduced : g.reduce depth t kept = (some n, h)) : length ≤ depth := by
  induction chain generalizing depth kept n h with
  | single =>
      cases depth with
      | zero => cases reduced
      | succ depth => exact Nat.le_add_left 1 depth
  | nested calls _ ih =>
      cases depth with
      | zero => cases reduced
      | succ depth =>
          obtain ⟨m, k, inner⟩ := calls.exists_reduce reduced
          exact Nat.succ_le_succ (ih inner)

end Graph

namespace Build

variable {α : Type} [Scalar α]

/-- Simplification of the root comes to a node. There is a graph by then, and the term of the node
is rebuilt with results in the place of its inputs. -/
def Visits (g : Graph α) (root n : Nat) (h : Graph α) (before after : Term α Nat) : Prop :=
  ∃ earlier later results, g.postOrder root = .ok (earlier ++ ⟨n, before⟩ :: later) ∧
    earlier.foldlM (Graph.foldEntry simplifyTerm) ∅ g = .ok results h ∧
    (before.map? fun a => results[a]?) = some after

theorem exists_visits {g : Graph α} {root n : Nat} (inside : root < g.size)
    (reached : g.Reaches root n) : ∃ h before after, Visits g root n h before after := by
  obtain ⟨entries, listed, ordered⟩ := Graph.exists_postOrder inside
  obtain ⟨entry, member, rfl⟩ := List.mem_map.mp ((ordered.mem_iff n).mpr reached)
  obtain ⟨earlier, later, rfl⟩ := List.append_of_mem member
  obtain ⟨results, h, ran, _, _, found⟩ := foldlM_settles ordered rfl
  obtain ⟨after, replaced, _⟩ := found.map? (ordered.split rfl).2.2
  exact ⟨h, entry.term, after, earlier, later, results, listed, ran, replaced⟩

/-- Where the run comes to, the inputs are simplified. -/
theorem Visits.rel {g h : Graph α} {root n : Nat} {before after : Term α Nat}
    (visits : Visits g root n h before after) :
    h.term? n = some before ∧ Term.Rel (fun _ r => Simple h r) before after := by
  obtain ⟨earlier, later, results, listed, ran, replaced⟩ := visits
  have ordered := (Graph.Ordered.of_postOrder listed).2
  obtain ⟨stored, _, inputs⟩ := ordered.split rfl
  obtain ⟨results', h', ran', grown, _, found⟩ := foldlM_settles ordered rfl
  cases ran.symm.trans ran'
  obtain ⟨after', replaced', rel⟩ := found.map? inputs
  cases replaced.symm.trans replaced'
  exact ⟨Graph.term?_of_le grown stored, rel⟩

/-- At every node to which simplification comes, no more than five calls are nested, a depth of five
is as good as any larger one, and at most two nodes are appended. In all, the graph grows by at most
twice the number of operators. -/
theorem simplify_nests_shallowly {g : Graph α} {root : Nat} (inside : root < g.size) :
    (∀ n, g.Reaches root n → ∃ h before after, Visits g root n h before after) ∧
    (∀ n h before after, Visits g root n h before after → before.operator?.isSome = true →
      (∀ length, h.CallChain length after → length ≤ 5) ∧
      ∃ r k, (∀ depth, 5 ≤ depth → h.reduce depth after
          (if after.inputs = before.inputs then some n else none) = (some r, k)) ∧
        simplifyTerm n before after h = .ok r k ∧ k.size ≤ h.size + 2) ∧
    ∃ out h, simplify root g = .ok out h ∧ h.size ≤ g.size + 2 * (g.operators root).ncard := by
  refine ⟨fun n reached => exists_visits inside reached, ?_, ?_⟩
  · intro n h before after visits operator
    obtain ⟨stored, rel⟩ := visits.rel
    obtain ⟨r, k, reduced, settled⟩ := exists_reduce stored operator rel
    exact ⟨fun length chain => chain.length_le reduced, r, k,
      fun depth enough => Graph.reduce_of_le reduced enough,
      simplifyTerm_of_reduced operator reduced, settled.few⟩
  · obtain ⟨entries, listed, ordered⟩ := Graph.exists_postOrder inside
    obtain ⟨out, h, ran, settled⟩ := simplify_settles listed
    refine ⟨out, h, ran, ?_⟩
    rw [← Graph.operatorCount_eq_ncard ordered]
    exact settled.few

private theorem visits_negatedDifference : Visits negatedDifference 5 5 negatedDifference
    (.binary .sub 0 4) (.binary .sub 0 4) :=
  ⟨[⟨0, .const 0⟩, ⟨1, .axis .x⟩, ⟨3, .unary .neg 1⟩, ⟨2, .axis .y⟩, ⟨4, .binary .sub 3 2⟩], [], _,
    by cbv, rfl, rfl⟩

private theorem callChain_negatedDifference : negatedDifference.CallChain 4 (.binary .sub 0 4) :=
  .nested (.term (u := .unary .neg 4) rfl) <| .nested (.term (u := .binary .sub 2 3) rfl) <|
    .nested (.term (u := .binary .add 2 1) rfl) .single

theorem simplify_negatedDifference_nests_shallowly :
    5 < negatedDifference.size ∧ negatedDifference.CallChain 4 (.binary .sub 0 4) ∧
      (∀ length, negatedDifference.CallChain length (.binary .sub 0 4) → length ≤ 5) ∧
      ∀ depth, 5 ≤ depth → negatedDifference.reduce depth (.binary .sub 0 4) (some 5) =
        (some 6, negatedDifference.push (.binary .add 2 1) (by decide)) := by
  have inside : 5 < negatedDifference.size := by decide
  obtain ⟨_, calls, _⟩ := simplify_nests_shallowly inside
  obtain ⟨short, r, k, reduced, _⟩ := calls 5 _ _ _ visits_negatedDifference rfl
  refine ⟨inside, callChain_negatedDifference, short, fun depth enough => ?_⟩
  have five : negatedDifference.reduce 5 (.binary .sub 0 4) (some 5) =
      (some 6, negatedDifference.push (.binary .add 2 1) (by decide)) := rfl
  exact (reduced depth enough).trans ((reduced 5 (Nat.le_refl 5)).symm.trans five)

end Build

end SurfaceTape

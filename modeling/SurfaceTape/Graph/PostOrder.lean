import SurfaceTape.Error
import Std.Data.TreeSet.Lemmas

/-!
# Post-order

The nodes below a root, each after its inputs and each once. The first input of a term is explored
before the second. The walk keeps its own stack of tasks, so its depth is bounded by memory alone.
-/

set_option autoImplicit false

namespace SurfaceTape.Graph

variable {α : Type}

structure Entry (α : Type) where
  node : Nat
  term : Term α Nat

/-- What the walk has still to do: explore a node, or record one whose inputs are recorded. -/
inductive Task (α : Type) where
  | enter (node : Nat)
  | leave (entry : Entry α)

/-- How many nodes of the graph the walk has not entered. -/
def unseen (g : Graph α) (seen : Std.TreeSet Nat) : Nat :=
  (List.range g.size).countP fun n => !seen.contains n

private theorem countP_lt_countP {p q : Nat → Bool} {l : List Nat}
    (weaker : ∀ n, q n = true → p n = true) {k : Nat} (member : k ∈ l) (holds : p k = true)
    (fails : q k = false) :
    l.countP q < l.countP p := by
  induction l with
  | nil => cases member
  | cons head tail ih =>
      have tailLe : tail.countP q ≤ tail.countP p := List.countP_mono_left fun n _ => weaker n
      rcases List.mem_cons.mp member with rfl | inTail
      · simp only [List.countP_cons, holds, fails]
        simp
        omega
      · have smaller := ih inTail
        have headLe : (if q head = true then 1 else 0) ≤ (if p head = true then 1 else 0) := by
          cases decided : q head with
          | false => simp
          | true => simp [weaker head decided]
        simp only [List.countP_cons]
        omega

private theorem unseen_insert_lt {g : Graph α} {seen : Std.TreeSet Nat} {n : Nat}
    (inside : n < g.size) (fresh : seen.contains n = false) :
    g.unseen (seen.insert n) < g.unseen seen := by
  refine countP_lt_countP ?_ (List.mem_range.mpr inside) (by simp [fresh]) (by simp)
  intro k
  simp only [Std.TreeSet.contains_insert, Bool.not_or, Bool.and_eq_true]
  exact And.right

/-- Entering a node brings at most three tasks, and there is one node less to enter. -/
theorem unseen_enter_lt {g : Graph α} {seen : Std.TreeSet Nat} {n : Nat} {t : Term α Nat}
    {rest : List (Task α)} (fresh : seen.contains n = false) (found : g.term? n = some t) :
    3 * g.unseen (seen.insert n) + (t.inputs.map Task.enter ++ Task.leave ⟨n, t⟩ :: rest).length <
      3 * g.unseen seen + (Task.enter n :: rest).length := by
  have smaller := unseen_insert_lt (lt_size_of_term? found) fresh
  have few : t.inputs.length ≤ 2 := by cases t <;> simp [Term.inputs]
  simp only [List.length_append, List.length_map, List.length_cons]
  omega

/-- Works off the tasks. The recorded entries are kept last first. -/
def walk (g : Graph α) (tasks : List (Task α)) (seen : Std.TreeSet Nat) (done : List (Entry α)) :
    Except Error (List (Entry α)) :=
  match tasks with
  | [] => .ok done.reverse
  | .leave entry :: rest => walk g rest seen (entry :: done)
  | .enter n :: rest =>
      if seen.contains n then walk g rest seen done
      else
        match found : g.term? n with
        | none => .error .badNode
        | some t => walk g (t.inputs.map .enter ++ .leave ⟨n, t⟩ :: rest) (seen.insert n) done
termination_by 3 * g.unseen seen + tasks.length
decreasing_by
  · simp
  · simp
  · exact unseen_enter_lt (Bool.eq_false_iff.mpr (by assumption)) found

/-- The nodes below a root with their terms, each after its inputs; the root comes last. -/
def postOrder (g : Graph α) (root : Nat) : Except Error (List (Entry α)) :=
  g.walk [.enter root] ∅ []

def order (g : Graph α) (root : Nat) : Except Error (List Nat) :=
  (g.postOrder root).map fun entries => entries.map Entry.node

def nodeCount (g : Graph α) (root : Nat) : Except Error Nat :=
  (g.postOrder root).map List.length

end SurfaceTape.Graph

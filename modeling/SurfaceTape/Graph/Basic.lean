import SurfaceTape.Graph.Term

/-!
# Expression graphs

A graph is a growing sequence of terms. A node is a position in it, and the inputs of a term are
earlier nodes, so a graph has no cycles and every recursion from a node to its inputs ends. Equal
terms are not identified: each insertion makes a new node.
-/

set_option autoImplicit false

namespace SurfaceTape

/-- Terms in the order of their insertion, each over earlier nodes. -/
structure Graph (α : Type) where
  terms : Array (Term α Nat)
  acyclic : ∀ (n : Nat) (inside : n < terms.size), ∀ a ∈ terms[n].inputs, a < n

def Term.Fits {α : Type} (t : Term α Nat) (bound : Nat) : Prop :=
  ∀ a ∈ t.inputs, a < bound

instance {α : Type} (t : Term α Nat) (bound : Nat) : Decidable (t.Fits bound) :=
  inferInstanceAs (Decidable (∀ a ∈ t.inputs, a < bound))

theorem Term.axis_fits {α : Type} (a : Axis) (bound : Nat) :
    (Term.axis a : Term α Nat).Fits bound := by
  intro _ member
  cases member

theorem Term.const_fits {α : Type} (c : α) (bound : Nat) :
    (Term.const c : Term α Nat).Fits bound := by
  intro _ member
  cases member

namespace Graph

variable {α : Type}

def empty : Graph α where
  terms := #[]
  acyclic := by
    intro n inside
    simp at inside

def size (g : Graph α) : Nat := g.terms.size

def isEmpty (g : Graph α) : Bool := g.terms.isEmpty

def term? (g : Graph α) (n : Nat) : Option (Term α Nat) := g.terms[n]?

def const? (g : Graph α) (n : Nat) : Option α := (g.term? n).bind Term.const?

/-- Appends a term whose inputs are in the graph. The new node is the old size. -/
def push (g : Graph α) (t : Term α Nat) (fits : t.Fits g.size) : Graph α where
  terms := g.terms.push t
  acyclic := by
    intro n inside a member
    rw [Array.getElem_push] at member
    split at member
    · next old => exact g.acyclic n old a member
    · next new =>
        have last : n = g.terms.size := by
          rw [Array.size_push] at inside
          omega
        rw [last]
        exact fits a member

def pushAxis (g : Graph α) (a : Axis) : Graph α := g.push (.axis a) (Term.axis_fits a g.size)

def pushConst (g : Graph α) (c : α) : Graph α := g.push (.const c) (Term.const_fits c g.size)

@[simp] theorem size_push (g : Graph α) (t : Term α Nat) (fits : t.Fits g.size) :
    (g.push t fits).size = g.size + 1 := by
  simp [push, size]

theorem term?_push (g : Graph α) (t : Term α Nat) (fits : t.Fits g.size) (n : Nat) :
    (g.push t fits).term? n = if n = g.size then some t else g.term? n :=
  Array.getElem?_push

theorem term?_eq_none_iff (g : Graph α) (n : Nat) : g.term? n = none ↔ g.size ≤ n := by
  simp [term?, size]

theorem lt_size_of_term? {g : Graph α} {n : Nat} {t : Term α Nat} (found : g.term? n = some t) :
    n < g.size := by
  rcases Nat.lt_or_ge n g.size with inside | outside
  · exact inside
  · rw [(g.term?_eq_none_iff n).mpr outside] at found
    cases found

/-- The inputs of a stored term are earlier nodes. -/
theorem lt_of_mem_inputs {g : Graph α} {n a : Nat} {t : Term α Nat}
    (found : g.term? n = some t) (member : a ∈ t.inputs) : a < n := by
  have inside : n < g.terms.size := lt_size_of_term? found
  have stored : g.terms[n] = t := by
    have := Array.getElem?_eq_getElem inside
    rw [term?, this] at found
    exact Option.some.inj found
  exact g.acyclic n inside a (stored ▸ member)

end Graph

end SurfaceTape

import SurfaceTape.Graph.Fold
import Mathlib.Data.Set.Defs
import Mathlib.Logic.Relation
import Mathlib.Order.Basic

/-!
# Growing graphs and reachability

A graph lies below every graph that grew out of it. What a node reaches does not change when a
graph grows, because the inputs of a stored term are earlier nodes. Nothing is said here about the
meaning of a node.
-/

set_option autoImplicit false

namespace SurfaceTape

namespace Term

variable {α ν μ : Type}

@[simp] theorem mem_inputs_unary {op : UnaryOp} {a b : ν} :
    b ∈ (Term.unary op a : Term α ν).inputs ↔ b = a := by
  simp [inputs]

@[simp] theorem mem_inputs_binary {op : BinaryOp} {a b c : ν} :
    c ∈ (Term.binary op a b : Term α ν).inputs ↔ c = a ∨ c = b := by
  simp [inputs]

theorem fits_unary {op : UnaryOp} {a bound : Nat} :
    (Term.unary op a : Term α Nat).Fits bound ↔ a < bound := by
  simp [Fits]

theorem fits_binary {op : BinaryOp} {a b bound : Nat} :
    (Term.binary op a b : Term α Nat).Fits bound ↔ a < bound ∧ b < bound := by
  simp [Fits]

/-- Two terms of the same shape whose inputs are related, first to first and second to second. -/
inductive Rel (related : ν → μ → Prop) : Term α ν → Term α μ → Prop where
  | axis {a : Axis} : Rel related (.axis a) (.axis a)
  | const {c : α} : Rel related (.const c) (.const c)
  | unary {op : UnaryOp} {a : ν} {b : μ} :
      related a b → Rel related (.unary op a) (.unary op b)
  | binary {op : BinaryOp} {a b : ν} {c d : μ} :
      related a c → related b d → Rel related (.binary op a b) (.binary op c d)

theorem exists_map?_eq_some {related : ν → μ → Prop} {f : ν → Option μ} {t : Term α ν}
    (found : ∀ a ∈ t.inputs, ∃ b, f a = some b ∧ related a b) :
    ∃ u, t.map? f = some u ∧ Rel related t u := by
  cases t with
  | axis a => exact ⟨_, rfl, .axis⟩
  | const c => exact ⟨_, rfl, .const⟩
  | unary op a =>
      obtain ⟨b, value, holds⟩ := found a (by simp)
      exact ⟨.unary op b, by simp [map?, value], .unary holds⟩
  | binary op a b =>
      obtain ⟨c, first, firstHolds⟩ := found a (by simp)
      obtain ⟨d, second, secondHolds⟩ := found b (by simp)
      exact ⟨.binary op c d, by simp [map?, first, second], .binary firstHolds secondHolds⟩

theorem Rel.imp {related weaker : ν → μ → Prop} {t : Term α ν} {u : Term α μ}
    (rel : Rel related t u) (implies : ∀ a b, related a b → weaker a b) : Rel weaker t u := by
  cases rel with
  | axis => exact .axis
  | const => exact .const
  | unary first => exact .unary (implies _ _ first)
  | binary first second => exact .binary (implies _ _ first) (implies _ _ second)

theorem Rel.exists_of_mem_inputs {related : ν → μ → Prop} {t : Term α ν} {u : Term α μ}
    (rel : Rel related t u) {b : μ} (member : b ∈ u.inputs) : ∃ a ∈ t.inputs, related a b := by
  cases rel with
  | axis => cases member
  | const => cases member
  | @unary op a c first =>
      cases mem_inputs_unary.mp member
      exact ⟨a, by simp, first⟩
  | @binary op a a' c d first second =>
      rcases mem_inputs_binary.mp member with rfl | rfl
      · exact ⟨a, by simp, first⟩
      · exact ⟨a', by simp, second⟩

theorem Rel.fits {related : ν → Nat → Prop} {t : Term α ν} {u : Term α Nat} {bound : Nat}
    (rel : Rel related t u) (inside : ∀ a b, related a b → b < bound) : u.Fits bound := by
  intro b member
  obtain ⟨a, _, holds⟩ := rel.exists_of_mem_inputs member
  exact inside a b holds

theorem Rel.eq_of_inputs {related : ν → ν → Prop} {t u : Term α ν} (rel : Rel related t u)
    (same : u.inputs = t.inputs) : u = t := by
  cases rel with
  | axis => rfl
  | const => rfl
  | unary _ =>
      cases same
      rfl
  | binary _ _ =>
      cases same
      rfl

theorem Rel.eq_of_same {related : ν → ν → Prop} {t u : Term α ν} (rel : Rel related t u)
    (same : ∀ a b, related a b → b = a) : u = t := by
  cases rel with
  | axis => rfl
  | const => rfl
  | unary first => rw [same _ _ first]
  | binary first second => rw [same _ _ first, same _ _ second]

theorem Rel.eq_map {related : ν → μ → Prop} {f : ν → μ} {t : Term α ν} {u : Term α μ}
    (rel : Rel related t u) (image : ∀ a b, related a b → f a = b) : u = t.map f := by
  cases rel with
  | axis => rfl
  | const => rfl
  | unary first => rw [map, image _ _ first]
  | binary first second => rw [map, image _ _ first, image _ _ second]

/-- The inputs are the same if each of them is kept, and only then. -/
theorem Rel.inputs_eq_iff_kept {related : ν → ν → Prop} {kept : ν → Prop} {t u : Term α ν}
    (rel : Rel related t u) (same : ∀ a b, related a b → (b = a ↔ kept a)) :
    u.inputs = t.inputs ↔ ∀ a ∈ t.inputs, kept a := by
  cases rel with
  | axis => simp [inputs]
  | const => simp [inputs]
  | unary first => simp [inputs, same _ _ first]
  | binary first second => simp [inputs, same _ _ first, same _ _ second]

theorem eq_const_of_const? {t : Term α ν} {c : α} (found : t.const? = some c) : t = .const c := by
  cases t with
  | axis a => cases found
  | const d =>
      cases found
      rfl
  | unary op a => cases found
  | binary op a b => cases found

theorem axis?_of_operator {t : Term α ν} (operator : t.operator?.isSome = true) :
    t.axis? = none := by
  cases t with
  | axis a => cases operator
  | const c => rfl
  | unary op a => rfl
  | binary op a b => rfl

theorem Rel.axis?_of_operator {related : ν → μ → Prop} {t : Term α ν} {u : Term α μ}
    (rel : Rel related t u) (operator : t.operator?.isSome = true) : u.axis? = none := by
  cases rel with
  | axis => cases operator
  | const => rfl
  | unary _ => rfl
  | binary _ _ => rfl

theorem map?_congr {f g : ν → Option μ} {t : Term α ν} (same : ∀ a ∈ t.inputs, f a = g a) :
    t.map? f = t.map? g := by
  cases t with
  | axis a => rfl
  | const c => rfl
  | unary op a => simp only [map?, same a (by simp)]
  | binary op a b => simp only [map?, same a (by simp), same b (by simp)]

end Term

namespace Graph

variable {α : Type}

/-- A graph lies below another one that holds each of its nodes with the same term. -/
instance : Preorder (Graph α) where
  le g h := ∀ n t, g.term? n = some t → h.term? n = some t
  le_refl _ _ _ found := found
  le_trans _ _ _ first second n t found := second n t (first n t found)

theorem term?_of_le {g h : Graph α} (grown : g ≤ h) {n : Nat} {t : Term α Nat}
    (found : g.term? n = some t) : h.term? n = some t :=
  grown n t found

theorem ext_term? {g h : Graph α} (same : ∀ n, g.term? n = h.term? n) : g = h := by
  obtain ⟨terms, acyclic⟩ := g
  obtain ⟨terms', acyclic'⟩ := h
  have equal : terms = terms' := Array.ext_getElem? same
  subst equal
  rfl

theorem exists_term?_of_lt_size {g : Graph α} {n : Nat} (inside : n < g.size) :
    ∃ t, g.term? n = some t := by
  cases found : g.term? n with
  | none => exact absurd ((g.term?_eq_none_iff n).mp found) (by omega)
  | some t => exact ⟨t, rfl⟩

theorem size_le_of_le {g h : Graph α} (grown : g ≤ h) : g.size ≤ h.size := by
  by_contra smaller
  obtain ⟨t, found⟩ := exists_term?_of_lt_size (g := g) (n := h.size) (by omega)
  have kept := lt_size_of_term? (term?_of_le grown found)
  omega

theorem term?_eq_of_le {g h : Graph α} (grown : g ≤ h) {n : Nat} (inside : n < g.size) :
    h.term? n = g.term? n := by
  obtain ⟨t, found⟩ := exists_term?_of_lt_size inside
  rw [found, term?_of_le grown found]

theorem le_push (g : Graph α) (t : Term α Nat) (fits : t.Fits g.size) : g ≤ g.push t fits := by
  intro n u found
  have inside := lt_size_of_term? found
  rw [term?_push, if_neg (by omega), found]

theorem term?_push_self (g : Graph α) (t : Term α Nat) (fits : t.Fits g.size) :
    (g.push t fits).term? g.size = some t := by
  rw [term?_push, if_pos rfl]

theorem le_pushConst (g : Graph α) (c : α) : g ≤ g.pushConst c :=
  g.le_push (.const c) (Term.const_fits c g.size)

theorem term?_pushConst_self (g : Graph α) (c : α) :
    (g.pushConst c).term? g.size = some (.const c) :=
  g.term?_push_self (.const c) (Term.const_fits c g.size)

theorem fits_mono {t : Term α Nat} {m n : Nat} (fits : t.Fits m) (smaller : m ≤ n) : t.Fits n :=
  fun a member => Nat.lt_of_lt_of_le (fits a member) smaller

def Uses (g : Graph α) (n a : Nat) : Prop := ∃ t, g.term? n = some t ∧ a ∈ t.inputs

/-- The second node is the first one or lies below it. -/
def Reaches (g : Graph α) : Nat → Nat → Prop := Relation.ReflTransGen g.Uses

theorem Uses.lt {g : Graph α} {n a : Nat} (used : g.Uses n a) : a < n := by
  obtain ⟨t, found, member⟩ := used
  exact lt_of_mem_inputs found member

theorem Reaches.le {g : Graph α} {n k : Nat} (reached : g.Reaches n k) : k ≤ n := by
  induction reached with
  | refl => exact Nat.le_refl n
  | tail _ used ih => exact Nat.le_trans (Nat.le_of_lt used.lt) ih

theorem Reaches.lt_size {g : Graph α} {n k : Nat} (reached : g.Reaches n k)
    (inside : n < g.size) : k < g.size :=
  Nat.lt_of_le_of_lt reached.le inside

theorem reaches_input {g : Graph α} {n a : Nat} {t : Term α Nat} (found : g.term? n = some t)
    (member : a ∈ t.inputs) : g.Reaches n a :=
  .single ⟨t, found, member⟩

theorem reaches_iff {g : Graph α} {n k : Nat} {t : Term α Nat} (found : g.term? n = some t) :
    g.Reaches n k ↔ k = n ∨ ∃ a ∈ t.inputs, g.Reaches a k := by
  constructor
  · intro reached
    rcases Relation.ReflTransGen.cases_head reached with same | ⟨a, ⟨u, stored, member⟩, rest⟩
    · exact .inl same.symm
    · rw [found] at stored
      cases stored
      exact .inr ⟨a, member, rest⟩
  · rintro (rfl | ⟨a, member, rest⟩)
    · exact .refl
    · exact .head ⟨t, found, member⟩ rest

/-- Nodes that are appended are not reached from older ones. -/
theorem reaches_iff_of_le {g h : Graph α} (grown : g ≤ h) {n k : Nat} (inside : n < g.size) :
    h.Reaches n k ↔ g.Reaches n k := by
  constructor
  · intro reached
    induction reached with
    | refl => exact .refl
    | @tail m a _ used ih =>
        obtain ⟨t, found, member⟩ := used
        rw [term?_eq_of_le grown (ih.lt_size inside)] at found
        exact ih.tail ⟨t, found, member⟩
  · intro reached
    exact Relation.ReflTransGen.mono (fun _ _ ⟨t, found, member⟩ =>
      ⟨t, term?_of_le grown found, member⟩) _ _ reached

def operators (g : Graph α) (root : Nat) : Set Nat :=
  {n | g.Reaches root n ∧ ∃ t, g.term? n = some t ∧ t.operator?.isSome = true}

def AxesBelow (g : Graph α) (n : Nat) (good : Nat → Axis → Prop) : Prop :=
  ∀ (k : Nat) (a : Axis), g.Reaches n k → g.term? k = some (.axis a) → good k a

theorem axesBelow_of_le {g h : Graph α} {good : Nat → Axis → Prop} (grown : g ≤ h) {n : Nat}
    (inside : n < g.size) (axes : g.AxesBelow n good) : h.AxesBelow n good := by
  intro k a reached kind
  rw [reaches_iff_of_le grown inside] at reached
  rw [term?_eq_of_le grown (reached.lt_size inside)] at kind
  exact axes k a reached kind

theorem axesBelow_of_term? {g : Graph α} {good : Nat → Axis → Prop} {n : Nat} {t : Term α Nat}
    (stored : g.term? n = some t) (operator : t.axis? = none)
    (inputs : ∀ a ∈ t.inputs, g.AxesBelow a good) : g.AxesBelow n good := by
  intro k a reached kind
  rcases (reaches_iff stored).mp reached with rfl | ⟨b, input, below⟩
  · rw [stored] at kind
    cases kind
    cases operator
  · exact inputs b input k a below kind

end Graph

end SurfaceTape

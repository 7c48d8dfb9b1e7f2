import SurfaceTape.Proofs.CodeLayout
import SurfaceTape.Proofs.Rewriting
import SurfaceTape.Scalar.Binary

/-!
# Constant expressions are worked out

An operator over constants is worked out before any identity is looked at. So an expression without
axes is worked out node by node, in the arithmetic in which it is evaluated, and what is left is one
constant. No identity has a part in it, and no law of arithmetic is assumed: an infinity times zero
stays what the arithmetic makes of it.
-/

set_option autoImplicit false

namespace SurfaceTape

namespace Tape

variable {β : Type}

def ofConstant (c : β) : Tape β where
  code := [⟨Opcode.const.byte, 0, 0, 0⟩]
  constants := [c]
  slotCount := Axis.slotCount

end Tape

namespace Graph

variable {α β : Type}

def AxisFree (g : Graph α) (n : Nat) : Prop := ∀ k a, g.Reaches n k → g.term? k ≠ some (.axis a)

private theorem reduce_of_constant [Scalar α] {g : Graph α} {t : Term α Nat} {c : α}
    (applied : g.reduct? t = some (.constant c)) (kept : Option Nat) :
    g.reduce reduceDepth t kept = (some g.size, g.pushConst c) := by
  simp only [reduceDepth, reduce, applied]

private theorem postOrder_of_const {g : Graph α} {n : Nat} {c : α}
    (stored : g.term? n = some (.const c)) :
    g.postOrder n = .ok [⟨n, .const c⟩] := by
  rw [postOrder_eq_search (lt_size_of_term? stored), search_of_fresh (by simp) stored]
  rfl

/-- The tape of a constant loads it into the first free slot, which is the first slot. -/
theorem lower_of_const [Sample β] [Narrow α β] {g : Graph α} {n : Nat} {c : α}
    (stored : g.term? n = some (.const c)) :
    g.lower n = .ok (Tape.ofConstant (Narrow.narrow c : β)) := by
  have listed := postOrder_of_const stored
  have ordered := (Ordered.of_postOrder listed).2
  have pool : (Plan.ofEntries [⟨n, .const c⟩] : Plan β).pool = [Narrow.narrow c] := rfl
  have chosen : Lowering.fields (.ofEntries [⟨n, .const c⟩] : Plan β)
      (Lowering.start [⟨n, (.const c : Term α Nat)⟩]).table (.const c) =
        .ok (some (.const, 0, 0)) := by
    simp [Lowering.fields, pool, Plan.poolIndex]
  rw [lower_eq_lowerEntries stored rfl listed, Lowering.lowerEntries, Plan.make_of_ordered ordered]
  dsimp only
  rw [← Lowering.start, List.zipIdx_cons, List.zipIdx_nil, Lowering.layOut,
    Lowering.assign_of_fields 0 chosen]
  rfl

end Graph

namespace Build

variable {α : Type} [Scalar α]

def Folded (g h : Graph α) (n r : Nat) : Prop :=
  ∃ c, h.term? r = some (.const c) ∧ ∀ p, g.value? (.atPoint id p) n = some c

theorem Folded.grow {g h h' : Graph α} {n r : Nat} (grown : h ≤ h') (folded : Folded g h n r) :
    Folded g h' n r := by
  obtain ⟨c, stored, value⟩ := folded
  exact ⟨c, Graph.term?_of_le grown stored, value⟩

private theorem simplifyTerm_of_constant {g : Graph α} {n : Nat} {before after : Term α Nat} {c : α}
    (operator : before.operator?.isSome = true) (applied : g.reduct? after = some (.constant c)) :
    simplifyTerm n before after g = .ok g.size (g.pushConst c) :=
  simplifyTerm_of_reduced operator (Graph.reduce_of_constant applied _)

/-- An operator whose inputs are folded is folded: the rule for constants is the first one. -/
theorem simplifyTerm_folded {g h : Graph α} {n : Nat} {before after : Term α Nat} (grown : g ≤ h)
    (stored : g.term? n = some before) (axisFree : before.axis? = none)
    (rel : Term.Rel (Folded g h) before after) :
    ∃ r h', simplifyTerm n before after h = .ok r h' ∧ h ≤ h' ∧ Folded g h' n r := by
  cases rel with
  | axis => cases axisFree
  | @const c =>
      exact ⟨n, h, simplifyTerm_leaf rfl, le_rfl, c, Graph.term?_of_le grown stored,
        fun p => Graph.value?_of_term? stored⟩
  | @unary op a a' first =>
      obtain ⟨c, constant, value⟩ := first
      have applied : h.reduct? (.unary op a') = some (.constant (Arith.unary op c)) := by
        simp only [Graph.reduct?, Graph.const?_of_term? constant]
      refine ⟨h.size, _, simplifyTerm_of_constant rfl applied, h.le_pushConst _, _,
        h.term?_pushConst_self _, fun p => ?_⟩
      rw [Graph.value?_of_term? stored, Graph.termValue?_unary (value p)]
      rfl
  | @binary op a b a' b' first second =>
      obtain ⟨c, constant, value⟩ := first
      obtain ⟨d, constant', value'⟩ := second
      have applied : h.reduct? (.binary op a' b') = some (.constant (Arith.binary op c d)) := by
        simp only [Graph.reduct?, Graph.const?_of_term? constant, Graph.const?_of_term? constant']
      refine ⟨h.size, _, simplifyTerm_of_constant rfl applied, h.le_pushConst _, _,
        h.term?_pushConst_self _, fun p => ?_⟩
      rw [Graph.value?_of_term? stored, Graph.termValue?_binary (value p) (value' p)]
      rfl

theorem simplify_folded {g : Graph α} {root : Nat} (inside : root < g.size)
    (axisFree : g.AxisFree root) : ∃ out h, simplify root g = .ok out h ∧ Folded g h root out := by
  obtain ⟨entries, listed, ordered⟩ := Graph.exists_postOrder inside
  obtain ⟨out, h, ran, _, folded⟩ := foldEntries_induct ordered (Folded g) Folded.grow (by
    intro h n before after grown stored reached rel
    refine simplifyTerm_folded grown stored ?_ rel
    cases kind : before.axis? with
    | none => rfl
    | some a => exact absurd (Term.eq_axis_of_axis? kind ▸ stored) (axisFree n a reached))
  refine ⟨out, h, ?_, folded⟩
  rw [simplify, fold, listed]
  exact ran

/-- An expression without axes is simplified to one constant, the value to which it evaluates at
every point. The tape of that constant is a single load. -/
theorem simplify_folds_completely {β : Type} [Sample β] [Narrow α β] {g : Graph α} {root : Nat}
    (inside : root < g.size) (axisFree : g.AxisFree root) :
    ∃ out h c, simplify root g = .ok out h ∧ h.term? out = some (.const c) ∧
      (∀ p, g.evalAt p root = .ok c) ∧
      h.lower out = .ok (Tape.ofConstant (Narrow.narrow c : β)) := by
  obtain ⟨out, h, ran, c, stored, value⟩ := simplify_folded inside axisFree
  exact ⟨out, h, c, ran, stored, fun p => Graph.eval_of_value? (value p),
    Graph.lower_of_const stored⟩

/-- The expression `(1 / 0) * 0`. A rule for products with zero would make it zero. -/
def infinityTimesZero : Graph Float where
  terms := #[.const 1, .const 0, .binary .div 0 1, .binary .mul 2 1]
  acyclic := by decide

private theorem axisFree_infinityTimesZero : infinityTimesZero.AxisFree 3 := by
  intro k a _ axis
  rcases k with _ | _ | _ | _ | k <;> cases axis

private theorem value?_infinityTimesZero (p : Point Float) :
    infinityTimesZero.value? (.atPoint id p) 3 = some ((1 / 0) * 0) := by
  have one : infinityTimesZero.value? (.atPoint id p) 0 = some 1 :=
    Graph.value?_of_term? (t := .const 1) rfl
  have zero : infinityTimesZero.value? (.atPoint id p) 1 = some 0 :=
    Graph.value?_of_term? (t := .const 0) rfl
  have quotient : infinityTimesZero.value? (.atPoint id p) 2 = some (1 / 0) :=
    (Graph.value?_of_term? (t := .binary .div 0 1) rfl).trans (Graph.termValue?_binary one zero)
  exact (Graph.value?_of_term? (t := .binary .mul 2 1) rfl).trans
    (Graph.termValue?_binary quotient zero)

theorem simplify_infinityTimesZero_folds_completely :
    3 < infinityTimesZero.size ∧ infinityTimesZero.AxisFree 3 ∧
      ∃ out h, ∃ c : Float, simplify 3 infinityTimesZero = .ok out h ∧
        h.term? out = some (.const c) ∧ c.isNaN = true ∧
        (∀ p, infinityTimesZero.evalAt p 3 = .ok c) ∧
        h.lower out = .ok (Tape.ofConstant c.toFloat32) := by
  have inside : 3 < infinityTimesZero.size := by decide
  obtain ⟨out, h, c, ran, stored, evaluates, lowered⟩ :=
    simplify_folds_completely (β := Float32) inside axisFree_infinityTimesZero
  have value : c = (1 / 0) * 0 := by
    have computed := Graph.eval_of_value? (value?_infinityTimesZero ⟨0, 0, 0, 0⟩)
    exact Except.ok.inj ((evaluates _).symm.trans computed)
  have undefined : c.isNaN = true := by
    rw [value]
    decide +kernel
  exact ⟨inside, axisFree_infinityTimesZero, out, h, c, ran, stored, undefined, evaluates, lowered⟩

end Build

end SurfaceTape

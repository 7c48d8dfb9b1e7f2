import SurfaceTape.Proofs.Rewriting
import Mathlib.Algebra.Field.Rat

/-!
# Simplification is sound algebra

The rules of simplification read over a field. Rounding is left out of the picture: what is shown is
that each rule is an identity of fields wherever the term that it replaces divides by no zero, and
that its replacement divides by no zero either. The functions that are not field operations may be
any; only the cosine has to be even.
-/

set_option autoImplicit false

namespace SurfaceTape

/-- A scalar type whose arithmetic is that of a field. Sine, exponential, square root, minimum and
maximum are left open, and so is what a division by zero gives. -/
class FieldScalar (K : Type) [Field K] extends Scalar K where
  zero_eq : zero = (0 : K)
  one_eq : one = (1 : K)
  negOne_eq : negOne = (-1 : K)
  same_iff : ∀ {a b : K}, same a b = true ↔ a = b
  neg_eq : ∀ a : K, unary .neg a = -a
  cos_neg : ∀ a : K, unary .cos (-a) = unary .cos a
  add_eq : ∀ a b : K, binary .add a b = a + b
  sub_eq : ∀ a b : K, binary .sub a b = a - b
  mul_eq : ∀ a b : K, binary .mul a b = a * b
  div_eq : ∀ {a b : K}, b ≠ 0 → binary .div a b = a / b

namespace Graph

variable {K : Type} [Field K] [FieldScalar K]

abbrev valueAt? (g : Graph K) (p : Point K) (n : Nat) : Option K := g.value? (.atPoint id p) n

abbrev termValueAt? (g : Graph K) (p : Point K) (t : Term K Nat) : Option K :=
  g.termValue? (.atPoint id p) t

/-- No quotient at the node or below it has a divisor that is zero at the point. -/
def DividesSafely (g : Graph K) (p : Point K) (root : Nat) : Prop :=
  ∀ n a b : Nat, g.Reaches root n → g.term? n = some (.binary .div a b) → g.valueAt? p b ≠ some 0

/-- The same for a term over nodes. The term itself need not be stored. -/
structure TermDividesSafely (g : Graph K) (p : Point K) (t : Term K Nat) : Prop where
  inputs : ∀ a ∈ t.inputs, g.DividesSafely p a
  divisor : ∀ a b : Nat, t = .binary .div a b → g.valueAt? p b ≠ some 0

def reductValue? (g : Graph K) (p : Point K) : Reduct K → Option K
  | .node n => g.valueAt? p n
  | .constant c => some c
  | .term t => g.termValueAt? p t
  | .negatedSum a b => (g.termValueAt? p (.binary .add a b)).map fun sum => -sum
  | .scaled a c => (g.valueAt? p a).map fun v => v * c

private theorem valueAt?_const {g : Graph K} {p : Point K} {n : Nat} {c : K}
    (stored : g.term? n = some (.const c)) : g.valueAt? p n = some c := by
  rw [valueAt?, value?_of_term? stored]
  rfl

private theorem valueAt?_of_isConst {g : Graph K} {p : Point K} {n : Nat} {c : K}
    (same : g.isConst n c = true) : g.valueAt? p n = some c := by
  obtain ⟨d, stored, equal⟩ := exists_const_of_isConst same
  rw [valueAt?_const stored, FieldScalar.same_iff.mp equal]

private theorem termValueAt?_unary {g : Graph K} {p : Point K} {op : UnaryOp} {a : Nat} {v : K}
    (value : g.valueAt? p a = some v) :
    g.termValueAt? p (.unary op a) = some (Arith.unary op v) :=
  termValue?_unary value

private theorem termValueAt?_binary {g : Graph K} {p : Point K} {op : BinaryOp} {a b : Nat}
    {v w : K} (first : g.valueAt? p a = some v) (second : g.valueAt? p b = some w) :
    g.termValueAt? p (.binary op a b) = some (Arith.binary op v w) :=
  termValue?_binary first second

theorem exists_valueAt? {g : Graph K} {n : Nat} (p : Point K) (inside : n < g.size) :
    ∃ v, g.valueAt? p n = some v :=
  exists_value? _ inside

private theorem exists_input_value {g : Graph K} {n a : Nat} {t : Term K Nat} (p : Point K)
    (stored : g.term? n = some t) (input : a ∈ t.inputs) : ∃ v, g.valueAt? p a = some v :=
  exists_valueAt? p (Nat.lt_trans (lt_of_mem_inputs stored input) (lt_size_of_term? stored))

private theorem exists_negand_value {g : Graph K} {n a : Nat} (p : Point K)
    (stored : g.term? n = some (.unary .neg a)) :
    ∃ v, g.valueAt? p a = some v ∧ g.valueAt? p n = some (-v) := by
  obtain ⟨v, value⟩ := exists_input_value p stored (Term.mem_inputs_unary.mpr rfl)
  refine ⟨v, value, ?_⟩
  rw [valueAt?, value?_of_term? stored, termValue?_unary value]
  exact congrArg some (FieldScalar.neg_eq v)

/-- Each rule is an identity of the field, as long as the replaced term divides by no zero. -/
theorem Rule.value {g : Graph K} {p : Point K} {t : Term K Nat} {r : Reduct K} (rule : g.Rule t r)
    (fits : t.Fits g.size) (safe : g.TermDividesSafely p t) :
    g.reductValue? p r = g.termValueAt? p t := by
  have input : ∀ a ∈ t.inputs, ∃ v, g.valueAt? p a = some v :=
    fun a member => exists_valueAt? p (fits a member)
  cases rule with
  | foldUnary stored =>
      rw [termValueAt?_unary (valueAt?_const stored), reductValue?]
  | foldBinary first second =>
      rw [termValueAt?_binary (valueAt?_const first) (valueAt?_const second), reductValue?]
  | negNeg stored =>
      obtain ⟨v, below, value⟩ := exists_negand_value p stored
      rw [termValueAt?_unary value, FieldScalar.neg_eq, neg_neg, reductValue?, below]
  | @negSub a x y stored =>
      obtain ⟨v, first⟩ := exists_input_value p stored (Term.mem_inputs_binary.mpr (.inl rfl))
      obtain ⟨w, second⟩ := exists_input_value p stored (Term.mem_inputs_binary.mpr (.inr rfl))
      have value : g.valueAt? p a = some (v - w) := by
        rw [valueAt?, value?_of_term? stored]
        exact (termValueAt?_binary first second).trans (congrArg some (FieldScalar.sub_eq v w))
      rw [termValueAt?_unary value, reductValue?, termValueAt?_binary second first,
        FieldScalar.sub_eq, FieldScalar.neg_eq, neg_sub]
  | cosNeg stored =>
      obtain ⟨v, below, value⟩ := exists_negand_value p stored
      rw [termValueAt?_unary value, reductValue?, termValueAt?_unary below, FieldScalar.cos_neg]
  | @addZero a b zero =>
      obtain ⟨v, first⟩ := input a (by simp)
      rw [termValueAt?_binary first (valueAt?_of_isConst zero), reductValue?, first,
        FieldScalar.add_eq, FieldScalar.zero_eq, add_zero]
  | @zeroAdd a b zero =>
      obtain ⟨w, second⟩ := input b (by simp)
      rw [termValueAt?_binary (valueAt?_of_isConst zero) second, reductValue?, second,
        FieldScalar.add_eq, FieldScalar.zero_eq, zero_add]
  | addNegNeg stored stored' =>
      obtain ⟨v, below, first⟩ := exists_negand_value p stored
      obtain ⟨w, below', second⟩ := exists_negand_value p stored'
      rw [termValueAt?_binary first second, reductValue?, termValueAt?_binary below below',
        FieldScalar.add_eq, FieldScalar.add_eq, Option.map_some, neg_add]
  | @negAdd a b x stored =>
      obtain ⟨v, below, first⟩ := exists_negand_value p stored
      obtain ⟨w, second⟩ := input b (by simp)
      rw [termValueAt?_binary first second, reductValue?, termValueAt?_binary second below,
        FieldScalar.add_eq, FieldScalar.sub_eq, neg_add_eq_sub]
  | @addNeg a b y stored =>
      obtain ⟨v, first⟩ := input a (by simp)
      obtain ⟨w, below, second⟩ := exists_negand_value p stored
      rw [termValueAt?_binary first second, reductValue?, termValueAt?_binary first below,
        FieldScalar.add_eq, FieldScalar.sub_eq, sub_eq_add_neg]
  | @mulZero a b zero =>
      obtain ⟨v, first⟩ := input a (by simp)
      have second := valueAt?_of_isConst (p := p) zero
      rw [termValueAt?_binary first second, reductValue?, second, FieldScalar.mul_eq,
        FieldScalar.zero_eq, mul_zero]
  | @zeroMul a b zero =>
      have first := valueAt?_of_isConst (p := p) zero
      obtain ⟨w, second⟩ := input b (by simp)
      rw [termValueAt?_binary first second, reductValue?, first, FieldScalar.mul_eq,
        FieldScalar.zero_eq, zero_mul]
  | @mulOne a b one =>
      obtain ⟨v, first⟩ := input a (by simp)
      rw [termValueAt?_binary first (valueAt?_of_isConst one), reductValue?, first,
        FieldScalar.mul_eq, FieldScalar.one_eq, mul_one]
  | @oneMul a b one =>
      obtain ⟨w, second⟩ := input b (by simp)
      rw [termValueAt?_binary (valueAt?_of_isConst one) second, reductValue?, second,
        FieldScalar.mul_eq, FieldScalar.one_eq, one_mul]
  | @mulNegOne a b negOne =>
      obtain ⟨v, first⟩ := input a (by simp)
      rw [termValueAt?_binary first (valueAt?_of_isConst negOne), reductValue?,
        termValueAt?_unary first, FieldScalar.mul_eq, FieldScalar.negOne_eq, FieldScalar.neg_eq,
        mul_neg_one]
  | @negOneMul a b negOne =>
      obtain ⟨w, second⟩ := input b (by simp)
      rw [termValueAt?_binary (valueAt?_of_isConst negOne) second, reductValue?,
        termValueAt?_unary second, FieldScalar.mul_eq, FieldScalar.negOne_eq, FieldScalar.neg_eq,
        neg_one_mul]
  | mulNegNeg stored stored' =>
      obtain ⟨v, below, first⟩ := exists_negand_value p stored
      obtain ⟨w, below', second⟩ := exists_negand_value p stored'
      rw [termValueAt?_binary first second, reductValue?, termValueAt?_binary below below',
        FieldScalar.mul_eq, FieldScalar.mul_eq, neg_mul_neg]
  | @zeroSub a b zero =>
      obtain ⟨w, second⟩ := input b (by simp)
      rw [termValueAt?_binary (valueAt?_of_isConst zero) second, reductValue?,
        termValueAt?_unary second, FieldScalar.sub_eq, FieldScalar.zero_eq, FieldScalar.neg_eq,
        zero_sub]
  | @subZero a b zero =>
      obtain ⟨v, first⟩ := input a (by simp)
      rw [termValueAt?_binary first (valueAt?_of_isConst zero), reductValue?, first,
        FieldScalar.sub_eq, FieldScalar.zero_eq, sub_zero]
  | @subNeg a b y stored =>
      obtain ⟨v, first⟩ := input a (by simp)
      obtain ⟨w, below, second⟩ := exists_negand_value p stored
      rw [termValueAt?_binary first second, reductValue?, termValueAt?_binary first below,
        FieldScalar.add_eq, FieldScalar.sub_eq, sub_neg_eq_add]
  | @zeroDiv a b zero =>
      have first := valueAt?_of_isConst (p := p) zero
      obtain ⟨w, second⟩ := input b (by simp)
      have nonzero : w ≠ 0 := fun isZero => safe.divisor _ _ rfl (isZero ▸ second)
      rw [termValueAt?_binary first second, reductValue?, first, FieldScalar.div_eq nonzero,
        FieldScalar.zero_eq, zero_div]
  | @divOne a b one =>
      obtain ⟨v, first⟩ := input a (by simp)
      rw [termValueAt?_binary first (valueAt?_of_isConst one), reductValue?, first,
        FieldScalar.one_eq, FieldScalar.div_eq one_ne_zero, div_one]
  | @divNegOne a b negOne =>
      obtain ⟨v, first⟩ := input a (by simp)
      rw [termValueAt?_binary first (valueAt?_of_isConst negOne), reductValue?,
        termValueAt?_unary first, FieldScalar.negOne_eq,
        FieldScalar.div_eq (neg_ne_zero.mpr one_ne_zero), FieldScalar.neg_eq, div_neg, div_one]
  | @divConst a b c stored notSame =>
      obtain ⟨v, first⟩ := input a (by simp)
      have nonzero : c ≠ 0 := by
        rintro rfl
        rw [FieldScalar.zero_eq, FieldScalar.same_iff.mpr rfl] at notSame
        cases notSame
      rw [termValueAt?_binary first (valueAt?_const stored), reductValue?, first,
        FieldScalar.div_eq nonzero, FieldScalar.div_eq nonzero, FieldScalar.one_eq,
        Option.map_some, mul_one_div]
  | divNegNeg stored stored' =>
      obtain ⟨v, below, first⟩ := exists_negand_value p stored
      obtain ⟨w, below', second⟩ := exists_negand_value p stored'
      have nonzero : w ≠ 0 := by
        rintro rfl
        exact safe.divisor _ _ rfl (by rw [second, neg_zero])
      rw [termValueAt?_binary first second, reductValue?, termValueAt?_binary below below',
        FieldScalar.div_eq nonzero, FieldScalar.div_eq (neg_ne_zero.mpr nonzero), neg_div_neg_eq]

/-! Safety of division, for nodes and terms, in a graph that grows. -/

theorem DividesSafely.of_reaches {g : Graph K} {p : Point K} {n k : Nat}
    (safe : g.DividesSafely p n) (reached : g.Reaches n k) : g.DividesSafely p k :=
  fun m a b below stored => safe m a b (reached.trans below) stored

theorem dividesSafely_of_le {g h : Graph K} {p : Point K} (grown : g ≤ h) {n : Nat}
    (inside : n < g.size) (safe : g.DividesSafely p n) : h.DividesSafely p n := by
  intro k a b reached stored
  rw [reaches_iff_of_le grown inside] at reached
  have insideBelow := reached.lt_size inside
  rw [term?_eq_of_le grown insideBelow] at stored
  have insideDivisor : b < g.size :=
    Nat.lt_trans (lt_of_mem_inputs stored (Term.mem_inputs_binary.mpr (.inr rfl))) insideBelow
  rw [valueAt?, value?_of_le grown _ insideDivisor]
  exact safe k a b reached stored

theorem termDividesSafely_of_le {g h : Graph K} {p : Point K} (grown : g ≤ h) {t : Term K Nat}
    (fits : t.Fits g.size) (safe : g.TermDividesSafely p t) : h.TermDividesSafely p t := by
  refine ⟨fun a input => dividesSafely_of_le grown (fits a input) (safe.inputs a input), ?_⟩
  rintro a b rfl
  rw [valueAt?, value?_of_le grown _ (fits b (Term.mem_inputs_binary.mpr (.inr rfl)))]
  exact safe.divisor _ _ rfl

theorem dividesSafely_of_term? {g : Graph K} {p : Point K} {n : Nat} {t : Term K Nat}
    (stored : g.term? n = some t) (safe : g.TermDividesSafely p t) : g.DividesSafely p n := by
  intro k a b reached kind
  rcases (reaches_iff stored).mp reached with rfl | ⟨c, input, below⟩
  · rw [stored] at kind
    exact safe.divisor a b (Option.some.inj kind)
  · exact safe.inputs c input k a b below kind

theorem DividesSafely.term {g : Graph K} {p : Point K} {n : Nat} {t : Term K Nat}
    (safe : g.DividesSafely p n) (stored : g.term? n = some t) : g.TermDividesSafely p t := by
  refine ⟨fun a input => safe.of_reaches (reaches_input stored input), ?_⟩
  rintro a b rfl
  exact safe n a b .refl stored

private theorem dividesSafely_const {g : Graph K} {p : Point K} {n : Nat} {c : K}
    (stored : g.term? n = some (.const c)) : g.DividesSafely p n :=
  dividesSafely_of_term? stored ⟨nofun, nofun⟩

theorem Rule.dividesSafely {g : Graph K} {p : Point K} {t : Term K Nat} {r : Reduct K}
    (rule : g.Rule t r) (safe : g.TermDividesSafely p t) {n : Nat} (member : n ∈ r.nodes) :
    g.DividesSafely p n := by
  obtain ⟨a, input, reached⟩ := rule.exists_reaches member
  exact (safe.inputs a input).of_reaches reached

theorem Rule.termDividesSafely {g : Graph K} {p : Point K} {t u : Term K Nat}
    (rule : g.Rule t (.term u)) (safe : g.TermDividesSafely p t) : g.TermDividesSafely p u := by
  refine ⟨fun a input => rule.dividesSafely safe input, ?_⟩
  rintro x y rfl
  -- Only one rule leads to a quotient: it takes the sign off numerator and divisor.
  cases rule with
  | divNegNeg stored stored' =>
      obtain ⟨w, below, value⟩ := exists_negand_value p stored'
      intro zero
      rw [below] at zero
      cases zero
      exact safe.divisor _ _ rfl (by rw [value, neg_zero])

structure KeepsValue (g : Graph K) (p : Point K) (t : Term K Nat) (h : Graph K) (n : Nat) :
    Prop where
  value : h.valueAt? p n = g.termValueAt? p t
  safe : h.DividesSafely p n

private theorem keepsValue_of_term? {g h : Graph K} {p : Point K} {t : Term K Nat} {n : Nat}
    (grown : g ≤ h) (fits : t.Fits g.size) (safe : g.TermDividesSafely p t)
    (stored : h.term? n = some t) :
    KeepsValue g p t h n := by
  constructor
  · rw [valueAt?, value?_of_term? stored]
    exact termValue?_of_le grown _ fits
  · exact dividesSafely_of_term? stored (termDividesSafely_of_le grown fits safe)

theorem Reduces.keepsValue {g h : Graph K} {p : Point K} {t : Term K Nat} {kept : Option Nat}
    {n : Nat} (reduces : Reduces g t kept n h) (fits : t.Fits g.size)
    (safe : g.TermDividesSafely p t) (keeps : ∀ m, kept = some m → g.term? m = some t) :
    KeepsValue g p t h n := by
  induction reduces with
  | kept _ => exact keepsValue_of_term? le_rfl fits safe (keeps _ rfl)
  | @append g t inside _ =>
      exact keepsValue_of_term? (g.le_push t inside) fits safe (g.term?_push_self t inside)
  | node applied =>
      have rule := rule_of_reduct? applied
      exact ⟨rule.value fits safe, rule.dividesSafely safe List.mem_cons_self⟩
  | @constant g t kept c applied =>
      have stored := g.term?_pushConst_self c
      have rule := rule_of_reduct? applied
      exact ⟨(valueAt?_const stored).trans (rule.value fits safe), dividesSafely_const stored⟩
  | term applied _ ih =>
      have rule := rule_of_reduct? applied
      have keepsReplaced := ih (fun a input => rule.lt_size fits input)
        (rule.termDividesSafely safe) nofun
      exact ⟨keepsReplaced.value.trans (rule.value fits safe), keepsReplaced.safe⟩
  | @negatedSum g h k t kept a b sum n applied reducesSum _ sumIH negIH =>
      have rule := rule_of_reduct? applied
      have sumFits : (Term.binary .add a b : Term K Nat).Fits g.size :=
        fun c input => rule.lt_size fits input
      have sumSafe : g.TermDividesSafely p (.binary .add a b) :=
        ⟨fun c input => rule.dividesSafely safe input, nofun⟩
      have sumKeeps := sumIH sumFits sumSafe nofun
      have sumInside := (reducesSum.replaces sumFits rfl nofun).inside
      have negKeeps := negIH (Term.fits_unary.mpr sumInside)
        ⟨fun c input => by rw [Term.mem_inputs_unary.mp input]; exact sumKeeps.safe,
          nofun⟩ nofun
      refine ⟨?_, negKeeps.safe⟩
      obtain ⟨v, first⟩ := exists_valueAt? p (sumFits a (by simp))
      obtain ⟨w, second⟩ := exists_valueAt? p (sumFits b (by simp))
      have sumValue : h.valueAt? p sum = some (Arith.binary .add v w) :=
        sumKeeps.value.trans (termValueAt?_binary first second)
      calc k.valueAt? p n
        _ = h.termValueAt? p (.unary .neg sum) := negKeeps.value
        _ = some (-Arith.binary .add v w) := by
            rw [termValueAt?_unary sumValue, FieldScalar.neg_eq]
        _ = g.reductValue? p (.negatedSum a b) := by
            rw [reductValue?, termValueAt?_binary first second, Option.map_some]
        _ = g.termValueAt? p t := rule.value fits safe
  | @scaled g h t kept a n c applied reducesProduct ih =>
      have rule := rule_of_reduct? applied
      have inside := rule.lt_size fits List.mem_cons_self
      have stored := g.term?_pushConst_self c
      have pushed := g.le_pushConst c
      have productSafe : (g.pushConst c).TermDividesSafely p (.binary .mul a g.size) := by
        refine ⟨?_, nofun⟩
        intro b input
        rcases Term.mem_inputs_binary.mp input with rfl | rfl
        · exact dividesSafely_of_le pushed inside (rule.dividesSafely safe List.mem_cons_self)
        · exact dividesSafely_const stored
      have productKeeps := ih (fits_scaled inside c) productSafe nofun
      refine ⟨?_, productKeeps.safe⟩
      obtain ⟨v, first⟩ := exists_valueAt? p inside
      have firstPushed : (g.pushConst c).valueAt? p a = some v :=
        (value?_of_le pushed _ inside).trans first
      calc h.valueAt? p n
        _ = (g.pushConst c).termValueAt? p (.binary .mul a g.size) := productKeeps.value
        _ = some (v * c) := by
            rw [termValueAt?_binary firstPushed (valueAt?_const stored), FieldScalar.mul_eq]
        _ = g.reductValue? p (.scaled a c) := by rw [reductValue?, first, Option.map_some]
        _ = g.termValueAt? p t := rule.value fits safe

theorem Simplified.keepsValue {g h : Graph K} {p : Point K} {t : Term K Nat} {n : Nat}
    (simplified : Simplified g t h n) (fits : t.Fits g.size) (safe : g.TermDividesSafely p t) :
    KeepsValue g p t h n := by
  cases simplified with
  | derived keeps reduces => exact reduces.keepsValue fits safe keeps
  | @appended k inside grown =>
      exact keepsValue_of_term? (grown.trans (k.le_push t inside)) fits safe
        (k.term?_push_self t inside)

theorem termDividesSafely_of_rel {g h : Graph K} {p : Point K} {t u : Term K Nat}
    (rel : Term.Rel (fun a b => h.DividesSafely p b ∧ h.valueAt? p b = g.valueAt? p a) t u)
    (safe : g.TermDividesSafely p t) : h.TermDividesSafely p u := by
  constructor
  · intro b input
    obtain ⟨_, _, safeInput, _⟩ := rel.exists_of_mem_inputs input
    exact safeInput
  · rintro c d rfl
    cases rel with
    | binary _ second =>
        rw [second.2]
        exact safe.divisor _ _ rfl

end Graph

namespace Build

variable {K : Type} [Field K] [FieldScalar K]

structure KeepsMeaning (g : Graph K) (p : Point K) (h : Graph K) (n r : Nat) : Prop where
  inside : r < h.size
  safe : h.DividesSafely p r
  value : h.valueAt? p r = g.valueAt? p n

theorem KeepsMeaning.grow {g h h' : Graph K} {p : Point K} {n r : Nat} (grown : h ≤ h')
    (keeps : KeepsMeaning g p h n r) : KeepsMeaning g p h' n r :=
  ⟨Nat.lt_of_lt_of_le keeps.inside (Graph.size_le_of_le grown),
    Graph.dividesSafely_of_le grown keeps.inside keeps.safe,
    (Graph.value?_of_le grown _ keeps.inside).trans keeps.value⟩

theorem simplifyTerm_keepsMeaning {g h : Graph K} {p : Point K} {n : Nat}
    {before after : Term K Nat} (grown : g ≤ h) (stored : g.term? n = some before)
    (safe : g.DividesSafely p n) (rel : Term.Rel (KeepsMeaning g p h) before after) :
    ∃ r h', simplifyTerm n before after h = .ok r h' ∧ h ≤ h' ∧ KeepsMeaning g p h' n r := by
  have inside := Graph.lt_size_of_term? stored
  have found := Graph.term?_of_le grown stored
  cases kind : before.operator? with
  | none =>
      exact ⟨n, h, simplifyTerm_leaf kind, le_rfl, Graph.lt_size_of_term? found,
        Graph.dividesSafely_of_le grown inside safe, Graph.value?_of_le grown _ inside⟩
  | some op =>
      have fits := rel.fits fun _ _ keeps => keeps.inside
      have safeAfter : h.TermDividesSafely p after := Graph.termDividesSafely_of_rel
        (rel.imp fun _ _ keeps => ⟨keeps.safe, keeps.value⟩) (safe.term stored)
      obtain ⟨r, h', ran, simplified⟩ :=
        simplifyTerm_operator found (by rw [kind]; rfl) rel fits
      have replaces := simplified.replaces fits (rel.axis?_of_operator (by rw [kind]; rfl))
      have keepsValue := simplified.keepsValue fits safeAfter
      refine ⟨r, h', ran, replaces.grown, replaces.inside, keepsValue.safe, ?_⟩
      calc h'.valueAt? p r
        _ = h.termValueAt? p after := keepsValue.value
        _ = g.termValueAt? p before :=
            Graph.termValue?_of_rel (rel.imp fun _ _ keeps => keeps.value)
        _ = g.valueAt? p n := (Graph.value?_of_term? stored).symm

/-- Over a field, the simplified expression has the value of the original one at every point where
the original divides by no zero, and it divides by no zero there either. -/
theorem simplify_sound_over_field (g : Graph K) (root : Nat) (p : Point K) (inside : root < g.size)
    (safe : g.DividesSafely p root) :
    ∃ out h v, simplify root g = .ok out h ∧ g.evalAt p root = .ok v ∧ h.evalAt p out = .ok v ∧
      h.DividesSafely p out := by
  obtain ⟨entries, listed, ordered⟩ := Graph.exists_postOrder inside
  obtain ⟨out, h, ran, _, keeps⟩ := foldEntries_induct ordered (KeepsMeaning g p) KeepsMeaning.grow
    (fun grown stored reached rel =>
      simplifyTerm_keepsMeaning grown stored (safe.of_reaches reached) rel)
  obtain ⟨v, value⟩ := Graph.exists_valueAt? p inside
  refine ⟨out, h, v, ?_, Graph.eval_of_value? value,
    Graph.eval_of_value? (keeps.value.trans value), keeps.safe⟩
  rw [simplify, fold, listed]
  exact ran

/-- Rational arithmetic. The functions that leave the rationals are read as constants. -/
instance : FieldScalar ℚ where
  unary
    | .neg, a => -a
    | _, _ => 1
  binary
    | .add, a, b => a + b
    | .sub, a, b => a - b
    | .mul, a, b => a * b
    | .div, a, b => a / b
    | .min, _, _ => 1
    | .max, _, _ => 1
  zero := 0
  one := 1
  negOne := -1
  same a b := decide (a = b)
  zero_eq := rfl
  one_eq := rfl
  negOne_eq := rfl
  same_iff := decide_eq_true_iff
  neg_eq _ := rfl
  cos_neg _ := rfl
  add_eq _ _ := rfl
  sub_eq _ _ := rfl
  mul_eq _ _ := rfl
  div_eq _ := rfl

def negatedQuotient : Graph ℚ where
  terms := #[.axis .x, .axis .y, .unary .neg 0, .unary .neg 1, .binary .div 2 3]
  acyclic := by decide

theorem simplify_negatedQuotient_sound :
    4 < negatedQuotient.size ∧ negatedQuotient.DividesSafely ⟨3, 2, 0, 0⟩ 4 ∧
      ∃ out h v, simplify 4 negatedQuotient = .ok out h ∧
        negatedQuotient.evalAt ⟨3, 2, 0, 0⟩ 4 = .ok v ∧ h.evalAt ⟨3, 2, 0, 0⟩ out = .ok v ∧
          h.DividesSafely ⟨3, 2, 0, 0⟩ out := by
  have inside : 4 < negatedQuotient.size := by decide
  have safe : negatedQuotient.DividesSafely ⟨3, 2, 0, 0⟩ 4 := by
    intro n a b _ stored
    have quotient : b = 3 := by
      rcases n with _ | _ | _ | _ | _ | n <;> simp_all [Graph.term?, negatedQuotient]
    have y : negatedQuotient.valueAt? ⟨3, 2, 0, 0⟩ 1 = some 2 :=
      Graph.value?_of_term? (g := negatedQuotient) (t := .axis .y) rfl
    rw [quotient, Graph.valueAt?, Graph.value?_of_term? (t := .unary .neg 1) rfl,
      Graph.termValue?_unary y]
    decide
  exact ⟨inside, safe, simplify_sound_over_field _ _ _ inside safe⟩

end Build

end SurfaceTape

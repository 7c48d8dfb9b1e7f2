import SurfaceTape.Proofs.Rewriting

/-!
# Where something is left to simplify

The places are told by the shapes of terms alone, without the rules and without the order in which
they are tried. A rule applies exactly at these places. No law of arithmetic is assumed, and none of
the comparison of constants either.
-/

set_option autoImplicit false

namespace SurfaceTape

namespace Graph

variable {α : Type}

def IsConstant (g : Graph α) (n : Nat) : Prop := ∃ c, g.term? n = some (.const c)

def IsNegation (g : Graph α) (n : Nat) : Prop := ∃ p, g.term? n = some (.unary .neg p)

def IsDifference (g : Graph α) (n : Nat) : Prop := ∃ p q, g.term? n = some (.binary .sub p q)

theorem const?_eq_none_iff {g : Graph α} {n : Nat} : g.const? n = none ↔ ¬g.IsConstant n := by
  constructor
  · intro none constant
    obtain ⟨c, stored⟩ := constant
    simp [const?, stored, Term.const?] at none
  · intro other
    cases value : g.const? n with
    | none => rfl
    | some c => exact absurd ⟨c, term?_of_const? value⟩ other

theorem negand?_eq_none_iff {g : Graph α} {n : Nat} : g.negand? n = none ↔ ¬g.IsNegation n := by
  constructor
  · intro none negation
    obtain ⟨p, stored⟩ := negation
    simp [negand?, stored] at none
  · intro other
    cases negated : g.negand? n with
    | none => rfl
    | some p => exact absurd ⟨p, term?_of_negand? negated⟩ other

variable [Scalar α]

def IsValue (g : Graph α) (n : Nat) (v : α) : Prop :=
  ∃ c, g.term? n = some (.const c) ∧ Scalar.same c v = true

theorem IsValue.isConstant {g : Graph α} {n : Nat} {v : α} (value : g.IsValue n v) :
    g.IsConstant n := by
  obtain ⟨c, stored, _⟩ := value
  exact ⟨c, stored⟩

theorem not_isValue_of_term? {g : Graph α} {n : Nat} {c v : α}
    (stored : g.term? n = some (.const c)) (differs : Scalar.same c v = false) :
    ¬g.IsValue n v := by
  intro value
  obtain ⟨d, stored', same⟩ := value
  cases stored.symm.trans stored'
  rw [differs] at same
  cases same

theorem isConst_iff {g : Graph α} {n : Nat} {v : α} : g.isConst n v = true ↔ g.IsValue n v := by
  constructor
  · exact exists_const_of_isConst
  · intro value
    obtain ⟨c, stored, same⟩ := value
    simpa [isConst, const?, stored, Term.const?] using same

private theorem isConst_eq_false_iff {g : Graph α} {n : Nat} {v : α} :
    g.isConst n v = false ↔ ¬g.IsValue n v := by
  rw [← isConst_iff, Bool.not_eq_true]

/-- Something is left to simplify at the term: it is an operator over constants only, or it has one
of the shapes that the identities remove. -/
def Redex (g : Graph α) : Term α Nat → Prop
  | .axis _ => False
  | .const _ => False
  | .unary op a =>
      g.IsConstant a ∨
        match op with
        | .neg => g.IsNegation a ∨ g.IsDifference a
        | .cos => g.IsNegation a
        | _ => False
  | .binary op a b =>
      g.IsConstant a ∧ g.IsConstant b ∨
        match op with
        | .add =>
            g.IsValue a Scalar.zero ∨ g.IsValue b Scalar.zero ∨ g.IsNegation a ∨ g.IsNegation b
        | .sub => g.IsValue a Scalar.zero ∨ g.IsValue b Scalar.zero ∨ g.IsNegation b
        | .mul =>
            (∃ v ∈ [Scalar.zero, Scalar.one, Scalar.negOne], g.IsValue a v ∨ g.IsValue b v) ∨
              g.IsNegation a ∧ g.IsNegation b
        | .div =>
            -- One and minus one are named for scalars in which they compare as equal to zero.
            g.IsValue a Scalar.zero ∨ (g.IsConstant b ∧ ¬g.IsValue b Scalar.zero) ∨
              g.IsValue b Scalar.one ∨ g.IsValue b Scalar.negOne ∨ g.IsNegation a ∧ g.IsNegation b
        | _ => False

theorem Rule.redex {g : Graph α} {t : Term α Nat} {r : Reduct α} (rule : g.Rule t r) :
    g.Redex t := by
  cases rule with
  | foldUnary stored => exact .inl ⟨_, stored⟩
  | foldBinary first second => exact .inl ⟨⟨_, first⟩, _, second⟩
  | negNeg stored => exact .inr (.inl ⟨_, stored⟩)
  | negSub stored => exact .inr (.inr ⟨_, _, stored⟩)
  | cosNeg stored => exact .inr ⟨_, stored⟩
  | addZero zero => exact .inr (.inr (.inl (isConst_iff.mp zero)))
  | zeroAdd zero => exact .inr (.inl (isConst_iff.mp zero))
  | addNegNeg first _ => exact .inr (.inr (.inr (.inl ⟨_, first⟩)))
  | negAdd stored => exact .inr (.inr (.inr (.inl ⟨_, stored⟩)))
  | addNeg stored => exact .inr (.inr (.inr (.inr ⟨_, stored⟩)))
  | mulZero zero => exact .inr (.inl ⟨_, by simp, .inr (isConst_iff.mp zero)⟩)
  | zeroMul zero => exact .inr (.inl ⟨_, by simp, .inl (isConst_iff.mp zero)⟩)
  | mulOne one => exact .inr (.inl ⟨Scalar.one, by simp, .inr (isConst_iff.mp one)⟩)
  | oneMul one => exact .inr (.inl ⟨Scalar.one, by simp, .inl (isConst_iff.mp one)⟩)
  | mulNegOne negOne => exact .inr (.inl ⟨Scalar.negOne, by simp, .inr (isConst_iff.mp negOne)⟩)
  | negOneMul negOne => exact .inr (.inl ⟨Scalar.negOne, by simp, .inl (isConst_iff.mp negOne)⟩)
  | mulNegNeg first second => exact .inr (.inr ⟨⟨_, first⟩, _, second⟩)
  | zeroSub zero => exact .inr (.inl (isConst_iff.mp zero))
  | subZero zero => exact .inr (.inr (.inl (isConst_iff.mp zero)))
  | subNeg stored => exact .inr (.inr (.inr ⟨_, stored⟩))
  | zeroDiv zero => exact .inr (.inl (isConst_iff.mp zero))
  | divOne one => exact .inr (.inr (.inr (.inl (isConst_iff.mp one))))
  | divNegOne negOne => exact .inr (.inr (.inr (.inr (.inl (isConst_iff.mp negOne)))))
  | divConst stored nonzero =>
      exact .inr (.inr (.inl ⟨⟨_, stored⟩, not_isValue_of_term? stored nonzero⟩))
  | divNegNeg first second => exact .inr (.inr (.inr (.inr (.inr ⟨⟨_, first⟩, _, second⟩))))

/-! Conversely each of the shapes is seen by a rule. A rule that finds nothing has looked for all of
them. -/

private theorem ite_some_eq_none_iff {τ : Type} {c : Bool} {x : τ} {y : Option τ} :
    (if c = true then some x else y) = none ↔ c = false ∧ y = none := by
  cases c <;> simp

omit [Scalar α] in
private theorem negRule_eq_none_iff {g : Graph α} {a : Nat} :
    g.negRule a = none ↔ ¬(g.IsNegation a ∨ g.IsDifference a) := by
  rw [negRule, IsNegation, IsDifference]
  split <;> simp_all

omit [Scalar α] in
private theorem cosRule_eq_none_iff {g : Graph α} {a : Nat} :
    g.cosRule a = none ↔ ¬g.IsNegation a := by
  rw [cosRule, Option.map_eq_none_iff, negand?_eq_none_iff]

private theorem addRule_eq_none_iff {g : Graph α} {a b : Nat} :
    g.addRule a b = none ↔ ¬(g.IsValue a Scalar.zero ∨ g.IsValue b Scalar.zero ∨
      g.IsNegation a ∨ g.IsNegation b) := by
  simp only [addRule, ite_some_eq_none_iff, isConst_eq_false_iff, not_or, ← negand?_eq_none_iff]
  cases g.negand? a <;> cases g.negand? b <;> simp [and_comm]

private theorem subRule_eq_none_iff {g : Graph α} {a b : Nat} :
    g.subRule a b = none ↔ ¬(g.IsValue a Scalar.zero ∨ g.IsValue b Scalar.zero ∨
      g.IsNegation b) := by
  simp only [subRule, ite_some_eq_none_iff, isConst_eq_false_iff, not_or, Option.map_eq_none_iff,
    negand?_eq_none_iff]

private theorem mulRule_eq_none_iff {g : Graph α} {a b : Nat} :
    g.mulRule a b = none ↔
      ¬((∃ v ∈ [Scalar.zero, Scalar.one, Scalar.negOne], g.IsValue a v ∨ g.IsValue b v) ∨
        g.IsNegation a ∧ g.IsNegation b) := by
  simp only [mulRule, ite_some_eq_none_iff, isConst_eq_false_iff, List.mem_cons, List.not_mem_nil,
    or_false, exists_eq_or_imp, exists_eq_left, not_or, not_and_or, ← negand?_eq_none_iff]
  cases g.negand? a <;> cases g.negand? b <;> simp <;> grind

private theorem divRule_eq_none_iff {g : Graph α} {a b : Nat} :
    g.divRule a b = none ↔
      ¬(g.IsValue a Scalar.zero ∨ (g.IsConstant b ∧ ¬g.IsValue b Scalar.zero) ∨
        g.IsValue b Scalar.one ∨ g.IsValue b Scalar.negOne ∨ g.IsNegation a ∧ g.IsNegation b) := by
  simp only [divRule, ite_some_eq_none_iff, isConst_eq_false_iff]
  cases value : g.const? b with
  | none =>
      have open' := const?_eq_none_iff.mp value
      simp only [not_or, not_and_or, ← negand?_eq_none_iff]
      cases g.negand? a <;> cases g.negand? b <;> simp [open']
  | some c =>
      have stored := term?_of_const? value
      have constant : g.IsConstant b := ⟨c, stored⟩
      have positive : ¬g.IsNegation b := by simp [IsNegation, stored]
      have zero : g.IsValue b Scalar.zero ↔ Scalar.same c Scalar.zero = true := by
        simp [IsValue, stored]
      simp only [constant, positive, zero]
      grind

private theorem binaryRule_eq_none_iff {g : Graph α} {a b : Nat} (op : BinaryOp)
    (unfolded : ¬(g.IsConstant a ∧ g.IsConstant b)) :
    (match op with
      | .add => g.addRule a b
      | .sub => g.subRule a b
      | .mul => g.mulRule a b
      | .div => g.divRule a b
      | .min => none
      | .max => none) = none ↔ ¬g.Redex (.binary op a b) := by
  simp only [Redex, unfolded, false_or]
  cases op with
  | add => exact addRule_eq_none_iff
  | sub => exact subRule_eq_none_iff
  | mul => exact mulRule_eq_none_iff
  | div => exact divRule_eq_none_iff
  | min => simp
  | max => simp

/-- A rule applies exactly where something is left to simplify. -/
theorem reduct?_eq_none_iff {g : Graph α} {t : Term α Nat} : g.reduct? t = none ↔ ¬g.Redex t := by
  cases t with
  | axis a => simp [reduct?, Redex]
  | const c => simp [reduct?, Redex]
  | unary op a =>
      cases value : g.const? a with
      | some c => simp [reduct?, Redex, value, IsConstant, term?_of_const? value]
      | none =>
          simp only [reduct?, Redex, value, const?_eq_none_iff.mp value, false_or]
          cases op with
          | neg => exact negRule_eq_none_iff
          | cos => exact cosRule_eq_none_iff
          | _ => simp
  | binary op a b =>
      cases first : g.const? a with
      | none =>
          simp only [reduct?, first]
          exact binaryRule_eq_none_iff op fun folds => const?_eq_none_iff.mp first folds.1
      | some c =>
          cases second : g.const? b with
          | none =>
              simp only [reduct?, first, second]
              exact binaryRule_eq_none_iff op fun folds => const?_eq_none_iff.mp second folds.2
          | some d =>
              have folds : g.Redex (.binary op a b) :=
                .inl ⟨⟨c, term?_of_const? first⟩, d, term?_of_const? second⟩
              simp [reduct?, first, second, folds]

/-- Nothing is left to simplify at the node or below it. -/
def Normal (g : Graph α) (n : Nat) : Prop :=
  ∀ k t, g.Reaches n k → g.term? k = some t → ¬g.Redex t

theorem redex_iff_of_le {g h : Graph α} {t : Term α Nat} (grown : g ≤ h) (fits : t.Fits g.size) :
    h.Redex t ↔ g.Redex t := by
  have same : ∀ a ∈ t.inputs, h.term? a = g.term? a :=
    fun a input => term?_eq_of_le grown (fits a input)
  cases t with
  | axis a => rfl
  | const c => rfl
  | unary op a => simp only [Redex, IsConstant, IsNegation, IsDifference, same a (by simp)]
  | binary op a b =>
      simp only [Redex, IsConstant, IsValue, IsNegation, same a (by simp), same b (by simp)]

theorem normal_of_le {g h : Graph α} {n : Nat} (grown : g ≤ h) (inside : n < g.size)
    (normal : g.Normal n) : h.Normal n := by
  intro k t reached stored
  have below := (reaches_iff_of_le grown inside).mp reached
  have within := below.lt_size inside
  rw [term?_eq_of_le grown within] at stored
  rw [redex_iff_of_le grown fun a input => Nat.lt_trans (lt_of_mem_inputs stored input) within]
  exact normal k t below stored

theorem Normal.of_le {g h : Graph α} {n : Nat} (normal : h.Normal n) (grown : g ≤ h)
    (inside : n < g.size) : g.Normal n := by
  intro k t reached stored
  have within := reached.lt_size inside
  rw [← redex_iff_of_le grown fun a input => Nat.lt_trans (lt_of_mem_inputs stored input) within]
  exact normal k t ((reaches_iff_of_le grown inside).mpr reached) (term?_of_le grown stored)

theorem Normal.of_reaches {g : Graph α} {n k : Nat} (normal : g.Normal n)
    (reached : g.Reaches n k) : g.Normal k :=
  fun j t below => normal j t (reached.trans below)

theorem Normal.not_redex {g : Graph α} {n : Nat} {t : Term α Nat} (normal : g.Normal n)
    (stored : g.term? n = some t) : ¬g.Redex t :=
  normal n t .refl stored

theorem normal_of_term? {g : Graph α} {n : Nat} {t : Term α Nat} (stored : g.term? n = some t)
    (irreducible : ¬g.Redex t) (inputs : ∀ a ∈ t.inputs, g.Normal a) : g.Normal n := by
  intro k u reached found
  rcases (reaches_iff stored).mp reached with same | ⟨a, input, below⟩
  · subst same
    cases stored.symm.trans found
    exact irreducible
  · exact inputs a input k u below found

theorem normal_of_leaf {g : Graph α} {n : Nat} {t : Term α Nat} (stored : g.term? n = some t)
    (leaf : t.operator? = none) : g.Normal n := by
  cases t with
  | axis a => exact normal_of_term? stored id nofun
  | const c => exact normal_of_term? stored id nofun
  | unary op a => cases leaf
  | binary op a b => cases leaf

end Graph

end SurfaceTape

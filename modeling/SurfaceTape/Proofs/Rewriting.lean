import SurfaceTape.Graph.Simplify
import SurfaceTape.Proofs.Folding

/-!
# The rules of simplification

The rules as a relation, one constructor for each of them, and the nested application of rules as a
derivation. A derivation knows no bound on the nesting: what holds of every derivation holds of the
simplifier at every depth. The rules are read here for an arbitrary scalar type, so nothing is said
about values; what is said is where the nodes of a replacement come from.
-/

set_option autoImplicit false

namespace SurfaceTape

def Reduct.nodes {α : Type} : Reduct α → List Nat
  | .node n => [n]
  | .constant _ => []
  | .term t => t.inputs
  | .negatedSum a b => [a, b]
  | .scaled a _ => [a]

namespace Graph

variable {α : Type}

theorem term?_of_const? {g : Graph α} {n : Nat} {c : α} (found : g.const? n = some c) :
    g.term? n = some (.const c) := by
  obtain ⟨t, stored, value⟩ := Option.bind_eq_some_iff.mp found
  rw [stored, Term.eq_const_of_const? value]

theorem const?_of_term? {g : Graph α} {n : Nat} {c : α} (stored : g.term? n = some (.const c)) :
    g.const? n = some c := by
  rw [const?, stored]
  rfl

theorem term?_of_negand? {g : Graph α} {n p : Nat} (found : g.negand? n = some p) :
    g.term? n = some (.unary .neg p) := by
  rw [negand?] at found
  split at found
  · next stored =>
      cases found
      exact stored
  · cases found

variable [Scalar α]

/-- What a rule puts in the place of a term. The order in which the rules are tried is left out. -/
inductive Rule (g : Graph α) : Term α Nat → Reduct α → Prop where
  | foldUnary {op : UnaryOp} {a : Nat} {c : α} :
      g.term? a = some (.const c) → Rule g (.unary op a) (.constant (Arith.unary op c))
  | foldBinary {op : BinaryOp} {a b : Nat} {c d : α} :
      g.term? a = some (.const c) → g.term? b = some (.const d) →
      Rule g (.binary op a b) (.constant (Arith.binary op c d))
  | negNeg {a p : Nat} : g.term? a = some (.unary .neg p) → Rule g (.unary .neg a) (.node p)
  | negSub {a p q : Nat} :
      g.term? a = some (.binary .sub p q) → Rule g (.unary .neg a) (.term (.binary .sub q p))
  | cosNeg {a p : Nat} :
      g.term? a = some (.unary .neg p) → Rule g (.unary .cos a) (.term (.unary .cos p))
  | addZero {a b : Nat} :
      g.isConst b Scalar.zero = true → Rule g (.binary .add a b) (.node a)
  | zeroAdd {a b : Nat} :
      g.isConst a Scalar.zero = true → Rule g (.binary .add a b) (.node b)
  | addNegNeg {a b p q : Nat} :
      g.term? a = some (.unary .neg p) → g.term? b = some (.unary .neg q) →
      Rule g (.binary .add a b) (.negatedSum p q)
  | negAdd {a b p : Nat} :
      g.term? a = some (.unary .neg p) → Rule g (.binary .add a b) (.term (.binary .sub b p))
  | addNeg {a b q : Nat} :
      g.term? b = some (.unary .neg q) → Rule g (.binary .add a b) (.term (.binary .sub a q))
  | mulZero {a b : Nat} :
      g.isConst b Scalar.zero = true → Rule g (.binary .mul a b) (.node b)
  | zeroMul {a b : Nat} :
      g.isConst a Scalar.zero = true → Rule g (.binary .mul a b) (.node a)
  | mulOne {a b : Nat} :
      g.isConst b Scalar.one = true → Rule g (.binary .mul a b) (.node a)
  | oneMul {a b : Nat} :
      g.isConst a Scalar.one = true → Rule g (.binary .mul a b) (.node b)
  | mulNegOne {a b : Nat} :
      g.isConst b Scalar.negOne = true → Rule g (.binary .mul a b) (.term (.unary .neg a))
  | negOneMul {a b : Nat} :
      g.isConst a Scalar.negOne = true → Rule g (.binary .mul a b) (.term (.unary .neg b))
  | mulNegNeg {a b p q : Nat} :
      g.term? a = some (.unary .neg p) → g.term? b = some (.unary .neg q) →
      Rule g (.binary .mul a b) (.term (.binary .mul p q))
  | zeroSub {a b : Nat} :
      g.isConst a Scalar.zero = true → Rule g (.binary .sub a b) (.term (.unary .neg b))
  | subZero {a b : Nat} :
      g.isConst b Scalar.zero = true → Rule g (.binary .sub a b) (.node a)
  | subNeg {a b q : Nat} :
      g.term? b = some (.unary .neg q) → Rule g (.binary .sub a b) (.term (.binary .add a q))
  | zeroDiv {a b : Nat} :
      g.isConst a Scalar.zero = true → Rule g (.binary .div a b) (.node a)
  | divOne {a b : Nat} :
      g.isConst b Scalar.one = true → Rule g (.binary .div a b) (.node a)
  | divNegOne {a b : Nat} :
      g.isConst b Scalar.negOne = true → Rule g (.binary .div a b) (.term (.unary .neg a))
  | divConst {a b : Nat} {c : α} :
      g.term? b = some (.const c) → Scalar.same c Scalar.zero = false →
      Rule g (.binary .div a b) (.scaled a (Arith.binary .div Scalar.one c))
  | divNegNeg {a b p q : Nat} :
      g.term? a = some (.unary .neg p) → g.term? b = some (.unary .neg q) →
      Rule g (.binary .div a b) (.term (.binary .div p q))

theorem exists_const_of_isConst {g : Graph α} {n : Nat} {c : α} (found : g.isConst n c = true) :
    ∃ d, g.term? n = some (.const d) ∧ Scalar.same d c = true := by
  rw [isConst] at found
  split at found
  · next d value => exact ⟨d, term?_of_const? value, found⟩
  · cases found

private theorem rule_of_negRule {g : Graph α} {a : Nat} {r : Reduct α}
    (applied : g.negRule a = some r) :
    g.Rule (.unary .neg a) r := by
  rw [negRule] at applied
  split at applied
  · next stored => cases applied; exact .negNeg stored
  · next stored => cases applied; exact .negSub stored
  · cases applied

private theorem rule_of_cosRule {g : Graph α} {a : Nat} {r : Reduct α}
    (applied : g.cosRule a = some r) :
    g.Rule (.unary .cos a) r := by
  obtain ⟨p, negated, rfl⟩ := Option.map_eq_some_iff.mp applied
  exact .cosNeg (term?_of_negand? negated)

private theorem rule_of_addRule {g : Graph α} {a b : Nat} {r : Reduct α}
    (applied : g.addRule a b = some r) : g.Rule (.binary .add a b) r := by
  rw [addRule] at applied
  split at applied
  · next zero => cases applied; exact .addZero zero
  · split at applied
    · next zero => cases applied; exact .zeroAdd zero
    · split at applied
      · next first second =>
          cases applied
          exact .addNegNeg (term?_of_negand? first) (term?_of_negand? second)
      · next first _ => cases applied; exact .negAdd (term?_of_negand? first)
      · next _ second => cases applied; exact .addNeg (term?_of_negand? second)
      · cases applied

private theorem rule_of_mulRule {g : Graph α} {a b : Nat} {r : Reduct α}
    (applied : g.mulRule a b = some r) : g.Rule (.binary .mul a b) r := by
  rw [mulRule] at applied
  split at applied
  · next zero => cases applied; exact .mulZero zero
  split at applied
  · next zero => cases applied; exact .zeroMul zero
  split at applied
  · next one => cases applied; exact .mulOne one
  split at applied
  · next one => cases applied; exact .oneMul one
  split at applied
  · next negOne => cases applied; exact .mulNegOne negOne
  split at applied
  · next negOne => cases applied; exact .negOneMul negOne
  split at applied
  · next first second =>
      cases applied
      exact .mulNegNeg (term?_of_negand? first) (term?_of_negand? second)
  · cases applied

private theorem rule_of_subRule {g : Graph α} {a b : Nat} {r : Reduct α}
    (applied : g.subRule a b = some r) : g.Rule (.binary .sub a b) r := by
  rw [subRule] at applied
  split at applied
  · next zero => cases applied; exact .zeroSub zero
  split at applied
  · next zero => cases applied; exact .subZero zero
  obtain ⟨q, negated, rfl⟩ := Option.map_eq_some_iff.mp applied
  exact .subNeg (term?_of_negand? negated)

private theorem rule_of_divRule {g : Graph α} {a b : Nat} {r : Reduct α}
    (applied : g.divRule a b = some r) : g.Rule (.binary .div a b) r := by
  rw [divRule] at applied
  split at applied
  · next zero => cases applied; exact .zeroDiv zero
  split at applied
  · next one => cases applied; exact .divOne one
  split at applied
  · next negOne => cases applied; exact .divNegOne negOne
  split at applied
  · next c value =>
      split at applied
      · cases applied
      · next nonzero =>
          cases applied
          exact .divConst (term?_of_const? value) (Bool.eq_false_iff.mpr nonzero)
  · split at applied
    · next first second =>
        cases applied
        exact .divNegNeg (term?_of_negand? first) (term?_of_negand? second)
    · cases applied

theorem rule_of_reduct? {g : Graph α} {t : Term α Nat} {r : Reduct α}
    (applied : g.reduct? t = some r) : g.Rule t r := by
  cases t with
  | axis a => cases applied
  | const c => cases applied
  | unary op a =>
      unfold reduct? at applied
      dsimp only at applied
      split at applied
      · next value => cases applied; exact .foldUnary (term?_of_const? value)
      · cases op with
        | neg => exact rule_of_negRule applied
        | cos => exact rule_of_cosRule applied
        | sin => cases applied
        | exp => cases applied
        | sqrt => cases applied
  | binary op a b =>
      unfold reduct? at applied
      dsimp only at applied
      split at applied
      · next first second =>
          cases applied
          exact .foldBinary (term?_of_const? first) (term?_of_const? second)
      · cases op with
        | add => exact rule_of_addRule applied
        | sub => exact rule_of_subRule applied
        | mul => exact rule_of_mulRule applied
        | div => exact rule_of_divRule applied
        | min => cases applied
        | max => cases applied

/-- A replacement is made of inputs of the term and of inputs of those. -/
theorem Rule.mem_nodes {g : Graph α} {t : Term α Nat} {r : Reduct α} (rule : g.Rule t r) {n : Nat}
    (member : n ∈ r.nodes) : n ∈ t.inputs ∨ ∃ a ∈ t.inputs, g.Uses a n := by
  cases rule <;> simp_all [Reduct.nodes, Term.inputs, Uses] <;> grind

theorem Rule.exists_reaches {g : Graph α} {t : Term α Nat} {r : Reduct α} (rule : g.Rule t r)
    {n : Nat} (member : n ∈ r.nodes) : ∃ a ∈ t.inputs, g.Reaches a n := by
  rcases rule.mem_nodes member with input | ⟨a, input, used⟩
  · exact ⟨n, input, .refl⟩
  · exact ⟨a, input, .single used⟩

theorem Rule.lt_size {g : Graph α} {t : Term α Nat} {r : Reduct α} (rule : g.Rule t r)
    (fits : t.Fits g.size) {n : Nat} (member : n ∈ r.nodes) : n < g.size := by
  obtain ⟨a, input, reached⟩ := rule.exists_reaches member
  exact reached.lt_size (fits a input)

theorem Rule.operator {g : Graph α} {t u : Term α Nat} (rule : g.Rule t (.term u)) :
    u.operator?.isSome = true := by
  cases rule <;> rfl

/-- How a term over simplified nodes is simplified, with rules nested to any depth. The last two
places are the resulting node and the graph in which it stands. -/
inductive Reduces : Graph α → Term α Nat → Option Nat → Nat → Graph α → Prop where
  | kept {g : Graph α} {t : Term α Nat} {n : Nat} :
      g.reduct? t = none → Reduces g t (some n) n g
  | append {g : Graph α} {t : Term α Nat} (fits : t.Fits g.size) :
      g.reduct? t = none → Reduces g t none g.size (g.push t fits)
  | node {g : Graph α} {t : Term α Nat} {kept : Option Nat} {n : Nat} :
      g.reduct? t = some (.node n) → Reduces g t kept n g
  | constant {g : Graph α} {t : Term α Nat} {kept : Option Nat} {c : α} :
      g.reduct? t = some (.constant c) → Reduces g t kept g.size (g.pushConst c)
  | term {g h : Graph α} {t u : Term α Nat} {kept : Option Nat} {n : Nat} :
      g.reduct? t = some (.term u) → Reduces g u none n h → Reduces g t kept n h
  | negatedSum {g h k : Graph α} {t : Term α Nat} {kept : Option Nat} {a b sum n : Nat} :
      g.reduct? t = some (.negatedSum a b) → Reduces g (.binary .add a b) none sum h →
      Reduces h (.unary .neg sum) none n k → Reduces g t kept n k
  | scaled {g h : Graph α} {t : Term α Nat} {kept : Option Nat} {a n : Nat} {c : α} :
      g.reduct? t = some (.scaled a c) →
      Reduces (g.pushConst c) (.binary .mul a g.size) none n h → Reduces g t kept n h

theorem reduces_of_reduce {depth : Nat} {g h : Graph α} {t : Term α Nat} {kept : Option Nat}
    {n : Nat} (reduced : g.reduce depth t kept = (some n, h)) : Reduces g t kept n h := by
  induction depth generalizing g h t kept n with
  | zero => cases reduced
  | succ depth ih =>
      unfold reduce at reduced
      split at reduced
      · next unruled =>
          split at reduced
          · cases reduced
            exact .kept unruled
          · split at reduced
            · next fits =>
                cases reduced
                exact .append fits unruled
            · cases reduced
      · next applied =>
          cases reduced
          exact .node applied
      · next applied =>
          cases reduced
          exact .constant applied
      · next applied => exact .term applied (ih reduced)
      · next applied =>
          split at reduced
          · next summed => exact .negatedSum applied (ih summed) (ih reduced)
          · cases reduced
      · next applied => exact .scaled applied (ih reduced)

theorem le_reduce (depth : Nat) (g : Graph α) (t : Term α Nat) (kept : Option Nat) :
    g ≤ (g.reduce depth t kept).2 := by
  induction depth generalizing g t kept with
  | zero => exact le_rfl
  | succ depth ih =>
      unfold reduce
      split
      · split
        · exact le_rfl
        · split
          · next fits => exact g.le_push t fits
          · exact le_rfl
      · exact le_rfl
      · next c _ => exact g.le_pushConst c
      · exact ih g _ none
      · next a b _ =>
          have first := ih g (.binary .add a b) none
          split
          · next summed =>
              rw [summed] at first
              exact first.trans (ih _ _ none)
          · next summed =>
              rw [summed] at first
              exact first
      · next c _ => exact (g.le_pushConst c).trans (ih _ _ none)

/-- A node in a graph that grew from the one of the term: it may stand in the place of the term, and
every axis below it was below an input of the term before. -/
structure Replaces (g : Graph α) (t : Term α Nat) (h : Graph α) (n : Nat) : Prop where
  grown : g ≤ h
  inside : n < h.size
  axes : h.AxesBelow n fun k _ => ∃ b ∈ t.inputs, g.Reaches b k

omit [Scalar α] in
private theorem replaces_of_term? {g h : Graph α} {t : Term α Nat} {n : Nat} (grown : g ≤ h)
    (fits : t.Fits g.size) (operator : t.axis? = none) (stored : h.term? n = some t) :
    Replaces g t h n := by
  refine ⟨grown, lt_size_of_term? stored, axesBelow_of_term? stored operator ?_⟩
  intro b input k a below _
  exact ⟨b, input, (reaches_iff_of_le grown (fits b input)).mp below⟩

private theorem Rule.trans_reaches {g : Graph α} {t : Term α Nat} {r : Reduct α} (rule : g.Rule t r)
    {k : Nat} (below : ∃ b ∈ r.nodes, g.Reaches b k) : ∃ b ∈ t.inputs, g.Reaches b k := by
  obtain ⟨b, member, reached⟩ := below
  obtain ⟨a, input, above⟩ := rule.exists_reaches member
  exact ⟨a, input, above.trans reached⟩

omit [Scalar α] in
theorem fits_scaled {g : Graph α} {a : Nat} (inside : a < g.size) (c : α) :
    (Term.binary .mul a g.size : Term α Nat).Fits (g.pushConst c).size :=
  Term.fits_binary.mpr ⟨Nat.lt_of_lt_of_le inside (size_le_of_le (g.le_pushConst c)),
    lt_size_of_term? (g.term?_pushConst_self c)⟩

/-- What a derivation leaves: no axis was appended, and what was there before lies below the result
only if it was at the node that may be kept, or below an input of the term. -/
structure Extends (g : Graph α) (t : Term α Nat) (kept : Option Nat) (h : Graph α) (n : Nat) :
    Prop where
  grown : g ≤ h
  inside : n < h.size
  appended : ∀ k a, h.term? k = some (.axis a) → k < g.size
  below : ∀ k < g.size, h.Reaches n k →
    (∃ m, kept = some m ∧ g.Reaches m k) ∨ ∃ b ∈ t.inputs, g.Reaches b k

omit [Scalar α] in
theorem extends_push {g : Graph α} {t : Term α Nat} (fits : t.Fits g.size)
    (operator : t.axis? = none) (kept : Option Nat) : Extends g t kept (g.push t fits) g.size := by
  have grown := g.le_push t fits
  have stored := g.term?_push_self t fits
  refine ⟨grown, lt_size_of_term? stored, ?_, ?_⟩
  · intro k a axis
    by_contra new
    have within : k ≤ g.size := Nat.lt_succ_iff.mp (by simpa using lt_size_of_term? axis)
    have last : k = g.size := Nat.le_antisymm within (Nat.not_lt.mp new)
    subst last
    cases stored.symm.trans axis
    cases operator
  · intro k old reached
    rcases (reaches_iff stored).mp reached with rfl | ⟨b, input, below⟩
    · exact absurd old (Nat.lt_irrefl _)
    · exact .inr ⟨b, input, (reaches_iff_of_le grown (fits b input)).mp below⟩

theorem Reduces.toExtends {g h : Graph α} {t : Term α Nat} {kept : Option Nat} {n : Nat}
    (reduces : Reduces g t kept n h) (fits : t.Fits g.size) (operator : t.axis? = none)
    (keeps : ∀ m, kept = some m → g.term? m = some t) : Extends g t kept h n := by
  induction reduces with
  | @kept g t n _ =>
      exact ⟨le_rfl, lt_size_of_term? (keeps n rfl), fun _ _ => lt_size_of_term?,
        fun k _ reached => .inl ⟨n, rfl, reached⟩⟩
  | append fits _ => exact extends_push fits operator none
  | @node g t kept n applied =>
      have rule := rule_of_reduct? applied
      exact ⟨le_rfl, rule.lt_size fits List.mem_cons_self, fun _ _ => lt_size_of_term?,
        fun k _ reached => .inr (rule.trans_reaches ⟨n, List.mem_cons_self, reached⟩)⟩
  | @constant g t kept c applied =>
      have pushed := extends_push (t := .const c) (g := g) nofun rfl none
      refine ⟨pushed.grown, pushed.inside, pushed.appended, fun k old reached => ?_⟩
      rcases pushed.below k old reached with ⟨_, impossible, _⟩ | ⟨_, input, _⟩
      · cases impossible
      · cases input
  | @term g h t u kept n applied _ ih =>
      have rule := rule_of_reduct? applied
      have extended := ih (fun b input => rule.lt_size fits input)
        (Term.axis?_of_operator rule.operator) nofun
      refine ⟨extended.grown, extended.inside, extended.appended, fun k old reached => ?_⟩
      rcases extended.below k old reached with ⟨_, impossible, _⟩ | below
      · cases impossible
      · exact .inr (rule.trans_reaches below)
  | @negatedSum g h k t kept a b sum n applied _ _ sumIH negIH =>
      have rule := rule_of_reduct? applied
      have summed := sumIH (fun c input => rule.lt_size fits input) rfl nofun
      have negated := negIH (Term.fits_unary.mpr summed.inside) rfl nofun
      have within := size_le_of_le summed.grown
      refine ⟨summed.grown.trans negated.grown, negated.inside, ?_, fun j old reached => ?_⟩
      · intro j c axis
        have old := negated.appended j c axis
        exact summed.appended j c ((term?_eq_of_le negated.grown old).symm.trans axis)
      · rcases negated.below j (Nat.lt_of_lt_of_le old within) reached with
          ⟨_, impossible, _⟩ | ⟨s, input, below⟩
        · cases impossible
        · cases Term.mem_inputs_unary.mp input
          rcases summed.below j old below with ⟨_, impossible, _⟩ | below
          · cases impossible
          · exact .inr (rule.trans_reaches below)
  | @scaled g h t kept a n c applied _ ih =>
      have rule := rule_of_reduct? applied
      have inside := rule.lt_size fits List.mem_cons_self
      have pushed := extends_push (t := .const c) (g := g) nofun rfl none
      have extended := ih (fits_scaled inside c) rfl nofun
      have within := size_le_of_le pushed.grown
      refine ⟨pushed.grown.trans extended.grown, extended.inside, ?_, fun k old reached => ?_⟩
      · intro k d axis
        have old := extended.appended k d axis
        exact pushed.appended k d ((term?_eq_of_le extended.grown old).symm.trans axis)
      · rcases extended.below k (Nat.lt_of_lt_of_le old within) reached with
          ⟨_, impossible, _⟩ | ⟨b, input, below⟩
        · cases impossible
        · rcases Term.mem_inputs_binary.mp input with rfl | rfl
          · exact .inr (rule.trans_reaches
              ⟨b, List.mem_cons_self, (reaches_iff_of_le pushed.grown inside).mp below⟩)
          · -- The factor that was appended is a constant, and reaches nothing but itself.
            rcases pushed.below k old below with ⟨_, impossible, _⟩ | ⟨_, input, _⟩
            · cases impossible
            · cases input

/-- No derivation brings in an axis that was not below the term. -/
theorem Reduces.replaces {g h : Graph α} {t : Term α Nat} {kept : Option Nat} {n : Nat}
    (reduces : Reduces g t kept n h) (fits : t.Fits g.size) (operator : t.axis? = none)
    (keeps : ∀ m, kept = some m → g.term? m = some t) : Replaces g t h n := by
  have extended := reduces.toExtends fits operator keeps
  refine ⟨extended.grown, extended.inside, fun k a reached axis => ?_⟩
  have old := extended.appended k a axis
  rcases extended.below k old reached with ⟨m, same, below⟩ | below
  · rcases (reaches_iff (keeps m same)).mp below with rfl | below
    · cases (term?_of_le extended.grown (keeps k same)).symm.trans axis
      cases operator
    · exact below
  · exact below

/-- What one step of simplification does with an operator over simplified nodes: it derives a node,
or it gives up and appends the operator as it is. -/
inductive Simplified (g : Graph α) (t : Term α Nat) : Graph α → Nat → Prop where
  | derived {h : Graph α} {kept : Option Nat} {n : Nat} :
      (∀ m, kept = some m → g.term? m = some t) → Reduces g t kept n h → Simplified g t h n
  | appended {h : Graph α} (fits : t.Fits h.size) :
      g ≤ h → Simplified g t (h.push t fits) h.size

theorem Simplified.replaces {g h : Graph α} {t : Term α Nat} {n : Nat}
    (simplified : Simplified g t h n) (fits : t.Fits g.size) (operator : t.axis? = none) :
    Replaces g t h n := by
  cases simplified with
  | derived keeps reduces => exact reduces.replaces fits operator keeps
  | @appended k inside grown =>
      exact replaces_of_term? (grown.trans (k.le_push t inside)) fits operator
        (k.term?_push_self t inside)

end Graph

namespace Build

variable {α : Type} [Scalar α]

theorem simplifyTerm_of_reduced {g h : Graph α} {n r : Nat} {before after : Term α Nat}
    (operator : before.operator?.isSome = true)
    (reduced : g.reduce Graph.reduceDepth after
      (if after.inputs = before.inputs then some n else none) = (some r, h)) :
    simplifyTerm n before after g = .ok r h := by
  cases before with
  | axis a => cases operator
  | const c => cases operator
  | unary op a => simp only [simplifyTerm, reduced]
  | binary op a b => simp only [simplifyTerm, reduced]

theorem simplifyTerm_of_irreducible {g h : Graph α} {n : Nat} {before after : Term α Nat}
    (operator : before.operator?.isSome = true)
    (reduced : g.reduce Graph.reduceDepth after
      (if after.inputs = before.inputs then some n else none) = (none, h)) :
    simplifyTerm n before after g = insert after h := by
  cases before with
  | axis a => cases operator
  | const c => cases operator
  | unary op a => simp only [simplifyTerm, reduced]
  | binary op a b => simp only [simplifyTerm, reduced]

omit [Scalar α] in
/-- The node itself is handed back only for the term that it holds. -/
theorem keeps_of_rel {g : Graph α} {n : Nat} {before after : Term α Nat}
    {related : Nat → Nat → Prop} (stored : g.term? n = some before)
    (rel : Term.Rel related before after) (m : Nat)
    (same : (if after.inputs = before.inputs then some n else none) = some m) :
    g.term? m = some after := by
  obtain ⟨inputs, node⟩ := Option.ite_none_right_eq_some.mp same
  cases node
  rw [rel.eq_of_inputs inputs]
  exact stored

theorem simplifyTerm_operator {g : Graph α} {n : Nat} {before after : Term α Nat}
    {related : Nat → Nat → Prop} (stored : g.term? n = some before)
    (operator : before.operator?.isSome = true) (rel : Term.Rel related before after)
    (fits : after.Fits g.size) :
    ∃ r h, simplifyTerm n before after g = .ok r h ∧ Graph.Simplified g after h r := by
  cases reduced : g.reduce Graph.reduceDepth after
      (if after.inputs = before.inputs then some n else none) with
  | mk result h =>
      cases result with
      | some r =>
          exact ⟨r, h, simplifyTerm_of_reduced operator reduced,
            .derived (keeps_of_rel stored rel) (Graph.reduces_of_reduce reduced)⟩
      | none =>
          have grown : g ≤ h := by
            have grows := Graph.le_reduce Graph.reduceDepth g after
              (if after.inputs = before.inputs then some n else none)
            rw [reduced] at grows
            exact grows
          have inside := Graph.fits_mono fits (Graph.size_le_of_le grown)
          refine ⟨h.size, h.push after inside, ?_, .appended inside grown⟩
          rw [simplifyTerm_of_irreducible operator reduced]
          exact insert_ok inside

/-- A term to which no rule applies stays, unless one of its inputs was replaced. -/
theorem simplifyTerm_of_normal {g : Graph α} {n : Nat} {before after : Term α Nat}
    (operator : before.operator?.isSome = true) (normal : g.reduct? after = none)
    (fits : after.Fits g.size) :
    simplifyTerm n before after g =
      if after.inputs = before.inputs then .ok n g else .ok g.size (g.push after fits) := by
  split
  · next same =>
      refine simplifyTerm_of_reduced operator ?_
      simp only [if_pos same, Graph.reduceDepth, Graph.reduce, normal]
  · next other =>
      refine simplifyTerm_of_reduced operator ?_
      simp only [if_neg other, Graph.reduceDepth, Graph.reduce, normal, dif_pos fits]

theorem simplifyTerm_of_kept {g : Graph α} {n : Nat} {t : Term α Nat}
    (stored : g.term? n = some t) (operator : t.operator?.isSome = true)
    (normal : g.reduct? t = none) : simplifyTerm n t t g = .ok n g := by
  have fits : t.Fits g.size := fun _ input =>
    Nat.lt_trans (Graph.lt_of_mem_inputs stored input) (Graph.lt_size_of_term? stored)
  rw [simplifyTerm_of_normal operator normal fits, if_pos rfl]

/-- A rule is applied, and no rule applies to what it gives. -/
theorem simplifyTerm_of_rewritten {g : Graph α} {n : Nat} {before after t : Term α Nat}
    (operator : before.operator?.isSome = true) (applied : g.reduct? after = some (.term t))
    (normal : g.reduct? t = none) (fits : t.Fits g.size) :
    simplifyTerm n before after g = .ok g.size (g.push t fits) := by
  refine simplifyTerm_of_reduced operator ?_
  simp only [Graph.reduceDepth, Graph.reduce, applied, normal, dif_pos fits]

theorem simplifyTerm_leaf {g : Graph α} {n : Nat} {before after : Term α Nat}
    (leaf : before.operator? = none) : simplifyTerm n before after g = .ok n g := by
  cases before with
  | axis a => rfl
  | const c => rfl
  | unary op a => cases leaf
  | binary op a b => cases leaf

structure Descends (g h : Graph α) (n r : Nat) : Prop where
  inside : r < h.size
  axes : h.AxesBelow r fun k _ => g.Reaches n k

omit [Scalar α] in
theorem Descends.grow {g h h' : Graph α} {n r : Nat} (grown : h ≤ h')
    (descends : Descends g h n r) : Descends g h' n r :=
  ⟨Nat.lt_of_lt_of_le descends.inside (Graph.size_le_of_le grown),
    Graph.axesBelow_of_le grown descends.inside descends.axes⟩

theorem simplifyTerm_descends {g h : Graph α} {n : Nat} {before after : Term α Nat} (grown : g ≤ h)
    (stored : g.term? n = some before) (rel : Term.Rel (Descends g h) before after) :
    ∃ r h', simplifyTerm n before after h = .ok r h' ∧ h ≤ h' ∧ Descends g h' n r := by
  have found := Graph.term?_of_le grown stored
  cases kind : before.operator? with
  | none =>
      refine ⟨n, h, simplifyTerm_leaf kind, le_rfl, Graph.lt_size_of_term? found, ?_⟩
      intro k a reached _
      exact (Graph.reaches_iff_of_le grown (Graph.lt_size_of_term? stored)).mp reached
  | some op =>
      have fits := rel.fits fun _ _ descends => descends.inside
      obtain ⟨r, h', ran, simplified⟩ :=
        simplifyTerm_operator found (by rw [kind]; rfl) rel fits
      have replaces := simplified.replaces fits (rel.axis?_of_operator (by rw [kind]; rfl))
      refine ⟨r, h', ran, replaces.grown, replaces.inside, ?_⟩
      intro k a reached axis
      obtain ⟨b, input, below⟩ := replaces.axes _ _ reached axis
      obtain ⟨c, original, descends⟩ := rel.exists_of_mem_inputs input
      rw [Graph.term?_eq_of_le replaces.grown (below.lt_size (fits b input))] at axis
      exact .head ⟨before, stored, original⟩ (descends.axes _ _ below axis)

/-- Simplification succeeds below every node of the graph, and brings in no axis. -/
theorem simplify_spec {g : Graph α} {root : Nat} (inside : root < g.size) :
    ∃ out h, simplify root g = .ok out h ∧ g ≤ h ∧ Descends g h root out := by
  obtain ⟨entries, listed, ordered⟩ := Graph.exists_postOrder inside
  obtain ⟨out, h, ran, grown, descends⟩ := foldEntries_induct ordered (Descends g) Descends.grow
    (fun grown stored _ rel => simplifyTerm_descends grown stored rel)
  refine ⟨out, h, ?_, grown, descends⟩
  rw [simplify, fold, listed]
  exact ran

theorem simplify_of_absent {g : Graph α} {root : Nat} (absent : g.size ≤ root) :
    simplify root g = .error .badNode g := by
  rw [simplify, fold, Graph.postOrder_of_absent absent]

end Build

end SurfaceTape

import SurfaceTape.Proofs.Redexes
import SurfaceTape.Scalar.Binary

/-!
# Simplification reaches a normal form

Simplification goes over an expression once, and nothing is left to simplify afterwards. A rule may
ask for a term that was not there before, so this has to be shown for every pair of rules that can
follow each other. It holds because such a term is built from the inputs of normal terms: the input
of a normal negation, for one, is no constant, no negation and no difference. For the same reason
rules do not follow each other for long, and few nodes are appended on the way.
-/

set_option autoImplicit false

namespace SurfaceTape

namespace Graph

variable {α : Type} [Scalar α]

structure Ready (g : Graph α) (t : Term α Nat) : Prop where
  fits : t.Fits g.size
  normal : ∀ a ∈ t.inputs, g.Normal a

private theorem ready_unary {g : Graph α} {op : UnaryOp} {a : Nat} (inside : a < g.size)
    (normal : g.Normal a) : g.Ready (.unary op a) :=
  ⟨Term.fits_unary.mpr inside, fun _ input => Term.mem_inputs_unary.mp input ▸ normal⟩

private theorem ready_binary {g : Graph α} {op : BinaryOp} {a b : Nat} (first : a < g.size)
    (normal : g.Normal a) (second : b < g.size) (normal' : g.Normal b) :
    g.Ready (.binary op a b) := by
  refine ⟨Term.fits_binary.mpr ⟨first, second⟩, fun n input => ?_⟩
  rcases Term.mem_inputs_binary.mp input with same | same
  · exact same ▸ normal
  · exact same ▸ normal'

theorem Ready.node {g : Graph α} {t : Term α Nat} {r : Reduct α} {n : Nat} (ready : g.Ready t)
    (rule : g.Rule t r) (member : n ∈ r.nodes) : n < g.size ∧ g.Normal n := by
  obtain ⟨a, input, reached⟩ := rule.exists_reaches member
  exact ⟨rule.lt_size ready.fits member, (ready.normal a input).of_reaches reached⟩

/-- A rule asks for terms over simplified nodes only. -/
theorem Ready.of_rule {g : Graph α} {t u : Term α Nat} (ready : g.Ready t)
    (rule : g.Rule t (.term u)) : g.Ready u :=
  ⟨fun _ input => (ready.node rule input).1, fun _ input => (ready.node rule input).2⟩

theorem Ready.of_le {g h : Graph α} {t : Term α Nat} (ready : g.Ready t) (grown : g ≤ h) :
    h.Ready t :=
  ⟨fits_mono ready.fits (size_le_of_le grown),
    fun a input => normal_of_le grown (ready.fits a input) (ready.normal a input)⟩

theorem reduce_of_le {depth deeper : Nat} {g h : Graph α} {t : Term α Nat} {kept : Option Nat}
    {n : Nat} (reduced : g.reduce depth t kept = (some n, h)) (enough : depth ≤ deeper) :
    g.reduce deeper t kept = (some n, h) := by
  induction depth generalizing g h t kept n deeper with
  | zero => cases reduced
  | succ depth ih =>
      obtain ⟨deeper, rfl⟩ :=
        Nat.exists_eq_add_of_le' (Nat.le_trans (Nat.le_add_left 1 depth) enough)
      have less : depth ≤ deeper := Nat.le_of_succ_le_succ enough
      unfold reduce at reduced ⊢
      cases applied : g.reduct? t with
      | none => simpa only [applied] using reduced
      | some r =>
          simp only [applied] at reduced ⊢
          cases r with
          | node m => exact reduced
          | constant c => exact reduced
          | term u => exact ih reduced less
          | negatedSum a b =>
              dsimp only at reduced ⊢
              cases summed : g.reduce depth (.binary .add a b) none with
              | mk result k =>
                  rw [summed] at reduced
                  cases result with
                  | none => cases reduced
                  | some sum =>
                      rw [ih summed less]
                      exact ih reduced less
          | scaled a c => exact ih reduced less

structure Settled (g : Graph α) (added : Nat) (h : Graph α) (n : Nat) : Prop where
  grown : g ≤ h
  few : h.size ≤ g.size + added
  inside : n < h.size
  normal : h.Normal n

def Settles (g : Graph α) (depth added : Nat) (t : Term α Nat) : Prop :=
  ∀ kept, (∀ m, kept = some m → g.term? m = some t) →
    ∃ n h, g.reduce depth t kept = (some n, h) ∧ Settled g added h n

theorem Settles.mono {g : Graph α} {depth deeper added more : Nat} {t : Term α Nat}
    (settles : g.Settles depth added t) (enough : depth ≤ deeper) (room : added ≤ more) :
    g.Settles deeper more t := by
  intro kept keeps
  obtain ⟨n, h, reduced, settled⟩ := settles kept keeps
  have few : h.size ≤ g.size + more := Nat.le_trans settled.few (Nat.add_le_add_left room g.size)
  exact ⟨n, h, reduce_of_le reduced enough, { settled with few }⟩

theorem Settles.anew {g : Graph α} {depth added : Nat} {t : Term α Nat}
    (settles : g.Settles depth added t) :
    ∃ n h, g.reduce depth t none = (some n, h) ∧ Settled g added h n :=
  settles none nofun

def SettlesReduct (g : Graph α) (depth added : Nat) : Reduct α → Prop
  | .node _ => True
  | .constant _ => True
  | .term t => g.Settles depth added t
  | .negatedSum a b =>
      ∃ first second, first + second ≤ added ∧ g.Settles depth first (.binary .add a b) ∧
        ∀ (h : Graph α) (sum : Nat), h.Ready (.unary .neg sum) →
          h.Settles depth second (.unary .neg sum)
  | .scaled a c =>
      ∃ rest, 1 + rest ≤ added ∧ (g.pushConst c).Settles depth rest (.binary .mul a g.size)

/-- One call of the simplifier: the rule that it applies has to ask for something that can be
settled. -/
theorem settles_of_rules {g : Graph α} {depth added : Nat} {t : Term α Nat} (ready : g.Ready t)
    (room : 1 ≤ added) (each : ∀ r, g.reduct? t = some r → g.SettlesReduct depth added r) :
    g.Settles (depth + 1) added t := by
  intro kept keeps
  cases applied : g.reduct? t with
  | none =>
      have irreducible := reduct?_eq_none_iff.mp applied
      cases kept with
      | some m =>
          have stored := keeps m rfl
          refine ⟨m, g, by simp only [reduce, applied], le_rfl, by omega,
            lt_size_of_term? stored, ?_⟩
          exact normal_of_term? stored irreducible ready.normal
      | none =>
          have grown := g.le_push t ready.fits
          have stored := g.term?_push_self t ready.fits
          refine ⟨g.size, g.push t ready.fits, by simp only [reduce, applied, dif_pos ready.fits],
            grown, by simpa using room, by simp, ?_⟩
          exact normal_of_term? stored (mt (redex_iff_of_le grown ready.fits).mp irreducible)
            (ready.of_le grown).normal
  | some r =>
      have rule := rule_of_reduct? applied
      have settles := each r applied
      cases r with
      | node n =>
          obtain ⟨inside, normal⟩ := ready.node rule List.mem_cons_self
          exact ⟨n, g, by simp only [reduce, applied], le_rfl, by omega, inside, normal⟩
      | constant c =>
          have stored := g.term?_pushConst_self c
          exact ⟨g.size, g.pushConst c, by simp only [reduce, applied], g.le_pushConst c,
            by simpa [pushConst] using room, lt_size_of_term? stored, normal_of_leaf stored rfl⟩
      | term u =>
          obtain ⟨n, h, reduced, settled⟩ := Settles.anew settles
          exact ⟨n, h, by simp only [reduce, applied, reduced], settled⟩
      | negatedSum a b =>
          obtain ⟨first, second, total, sums, negates⟩ := settles
          obtain ⟨sum, h, summed, settled⟩ := sums.anew
          obtain ⟨n, k, negated, settled'⟩ :=
            (negates h sum (ready_unary settled.inside settled.normal)).anew
          refine ⟨n, k, by simp only [reduce, applied, summed, negated],
            settled.grown.trans settled'.grown, ?_, settled'.inside, settled'.normal⟩
          have few := settled.few
          have few' := settled'.few
          omega
      | scaled a c =>
          obtain ⟨rest, total, multiplies⟩ := settles
          obtain ⟨n, h, multiplied, settled⟩ := multiplies.anew
          refine ⟨n, h, by simp only [reduce, applied, multiplied],
            (g.le_pushConst c).trans settled.grown, ?_, settled.inside, settled.normal⟩
          have few := settled.few
          simp only [pushConst, size_push] at few
          omega

theorem settles_of_irreducible {g : Graph α} {t : Term α Nat} (ready : g.Ready t)
    (irreducible : ¬g.Redex t) : g.Settles 1 1 t :=
  settles_of_rules ready (Nat.le_refl _) fun _ applied =>
    absurd (rule_of_reduct? applied).redex irreducible

/-- The term is replaced by two new nodes: a quotient by a constant, unless that is zero, one or
minus one, by a product and the reciprocal in it, and a sum of negations by a negation and the sum
in it. -/
def Expands (g : Graph α) : Term α Nat → Prop
  | .binary .add a b => g.IsNegation a ∧ g.IsNegation b
  | .binary .div a b =>
      ¬g.IsConstant a ∧ g.IsConstant b ∧
        ∀ v ∈ [Scalar.zero, Scalar.one, Scalar.negOne], ¬g.IsValue b v
  | _ => False

private theorem expands_of_scaled {g : Graph α} {a b p : Nat} {c : α}
    (applied : g.reduct? (.binary .div a b) = some (.scaled p c)) :
    g.Expands (.binary .div a b) := by
  cases rule_of_reduct? applied with
  | @divConst _ _ d stored nonzero =>
      have divisor : g.const? b = some d := const?_of_term? stored
      unfold reduct? at applied
      cases dividend : g.const? a with
      | some e =>
          simp only [dividend, divisor] at applied
          cases applied
      | none =>
          -- The rules that are tried before this one have found nothing.
          simp only [dividend, divRule] at applied
          split at applied
          · cases applied
          split at applied
          · cases applied
          next notOne =>
          split at applied
          · cases applied
          next notNegOne =>
          refine ⟨const?_eq_none_iff.mp dividend, ⟨d, stored⟩, ?_⟩
          simp only [List.mem_cons, List.not_mem_nil, or_false, forall_eq_or_imp, forall_eq]
          exact ⟨not_isValue_of_term? stored nonzero, mt isConst_iff.mpr notOne,
            mt isConst_iff.mpr notNegOne⟩

/-! What is known of the terms that rules ask for. The input of a normal negation is no constant, no
negation and no difference; a normal difference may be turned round. -/

private theorem not_redex_binary {g : Graph α} {p q : Nat} (op : BinaryOp)
    (negand : ¬g.Redex (.unary .neg p)) (negand' : ¬g.Redex (.unary .neg q)) :
    ¬g.Redex (.binary op p q) := by
  cases op <;> grind [Redex, IsValue.isConstant]

private theorem settles_swapped {g : Graph α} {p q : Nat} (ready : g.Ready (.binary .sub q p))
    (irreducible : ¬g.Redex (.binary .sub p q)) : g.Settles 2 1 (.binary .sub q p) := by
  apply settles_of_rules ready (Nat.le_refl _)
  intro r applied
  cases rule_of_reduct? applied with
  | foldBinary _ _ => trivial
  | zeroSub zero => exact absurd (.inr (.inr (.inl (isConst_iff.mp zero)))) irreducible
  | subZero _ => trivial
  | subNeg negated =>
      apply settles_of_irreducible (ready.of_rule (.subNeg negated))
      have negand := (ready.normal p (by simp)).not_redex negated
      grind [Redex, IsValue.isConstant]

private theorem settles_neg {g : Graph α} {a : Nat} (ready : g.Ready (.unary .neg a)) :
    g.Settles 3 1 (.unary .neg a) := by
  apply settles_of_rules ready (Nat.le_refl _)
  intro r applied
  cases rule_of_reduct? applied with
  | foldUnary _ => trivial
  | negNeg _ => trivial
  | negSub stored =>
      exact settles_swapped (ready.of_rule (.negSub stored))
        ((ready.normal a (by simp)).not_redex stored)

private theorem settles_cos {g : Graph α} {a : Nat} (ready : g.Ready (.unary .cos a)) :
    g.Settles 2 1 (.unary .cos a) := by
  apply settles_of_rules ready (Nat.le_refl _)
  intro r applied
  cases rule_of_reduct? applied with
  | foldUnary _ => trivial
  | cosNeg negated =>
      apply settles_of_irreducible (ready.of_rule (.cosNeg negated))
      have negand := (ready.normal a (by simp)).not_redex negated
      grind [Redex]

private theorem settles_subtrahend {g : Graph α} {a p : Nat} (ready : g.Ready (.binary .sub a p))
    (negand : ¬g.Redex (.unary .neg p)) : g.Settles 2 1 (.binary .sub a p) := by
  apply settles_of_rules ready (Nat.le_refl _)
  intro r applied
  cases rule_of_reduct? applied with
  | foldBinary _ _ => trivial
  | zeroSub zero => exact settles_of_irreducible (ready.of_rule (.zeroSub zero)) negand
  | subZero _ => trivial
  | subNeg negated => exact absurd (.inr (.inl ⟨_, negated⟩)) negand

private theorem settles_summand {g : Graph α} {a q : Nat} (ready : g.Ready (.binary .add a q))
    (negand : ¬g.Redex (.unary .neg q)) : g.Settles 2 1 (.binary .add a q) := by
  apply settles_of_rules ready (Nat.le_refl _)
  intro r applied
  cases rule_of_reduct? applied with
  | foldBinary _ _ => trivial
  | addZero _ => trivial
  | zeroAdd _ => trivial
  | addNegNeg _ negated => exact absurd (.inr (.inl ⟨_, negated⟩)) negand
  | negAdd negated =>
      apply settles_of_irreducible (ready.of_rule (.negAdd negated))
      have negand' := (ready.normal a (by simp)).not_redex negated
      grind [Redex, IsValue.isConstant]
  | addNeg negated => exact absurd (.inr (.inl ⟨_, negated⟩)) negand

private theorem settles_add {g : Graph α} {a b added : Nat} (ready : g.Ready (.binary .add a b))
    (room : 1 ≤ added) (expands : g.Expands (.binary .add a b) → 2 ≤ added) :
    g.Settles 4 added (.binary .add a b) := by
  apply settles_of_rules ready room
  intro r applied
  have first := ready.normal a (by simp)
  have second := ready.normal b (by simp)
  cases rule_of_reduct? applied with
  | foldBinary _ _ => trivial
  | addZero _ => trivial
  | zeroAdd _ => trivial
  | addNegNeg negated negated' =>
      have rule := Rule.addNegNeg negated negated'
      obtain ⟨inside, normal⟩ := ready.node rule (n := _) List.mem_cons_self
      obtain ⟨inside', normal'⟩ :=
        ready.node rule (n := _) (List.mem_cons_of_mem _ List.mem_cons_self)
      have sums := settles_of_irreducible (ready_binary inside normal inside' normal')
        (not_redex_binary .add (first.not_redex negated) (second.not_redex negated'))
      exact ⟨1, 1, expands ⟨⟨_, negated⟩, _, negated'⟩, sums.mono (by decide) (Nat.le_refl 1),
        fun _ _ ready' => settles_neg ready'⟩
  | negAdd negated =>
      exact (settles_subtrahend (ready.of_rule (.negAdd negated))
        (first.not_redex negated)).mono (by decide) room
  | addNeg negated =>
      exact (settles_subtrahend (ready.of_rule (.addNeg negated))
        (second.not_redex negated)).mono (by decide) room

private theorem settles_sub {g : Graph α} {a b : Nat} (ready : g.Ready (.binary .sub a b)) :
    g.Settles 4 1 (.binary .sub a b) := by
  apply settles_of_rules ready (Nat.le_refl _)
  intro r applied
  cases rule_of_reduct? applied with
  | foldBinary _ _ => trivial
  | zeroSub zero => exact settles_neg (ready.of_rule (.zeroSub zero))
  | subZero _ => trivial
  | subNeg negated =>
      exact (settles_summand (ready.of_rule (.subNeg negated))
        ((ready.normal b (by simp)).not_redex negated)).mono (by decide) (Nat.le_refl _)

private theorem settles_mul {g : Graph α} {a b : Nat} (ready : g.Ready (.binary .mul a b)) :
    g.Settles 4 1 (.binary .mul a b) := by
  apply settles_of_rules ready (Nat.le_refl _)
  intro r applied
  cases rule_of_reduct? applied with
  | foldBinary _ _ => trivial
  | mulZero _ => trivial
  | zeroMul _ => trivial
  | mulOne _ => trivial
  | oneMul _ => trivial
  | mulNegOne negOne => exact settles_neg (ready.of_rule (.mulNegOne negOne))
  | negOneMul negOne => exact settles_neg (ready.of_rule (.negOneMul negOne))
  | mulNegNeg negated negated' =>
      have settles := settles_of_irreducible (ready.of_rule (.mulNegNeg negated negated'))
        (not_redex_binary .mul ((ready.normal a (by simp)).not_redex negated)
          ((ready.normal b (by simp)).not_redex negated'))
      exact settles.mono (by decide) (Nat.le_refl _)

private theorem settles_div {g : Graph α} {a b added : Nat} (ready : g.Ready (.binary .div a b))
    (room : 1 ≤ added) (expands : g.Expands (.binary .div a b) → 2 ≤ added) :
    g.Settles 5 added (.binary .div a b) := by
  apply settles_of_rules ready room
  intro r applied
  cases rule_of_reduct? applied with
  | foldBinary _ _ => trivial
  | zeroDiv _ => trivial
  | divOne _ => trivial
  | divNegOne negOne =>
      exact (settles_neg (ready.of_rule (.divNegOne negOne))).mono (by decide) room
  | @divConst _ _ c _ _ =>
      have inside : a < g.size := ready.fits a (by simp)
      have grown := g.le_pushConst (Arith.binary .div Scalar.one c)
      have stored := g.term?_pushConst_self (Arith.binary .div Scalar.one c)
      exact ⟨1, expands (expands_of_scaled applied), settles_mul (ready_binary
        (Nat.lt_of_lt_of_le inside (size_le_of_le grown))
        (normal_of_le grown inside (ready.normal a (by simp)))
        (lt_size_of_term? stored) (normal_of_leaf stored rfl))⟩
  | divNegNeg negated negated' =>
      have settles := settles_of_irreducible (ready.of_rule (.divNegNeg negated negated'))
        (not_redex_binary .div ((ready.normal a (by simp)).not_redex negated)
          ((ready.normal b (by simp)).not_redex negated'))
      exact settles.mono (by decide) room

/-- An operator over simplified nodes is settled by rules that are nested at most five deep. One new
node is enough, unless the term expands into two. -/
theorem Ready.settles {g : Graph α} {t : Term α Nat} {added : Nat} (ready : g.Ready t)
    (operator : t.operator?.isSome = true) (room : 1 ≤ added)
    (expands : g.Expands t → 2 ≤ added) : g.Settles reduceDepth added t := by
  cases t with
  | axis a => cases operator
  | const c => cases operator
  | unary op a =>
      cases op with
      | neg => exact (settles_neg ready).mono (by decide) room
      | cos => exact (settles_cos ready).mono (by decide) room
      | _ =>
          apply settles_of_rules ready room
          intro r applied
          cases rule_of_reduct? applied with
          | foldUnary _ => trivial
  | binary op a b =>
      cases op with
      | add => exact (settles_add ready room expands).mono (by decide) (Nat.le_refl added)
      | sub => exact (settles_sub ready).mono (by decide) room
      | mul => exact (settles_mul ready).mono (by decide) room
      | div => exact settles_div ready room expands
      | _ =>
          apply settles_of_rules ready room
          intro r applied
          cases rule_of_reduct? applied with
          | foldBinary _ _ => trivial

end Graph

namespace Build

variable {α : Type} [Scalar α]

structure Simple (h : Graph α) (r : Nat) : Prop where
  inside : r < h.size
  normal : h.Normal r

theorem Simple.grow {h h' : Graph α} {r : Nat} (grown : h ≤ h') (simple : Simple h r) :
    Simple h' r :=
  ⟨Nat.lt_of_lt_of_le simple.inside (Graph.size_le_of_le grown),
    Graph.normal_of_le grown simple.inside simple.normal⟩

theorem ready_of_rel {h : Graph α} {before after : Term α Nat}
    (rel : Term.Rel (fun _ r => Simple h r) before after) : h.Ready after := by
  constructor
  · exact rel.fits fun _ _ simple => simple.inside
  · intro b input
    obtain ⟨_, _, simple⟩ := rel.exists_of_mem_inputs input
    exact simple.normal

/-- One call of the simplifier from outside: it ends within its depth, with a normal node. -/
theorem exists_reduce_within {h : Graph α} {n added : Nat} {before after : Term α Nat}
    (stored : h.term? n = some before) (operator : before.operator?.isSome = true)
    (rel : Term.Rel (fun _ r => Simple h r) before after) (room : 1 ≤ added)
    (expands : h.Expands after → 2 ≤ added) :
    ∃ r h', h.reduce Graph.reduceDepth after
        (if after.inputs = before.inputs then some n else none) = (some r, h') ∧
      h.Settled added h' r := by
  have operator' : after.operator?.isSome = true := by
    cases rel with
    | axis => cases operator
    | const => cases operator
    | unary _ => rfl
    | binary _ _ => rfl
  exact (ready_of_rel rel).settles operator' room expands _ (keeps_of_rel stored rel)

theorem exists_reduce {h : Graph α} {n : Nat} {before after : Term α Nat}
    (stored : h.term? n = some before) (operator : before.operator?.isSome = true)
    (rel : Term.Rel (fun _ r => Simple h r) before after) :
    ∃ r h', h.reduce Graph.reduceDepth after
        (if after.inputs = before.inputs then some n else none) = (some r, h') ∧
      h.Settled 2 h' r :=
  exists_reduce_within stored operator rel (by decide) fun _ => Nat.le_refl 2

def operatorCount (entries : List (Graph.Entry α)) : Nat :=
  entries.countP fun entry => entry.term.operator?.isSome

theorem simplifyTerm_settles {h : Graph α} {entry : Graph.Entry α} {after : Term α Nat}
    (stored : h.term? entry.node = some entry.term)
    (rel : Term.Rel (fun _ r => Simple h r) entry.term after) :
    ∃ r h', simplifyTerm entry.node entry.term after h = .ok r h' ∧
      h.Settled (2 * operatorCount [entry]) h' r := by
  cases kind : entry.term.operator? with
  | none =>
      exact ⟨entry.node, h, simplifyTerm_leaf kind, le_rfl, Nat.le_add_right _ _,
        Graph.lt_size_of_term? stored, Graph.normal_of_leaf stored kind⟩
  | some op =>
      have operator : entry.term.operator?.isSome = true := by rw [kind]; rfl
      obtain ⟨r, h', reduced, settled⟩ := exists_reduce stored operator rel
      refine ⟨r, h', simplifyTerm_of_reduced operator reduced, ?_⟩
      simpa [operatorCount, operator] using settled

/-- Any part of the run: the results so far are normal, and not too many nodes were appended for
them. -/
theorem foldlM_settles {g : Graph α} {root : Nat} {entries before rest : List (Graph.Entry α)}
    (ordered : g.Ordered root entries) (split : entries = before ++ rest) :
    ∃ results h, before.foldlM (Graph.foldEntry simplifyTerm) ∅ g = .ok results h ∧ g ≤ h ∧
      h.size ≤ g.size + 2 * operatorCount before ∧
      Graph.Filed results (before.map Graph.Entry.node) fun _ r => Simple h r := by
  obtain ⟨results, h, filed, ran, ⟨grown, few, simple⟩, found⟩ := foldlM_track ordered split
    (fun earlier filed h => g ≤ h ∧ h.size ≤ g.size + 2 * operatorCount earlier ∧
      ∀ n r, filed n r → Simple h r) ⟨le_rfl, Nat.le_refl _, nofun⟩ (by
        intro earlier entry later filed h after place inv related
        obtain ⟨grown, few, simple⟩ := inv
        have whole : entries = earlier ++ entry :: (later ++ rest) := by simp [split, place]
        have stored := Graph.term?_of_le grown (ordered.split whole).1
        obtain ⟨r, h', ran, settled⟩ := simplifyTerm_settles stored (related.imp simple)
        refine ⟨r, h', ran, grown.trans settled.grown, ?_, ?_⟩
        · have more := settled.few
          have total : operatorCount (earlier ++ [entry]) =
              operatorCount earlier + operatorCount [entry] := List.countP_append
          omega
        · intro n s result
          rcases result with old | ⟨_, same⟩
          · exact (simple n s old).grow settled.grown
          · exact same ▸ ⟨settled.inside, settled.normal⟩)
  exact ⟨results, h, ran, grown, few, found.imp simple⟩

theorem simplify_settles {g : Graph α} {root : Nat} {entries : List (Graph.Entry α)}
    (listed : g.postOrder root = .ok entries) :
    ∃ out h, simplify root g = .ok out h ∧
      g.Settled (2 * operatorCount entries) h out := by
  have ordered := (Graph.Ordered.of_postOrder listed).2
  obtain ⟨results, h, ran, grown, few, found⟩ :=
    foldlM_settles ordered (List.append_nil entries).symm
  obtain ⟨out, filed, simple⟩ := found root ((ordered.mem_iff root).mpr .refl)
  refine ⟨out, h, ?_, grown, few, simple.inside, simple.normal⟩
  rw [simplify, fold, listed]
  exact foldEntries_of_foldlM ran filed

/-- Where nothing is left to simplify, simplification changes nothing. -/
theorem simplify_of_normal {g : Graph α} {root : Nat} (inside : root < g.size)
    (normal : g.Normal root) : simplify root g = .ok root g := by
  obtain ⟨entries, listed, ordered⟩ := Graph.exists_postOrder inside
  obtain ⟨t, stored⟩ := Graph.exists_term?_of_lt_size inside
  have kept : ∀ n u, g.term? n = some u → g.Reaches root n → simplifyTerm n u u g = .ok n g := by
    intro n u found reached
    cases kind : u.operator? with
    | none => exact simplifyTerm_leaf kind
    | some op =>
        exact simplifyTerm_of_kept found (by rw [kind]; rfl)
          (Graph.reduct?_eq_none_iff.mpr (normal n u reached found))
  rw [simplify, fold, listed]
  exact foldEntries_of_kept ordered (fun n u found reached _ => kept n u found reached) stored
    (kept root t stored .refl)

/-- Simplification leaves an expression in which nothing is left to simplify. It hands back its root
exactly if that was so before, and then appends nothing. A second run changes nothing. -/
theorem simplify_reaches_normal_form {g : Graph α} {root : Nat} (inside : root < g.size) :
    ∃ out h, simplify root g = .ok out h ∧ h.Normal out ∧ (out = root ↔ g.Normal root) ∧
      (out = root → h = g) ∧ simplify out h = .ok out h := by
  obtain ⟨entries, listed, _⟩ := Graph.exists_postOrder inside
  obtain ⟨out, h, ran, settled⟩ := simplify_settles listed
  have unchanged : g.Normal root → out = root ∧ h = g := by
    intro normal
    cases ran.symm.trans (simplify_of_normal inside normal)
    exact ⟨rfl, rfl⟩
  -- What lies below the root is the same before and after, as the graph has only grown.
  have normal_of_same : out = root → g.Normal root := by
    intro same n t reached stored
    have within := reached.lt_size inside
    rw [← Graph.redex_iff_of_le settled.grown fun a input =>
      Nat.lt_trans (Graph.lt_of_mem_inputs stored input) within]
    exact settled.normal n t (same ▸ (Graph.reaches_iff_of_le settled.grown inside).mpr reached)
      (Graph.term?_of_le settled.grown stored)
  exact ⟨out, h, ran, settled.normal, ⟨normal_of_same, fun normal => (unchanged normal).1⟩,
    fun same => (unchanged (normal_of_same same)).2,
    simplify_of_normal settled.inside settled.normal⟩

/-- The expression `0 - (-x - y)`. Three rules follow each other at its root. -/
def negatedDifference : Graph Float where
  terms := #[.const 0, .axis .x, .axis .y, .unary .neg 1, .binary .sub 3 2, .binary .sub 0 4]
  acyclic := by decide

private theorem simplify_negatedDifference : simplify 5 negatedDifference =
    .ok 6 (negatedDifference.push (.binary .add 2 1) (by decide)) := by
  have listed : negatedDifference.postOrder 5 = .ok [⟨0, .const 0⟩, ⟨1, .axis .x⟩,
      ⟨3, .unary .neg 1⟩, ⟨2, .axis .y⟩, ⟨4, .binary .sub 3 2⟩, ⟨5, .binary .sub 0 4⟩] := by
    cbv
  rw [simplify, fold, listed]
  rfl

theorem simplify_negatedDifference_reaches_normal_form :
    5 < negatedDifference.size ∧ ¬negatedDifference.Normal 5 ∧
      ∃ h, simplify 5 negatedDifference = .ok 6 h ∧ h.term? 6 = some (.binary .add 2 1) ∧
        h.Normal 6 ∧ simplify 6 h = .ok 6 h := by
  have inside : 5 < negatedDifference.size := by decide
  obtain ⟨out, h, ran, normal, returned, _, again⟩ := simplify_reaches_normal_form inside
  cases simplify_negatedDifference.symm.trans ran
  exact ⟨inside, fun unchanged => absurd (returned.mpr unchanged) (by decide), _, ran, rfl, normal,
    again⟩

end Build

end SurfaceTape

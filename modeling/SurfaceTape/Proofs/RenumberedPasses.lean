import SurfaceTape.Proofs.AxisUnification
import SurfaceTape.Proofs.Renumbering
import SurfaceTape.Proofs.Rewriting

/-!
# Passes over renumbered graphs

Both passes look at terms, at constants, and at whether two nodes are the same, and corresponding
nodes agree in all of that. So they take the same branches on matching graphs and append
corresponding terms.
-/

set_option autoImplicit false

namespace SurfaceTape

variable {α : Type} {matched : Nat → Nat → Prop}

namespace Graph

variable {g h : Graph α} {entries entries' : List (Entry α)}

theorem rel_axisNode? (listed : List.Forall₂ (Entry.Rel matched) entries entries') (a : Axis) :
    Option.Rel matched (axisNode? entries a) (axisNode? entries' a) := by
  induction listed with
  | nil => exact .none
  | @cons entry entry' _ _ rel _ ih =>
      simp only [axisNode?, List.find?_cons, rel.term.axis?_eq]
      cases decide (entry'.term.axis? = some a) with
      | true => exact .some rel.node
      | false => exact ih

end Graph

namespace Build

theorem stepsAlike_unifyTerm {entries entries' : List (Graph.Entry α)}
    (listed : List.Forall₂ (Graph.Entry.Rel matched) entries entries') :
    StepsAlike (α := α) matched (unifyTerm (Graph.axisNodes entries))
      (unifyTerm (Graph.axisNodes entries')) := by
  intro held g h entry entry' after after' grown matching rel related
  obtain ⟨node, before⟩ := entry
  obtain ⟨node', before'⟩ := entry'
  obtain ⟨pair, shape⟩ := rel
  -- Whether an input was replaced is a comparison of nodes, so here the correspondence has to be
  -- one to one, also between nodes of the old graphs and nodes that were appended since.
  have same : after.inputs = before.inputs ↔ after'.inputs = before'.inputs :=
    related.inputs_eq_iff matching.unique (shape.imp grown)
  have operator (is : before.operator?.isSome = true) :
      Alike held Nodes (unifyTerm (Graph.axisNodes entries) node before after g)
        (unifyTerm (Graph.axisNodes entries') node' before' after' h) := by
    rw [unifyTerm_operator is, unifyTerm_operator (shape.operator?_eq ▸ is)]
    by_cases kept : after.inputs = before.inputs
    · rw [if_pos kept, if_pos (same.mp kept)]
      exact .ok le_rfl matching (grown _ _ pair)
    · rw [if_neg kept, if_neg (mt same.mpr kept)]
      exact alike_insert matching related
  cases shape with
  | @axis a =>
      simp only [unifyTerm, Graph.getElem?_axisNodes]
      refine .ok le_rfl matching (grown _ _ ?_)
      rcases rel_option_cases (Graph.rel_axisNode? listed a) with ⟨absent, absent'⟩ | first
      · rw [absent, absent']
        exact pair
      · obtain ⟨k, k', first, first', pair'⟩ := first
        rw [first, first']
        exact pair'
  | const => exact .ok le_rfl matching (grown _ _ pair)
  | unary first => exact operator rfl
  | binary first second => exact operator rfl

theorem alike_unifyAxes {g h : Graph α} {root root' : Nat} (matching : Graph.Matching g h matched)
    (pair : matched root root') :
    Alike matched Nodes (unifyAxes root g) (unifyAxes root' h) := by
  obtain ⟨entries, entries', ordered, ordered', listed⟩ := matching.exists_postOrder pair
  rw [unifyAxes, unifyAxes, ordered, ordered']
  exact alike_foldEntries (stepsAlike_unifyTerm listed) matching pair listed

end Build

inductive Reduct.Rel (related : Nat → Nat → Prop) : Reduct α → Reduct α → Prop where
  | node {m n : Nat} : related m n → Rel related (.node m) (.node n)
  | constant {c : α} : Rel related (.constant c) (.constant c)
  | term {t u : Term α Nat} : Term.Rel related t u → Rel related (.term t) (.term u)
  | negatedSum {a b c d : Nat} :
      related a c → related b d → Rel related (.negatedSum a b) (.negatedSum c d)
  | scaled {a b : Nat} {c : α} : related a b → Rel related (.scaled a c) (.scaled b c)

namespace Graph

variable {g h : Graph α} {a b a' b' : Nat}

theorem Corresponds.const?_eq (corresponds : Corresponds g h matched) (pair : matched a a') :
    g.const? a = h.const? a' := by
  obtain ⟨t, u, found, found', rel⟩ := corresponds _ _ pair
  rw [const?, const?, found, found']
  exact rel.const?_eq

theorem Corresponds.rel_negand? (corresponds : Corresponds g h matched) (pair : matched a a') :
    Option.Rel matched (g.negand? a) (h.negand? a') := by
  obtain ⟨t, u, found, found', rel⟩ := corresponds _ _ pair
  rw [negand?, negand?, found, found']
  cases rel with
  | axis => exact .none
  | const => exact .none
  | @unary op _ _ first =>
      cases op with
      | neg => exact .some first
      | _ => exact .none
  | binary _ _ => exact .none

private theorem Corresponds.rel_negRule (corresponds : Corresponds g h matched)
    (pair : matched a a') :
    Option.Rel (Reduct.Rel matched) (g.negRule a) (h.negRule a') := by
  obtain ⟨t, u, found, found', rel⟩ := corresponds _ _ pair
  rw [negRule, negRule, found, found']
  cases rel with
  | axis => exact .none
  | const => exact .none
  | @unary op _ _ first =>
      cases op with
      | neg => exact .some (.node first)
      | _ => exact .none
  | @binary op _ _ _ _ first second =>
      cases op with
      | sub => exact .some (.term (.binary second first))
      | _ => exact .none

private theorem rel_ite {τ υ : Type} {related : τ → υ → Prop} {c c' : Bool} {x y : Option τ}
    {x' y' : Option υ} (same : c = c') (holds : Option.Rel related x x')
    (fails : Option.Rel related y y') :
    Option.Rel related (if c then x else y) (if c' then x' else y') := by
  subst same
  cases c with
  | true => exact holds
  | false => exact fails

private theorem Corresponds.rel_cosRule (corresponds : Corresponds g h matched)
    (pair : matched a a') :
    Option.Rel (Reduct.Rel matched) (g.cosRule a) (h.cosRule a') :=
  rel_option_map (corresponds.rel_negand? pair) fun _ _ negand => .term (.unary negand)

/-- Where two negations cancel. -/
private theorem Corresponds.rel_negands (corresponds : Corresponds g h matched)
    (first : matched a a') (second : matched b b') (op : BinaryOp) :
    Option.Rel (Reduct.Rel matched)
      (match g.negand? a, g.negand? b with
        | some p, some q => some (Reduct.term (α := α) (.binary op p q))
        | _, _ => none)
      (match h.negand? a', h.negand? b' with
        | some p, some q => some (Reduct.term (.binary op p q))
        | _, _ => none) := by
  rcases rel_option_cases (corresponds.rel_negand? first) with ⟨no, no'⟩ | ⟨p, p', is, is', negand⟩
  · simp only [no, no']
    exact .none
  rcases rel_option_cases (corresponds.rel_negand? second) with
    ⟨no, no'⟩ | ⟨q, q', also, also', negand'⟩
  · simp only [is, is', no, no']
    exact .none
  · simp only [is, is', also, also']
    exact .some (.term (.binary negand negand'))

/-- What simplification of corresponding terms ends with: corresponding nodes or none, in graphs
that correspond in the same way as before. -/
def ReducedAlike (kind : Graph α → Graph α → (Nat → Nat → Prop) → Prop)
    (matched : Nat → Nat → Prop) (x y : Option Nat × Graph α) : Prop :=
  ∃ larger, matched ≤ larger ∧ kind x.2 y.2 larger ∧ Option.Rel larger x.1 y.1

variable {kind : Graph α → Graph α → (Nat → Nat → Prop) → Prop}

theorem ReducedAlike.of_le {larger : Nat → Nat → Prop} {x y : Option Nat × Graph α}
    (grown : matched ≤ larger) (alike : ReducedAlike kind larger x y) :
    ReducedAlike kind matched x y := by
  obtain ⟨largest, further, related, result⟩ := alike
  exact ⟨largest, grown.trans further, related, result⟩

variable [Scalar α]

theorem Corresponds.isConst_eq (corresponds : Corresponds g h matched) (pair : matched a a')
    (c : α) : g.isConst a c = h.isConst a' c := by
  rw [isConst, isConst, corresponds.const?_eq pair]

private theorem Corresponds.rel_addRule (corresponds : Corresponds g h matched)
    (first : matched a a') (second : matched b b') :
    Option.Rel (Reduct.Rel matched) (g.addRule a b) (h.addRule a' b') := by
  refine rel_ite (corresponds.isConst_eq second _) (.some (.node first)) ?_
  refine rel_ite (corresponds.isConst_eq first _) (.some (.node second)) ?_
  rcases rel_option_cases (corresponds.rel_negand? first) with
    ⟨none, none'⟩ | ⟨p, p', some, some', negand⟩
  · rcases rel_option_cases (corresponds.rel_negand? second) with
      ⟨no, no'⟩ | ⟨q, q', is, is', negand'⟩
    · simp only [none, none', no, no']
      exact .none
    · simp only [none, none', is, is']
      exact .some (.term (.binary first negand'))
  · rcases rel_option_cases (corresponds.rel_negand? second) with
      ⟨no, no'⟩ | ⟨q, q', is, is', negand'⟩
    · simp only [some, some', no, no']
      exact .some (.term (.binary second negand))
    · simp only [some, some', is, is']
      exact .some (.negatedSum negand negand')

private theorem Corresponds.rel_mulRule (corresponds : Corresponds g h matched)
    (first : matched a a') (second : matched b b') :
    Option.Rel (Reduct.Rel matched) (g.mulRule a b) (h.mulRule a' b') := by
  refine rel_ite (corresponds.isConst_eq second _) (.some (.node second)) ?_
  refine rel_ite (corresponds.isConst_eq first _) (.some (.node first)) ?_
  refine rel_ite (corresponds.isConst_eq second _) (.some (.node first)) ?_
  refine rel_ite (corresponds.isConst_eq first _) (.some (.node second)) ?_
  refine rel_ite (corresponds.isConst_eq second _) (.some (.term (.unary first))) ?_
  refine rel_ite (corresponds.isConst_eq first _) (.some (.term (.unary second))) ?_
  exact corresponds.rel_negands first second .mul

private theorem Corresponds.rel_subRule (corresponds : Corresponds g h matched)
    (first : matched a a') (second : matched b b') :
    Option.Rel (Reduct.Rel matched) (g.subRule a b) (h.subRule a' b') := by
  refine rel_ite (corresponds.isConst_eq first _) (.some (.term (.unary second))) ?_
  refine rel_ite (corresponds.isConst_eq second _) (.some (.node first)) ?_
  exact rel_option_map (corresponds.rel_negand? second)
    fun _ _ negand => .term (.binary first negand)

private theorem Corresponds.rel_divRule (corresponds : Corresponds g h matched)
    (first : matched a a') (second : matched b b') :
    Option.Rel (Reduct.Rel matched) (g.divRule a b) (h.divRule a' b') := by
  refine rel_ite (corresponds.isConst_eq first _) (.some (.node first)) ?_
  refine rel_ite (corresponds.isConst_eq second _) (.some (.node first)) ?_
  refine rel_ite (corresponds.isConst_eq second _) (.some (.term (.unary first))) ?_
  rw [corresponds.const?_eq second]
  cases h.const? b' with
  | none => exact corresponds.rel_negands first second .div
  | some c => exact rel_ite rfl .none (.some (.scaled first))

/-- The rules for an operator whose inputs are not both constants. -/
private theorem Corresponds.rel_binaryRule (corresponds : Corresponds g h matched)
    (first : matched a a') (second : matched b b') (op : BinaryOp) :
    Option.Rel (Reduct.Rel matched)
      (match op with
        | .add => g.addRule a b
        | .sub => g.subRule a b
        | .mul => g.mulRule a b
        | .div => g.divRule a b
        | .min => none
        | .max => none)
      (match op with
        | .add => h.addRule a' b'
        | .sub => h.subRule a' b'
        | .mul => h.mulRule a' b'
        | .div => h.divRule a' b'
        | .min => none
        | .max => none) := by
  cases op with
  | add => exact corresponds.rel_addRule first second
  | sub => exact corresponds.rel_subRule first second
  | mul => exact corresponds.rel_mulRule first second
  | div => exact corresponds.rel_divRule first second
  | min => exact .none
  | max => exact .none

theorem Corresponds.rel_reduct? (corresponds : Corresponds g h matched) {t u : Term α Nat}
    (rel : Term.Rel matched t u) :
    Option.Rel (Reduct.Rel matched) (g.reduct? t) (h.reduct? u) := by
  cases rel with
  | axis => exact .none
  | const => exact .none
  | @unary op a a' first =>
      simp only [reduct?, corresponds.const?_eq first]
      cases h.const? a' with
      | some c => exact .some .constant
      | none =>
          cases op with
          | neg => exact corresponds.rel_negRule first
          | cos => exact corresponds.rel_cosRule first
          | _ => exact .none
  | @binary op a b a' b' first second =>
      simp only [reduct?, corresponds.const?_eq first, corresponds.const?_eq second]
      cases h.const? a' with
      | none => exact corresponds.rel_binaryRule first second op
      | some c =>
          cases h.const? b' with
          | none => exact corresponds.rel_binaryRule first second op
          | some d => exact .some .constant

theorem Appendable.reduce (appendable : Appendable kind) (related : kind g h matched) (depth : Nat)
    {t u : Term α Nat} {kept kept' : Option Nat} (rel : Term.Rel matched t u)
    (keeps : Option.Rel matched kept kept') :
    ReducedAlike kind matched (g.reduce depth t kept) (h.reduce depth u kept') := by
  -- The induction is on the depth, over every correspondence: each push on the way extends it.
  induction depth generalizing g h matched t u kept kept' with
  | zero => exact ⟨matched, le_rfl, related, .none⟩
  | succ depth ih =>
      have corresponds := appendable.corresponds related
      rcases rel_option_cases (corresponds.rel_reduct? rel) with ⟨none, none'⟩ | found
      · simp only [Graph.reduce, none, none']
        cases keeps with
        | none =>
            obtain ⟨fits, fits'⟩ := corresponds.fits rel
            simp only [dif_pos fits, dif_pos fits']
            exact ⟨_, le_withPair _ _ _, appendable.push related rel fits fits',
              .some (.inr ⟨rfl, rfl⟩)⟩
        | some pair => exact ⟨matched, le_rfl, related, .some pair⟩
      · obtain ⟨r, r', applied, applied', replaced⟩ := found
        simp only [Graph.reduce, applied, applied']
        cases replaced with
        | node pair => exact ⟨matched, le_rfl, related, .some pair⟩
        | constant =>
            exact ⟨_, le_withPair _ _ _, appendable.pushConst related _, .some (.inr ⟨rfl, rfl⟩)⟩
        | term rel => exact ih related rel .none
        | @negatedSum a b a' b' first second =>
            have sum := ih related
              (.binary first second : Term.Rel matched (.binary .add a b) (.binary .add a' b'))
              .none
            cases reduced : g.reduce depth (.binary .add a b) none with
            | mk s k =>
                cases reduced' : h.reduce depth (.binary .add a' b') none with
                | mk s' k' =>
                    rw [reduced, reduced'] at sum
                    simp only [reduced, reduced']
                    obtain ⟨larger, grown, related', result⟩ := sum
                    cases result with
                    | none => exact ⟨larger, grown, related', .none⟩
                    | some pair => exact (ih related' (.unary pair) .none).of_le grown
        | scaled pair =>
            refine (ih (appendable.pushConst related _) ?_ .none).of_le (le_withPair _ _ _)
            exact .binary (.inl pair) (.inr ⟨rfl, rfl⟩)

end Graph

namespace Build

variable [Scalar α]

/-- One step of simplification on corresponding graphs. The comparison of the inputs with those
before decides on reuse, and has to come out the same on both sides. -/
theorem simplifyTerm_alike {kind : Graph α → Graph α → (Nat → Nat → Prop) → Prop}
    (appendable : Graph.Appendable kind) {asked : Nat → Nat → Prop} {g h : Graph α} {n n' : Nat}
    {before before' after after' : Term α Nat} (related : kind g h matched) (pair : matched n n')
    (shape : Term.Rel asked before before') (rel : Term.Rel matched after after')
    (same : after.inputs = before.inputs ↔ after'.inputs = before'.inputs) :
    ∃ larger r r' k l, matched ≤ larger ∧ simplifyTerm n before after g = .ok r k ∧
      simplifyTerm n' before' after' h = .ok r' l ∧ g ≤ k ∧ kind k l larger ∧ larger r r' := by
  cases operator : before.operator? with
  | none =>
      have leaf' : before'.operator? = none := shape.operator?_eq ▸ operator
      exact ⟨matched, n, n', g, h, le_rfl, simplifyTerm_leaf operator, simplifyTerm_leaf leaf',
        le_rfl, related, pair⟩
  | some op =>
      have is : before.operator?.isSome = true := by rw [operator]; rfl
      have is' : before'.operator?.isSome = true := shape.operator?_eq ▸ is
      have keeps : Option.Rel matched (if after.inputs = before.inputs then some n else none)
          (if after'.inputs = before'.inputs then some n' else none) := by
        by_cases kept : after.inputs = before.inputs
        · rw [if_pos kept, if_pos (same.mp kept)]
          exact .some pair
        · rw [if_neg kept, if_neg (mt same.mpr kept)]
          exact .none
      obtain ⟨larger, further, related', result⟩ :=
        appendable.reduce related Graph.reduceDepth rel keeps
      rcases rel_option_cases result with ⟨none, none'⟩ | ⟨r, r', some, some', pair'⟩
      · have rel' := rel.imp further
        obtain ⟨fits, fits'⟩ := (appendable.corresponds related').fits rel'
        have grown := (Graph.le_reduce _ _ _ _).trans (Graph.le_push _ after fits)
        refine ⟨_, _, _, _, _, further.trans (Graph.le_withPair _ _ _), ?_, ?_, grown,
          appendable.push related' rel' fits fits', .inr ⟨rfl, rfl⟩⟩
        · rw [simplifyTerm_of_irreducible is (Prod.ext none rfl), insert_ok fits]
        · rw [simplifyTerm_of_irreducible is' (Prod.ext none' rfl), insert_ok fits']
      · exact ⟨larger, r, r', _, _, further, simplifyTerm_of_reduced is (Prod.ext some rfl),
          simplifyTerm_of_reduced is' (Prod.ext some' rfl), Graph.le_reduce _ _ _ _, related',
          pair'⟩

theorem stepsAlike_simplifyTerm : StepsAlike (α := α) matched simplifyTerm simplifyTerm := by
  intro held g h entry entry' after after' grown matching rel related
  have same : after.inputs = entry.term.inputs ↔ after'.inputs = entry'.term.inputs :=
    related.inputs_eq_iff matching.unique (rel.term.imp grown)
  obtain ⟨larger, r, r', k, l, further, ran, ran', _, matching', pair⟩ :=
    simplifyTerm_alike Graph.appendable_matching matching (grown _ _ rel.node) rel.term related same
  rw [ran, ran']
  exact .ok further matching' pair

theorem alike_simplify {g h : Graph α} {root root' : Nat} (matching : Graph.Matching g h matched)
    (pair : matched root root') : Alike matched Nodes (simplify root g) (simplify root' h) := by
  obtain ⟨entries, entries', ordered, ordered', listed⟩ := matching.exists_postOrder pair
  rw [simplify, simplify, fold, fold, ordered, ordered']
  exact alike_foldEntries stepsAlike_simplifyTerm matching pair listed

end Build

end SurfaceTape

import SurfaceTape.Compile
import SurfaceTape.Proofs.LoweringMeaning
import SurfaceTape.Proofs.Rewriting
import SurfaceTape.Proofs.SlotDiscipline
import SurfaceTape.Scalar.Binary

/-!
# Compilation

What the steps of compilation establish for each other: merging leaves one node for each axis, no
rule of simplification brings another one back, and lowering then finds a slot for every input and
gives a tape that passes its check. The journal plays no part in any of it.
-/

set_option autoImplicit false

namespace SurfaceTape

namespace Build

variable {α β : Type}

/-- The node that code is laid out for: the axes are merged and, on request, the result is
simplified. -/
def optimise [Scalar α] (options : Options) (root : Nat) : Build α Nat := do
  let merged ← unifyAxes root
  if options.simplify then simplify merged else pure merged

def lower [Sample β] [Narrow α β] (root : Nat) : Build α (Tape β) := fun g =>
  match g.lower root with
  | .ok tape => .ok tape g
  | .error e => .error e g

theorem Descends.axesUnified {g h : Graph α} {root out : Nat} (descends : Descends g h root out)
    (grown : g ≤ h) (inside : root < g.size) (unified : g.AxesUnified root) :
    h.AxesUnified out := by
  intro a k k' reached reached' kind kind'
  have below := descends.axes _ _ reached kind
  have below' := descends.axes _ _ reached' kind'
  rw [Graph.term?_eq_of_le grown (below.lt_size inside)] at kind
  rw [Graph.term?_eq_of_le grown (below'.lt_size inside)] at kind'
  exact unified below below' kind kind'

theorem optimise_of_absent [Scalar α] (options : Options) {g : Graph α} {root : Nat}
    (absent : g.size ≤ root) : optimise options root g = .error .badNode g :=
  bind_error (unifyAxes_of_absent absent)

theorem optimise_spec [Scalar α] (options : Options) {g : Graph α} {root : Nat}
    (inside : root < g.size) :
    ∃ out h, optimise options root g = .ok out h ∧ g ≤ h ∧ out < h.size ∧ h.AxesUnified out := by
  obtain ⟨merged, h, ran, grown, insideMerged, unified, _⟩ := unifyAxes_spec inside
  rw [optimise, bind_ok ran]
  cases options.simplify with
  | false => exact ⟨merged, h, rfl, grown, insideMerged, unified⟩
  | true =>
      obtain ⟨out, h', ran', grown', descends⟩ := simplify_spec insideMerged
      exact ⟨out, h', ran', grown.trans grown', descends.inside,
        descends.axesUnified grown' insideMerged unified⟩

end Build

namespace Compile

variable {α β τ υ : Type}

def withJournal (journal : Array Event) :
    EStateM.Result Error (Graph α) τ → EStateM.Result Error (Workspace α) τ
  | .ok result g => .ok result ⟨g, journal⟩
  | .error e g => .error e ⟨g, journal⟩

/-- But for the journal the first computation does what the second one does. -/
def Follows (c : Compile α τ) (b : Build α τ) : Prop :=
  ∀ g journal, ∃ journal', c ⟨g, journal⟩ = withJournal journal' (b g)

private theorem follows_pure (a : τ) : Follows (pure a : Compile α τ) (pure a) :=
  fun _ journal => ⟨journal, rfl⟩

private theorem Follows.bind {c : Compile α τ} {b : Build α τ} {c' : τ → Compile α υ}
    {b' : τ → Build α υ} (first : Follows c b) (next : ∀ a, Follows (c' a) (b' a)) :
    Follows (c >>= c') (b >>= b') := by
  intro g journal
  obtain ⟨journal', ran⟩ := first g journal
  cases result : b g with
  | ok a h =>
      rw [result] at ran
      obtain ⟨journal'', ran'⟩ := next a h journal'
      exact ⟨journal'', by rw [bind_ok ran, bind_ok result, ran']⟩
  | error e h =>
      rw [result] at ran
      exact ⟨journal', by rw [bind_error ran, bind_error result]; rfl⟩

private theorem follows_pass {run : Nat → Build α Nat} {root : Nat} (event : Nat → Nat → Event)
    (total : ∀ {g : Graph α}, root < g.size →
      ∃ out h, run root g = .ok out h ∧ g ≤ h ∧ out < h.size)
    (absent : ∀ {g : Graph α}, g.size ≤ root → run root g = .error .badNode g) :
    Follows (pass run event root) (run root) := by
  intro g journal
  rcases Nat.lt_or_ge root g.size with inside | outside
  · -- Both ends of the pass are nodes of the grown graph, so what is below them can be counted.
    obtain ⟨out, h, ran, grown, insideOut⟩ := total inside
    obtain ⟨before, listed, _⟩ :=
      Graph.exists_postOrder (Nat.lt_of_lt_of_le inside (Graph.size_le_of_le grown))
    obtain ⟨after, listed', _⟩ := Graph.exists_postOrder insideOut
    refine ⟨journal.push (event before.length after.length), ?_⟩
    simp only [pass, ran, Graph.nodeCount, listed, listed']
    rfl
  · exact ⟨journal, by simp only [pass, absent outside, withJournal]⟩

private theorem follows_unifyAxes (root : Nat) :
    Follows (unifyAxes root : Compile α Nat) (Build.unifyAxes root) := by
  refine follows_pass _ (fun inside => ?_) Build.unifyAxes_of_absent
  obtain ⟨out, h, ran, grown, insideOut, _⟩ := Build.unifyAxes_spec inside
  exact ⟨out, h, ran, grown, insideOut⟩

private theorem follows_simplify [Scalar α] (root : Nat) :
    Follows (simplify root : Compile α Nat) (Build.simplify root) := by
  refine follows_pass _ (fun inside => ?_) Build.simplify_of_absent
  obtain ⟨out, h, ran, grown, descends⟩ := Build.simplify_spec inside
  exact ⟨out, h, ran, grown, descends.inside⟩

private theorem check_ok {tape : Tape β} (checked : tape.check = .ok ()) (w : Workspace α) :
    check tape w = .ok () w := by
  simp only [check, checked]

private theorem follows_close (options : Options) {tape : Tape β} (checked : tape.check = .ok ()) :
    Follows (do
      if options.validate then
        check tape
      let nodes := (← get).graph.size
      report (.compiled nodes tape.code.length)
      return tape : Compile α (Tape β)) (pure tape) := by
  intro g journal
  refine ⟨journal.push (.compiled g.size tape.code.length), ?_⟩
  cases options.validate with
  | false => rfl
  | true => exact bind_ok (check_ok checked ⟨g, journal⟩)

variable [Sample β] [Narrow α β]

private theorem follows_lower (root : Nat) :
    Follows (lower root : Compile α (Tape β)) (Build.lower root) := by
  intro g journal
  refine ⟨journal ++ (g.lowering root : Lowering.Result β).journal, ?_⟩
  rw [Build.lower, Graph.lower]
  unfold lower
  dsimp only
  split <;> simp_all [withJournal]

private theorem follows_lower_bind {rest : Tape β → Compile α (Tape β)} (root : Nat)
    (quiet : ∀ tape, tape.check = .ok () → Follows (rest tape) (pure tape)) :
    Follows (lower root >>= rest) (Build.lower root) := by
  intro g journal
  obtain ⟨journal', ran⟩ := follows_lower (β := β) root g journal
  unfold Build.lower at ran ⊢
  cases lowered : (g.lower root : Except Error (Tape β)) with
  | error e =>
      simp only [lowered] at ran ⊢
      exact ⟨journal', bind_error ran⟩
  | ok tape =>
      simp only [lowered] at ran ⊢
      obtain ⟨journal'', ran'⟩ := quiet tape (Graph.check_of_lower lowered) g journal'
      exact ⟨journal'', (bind_ok ran).trans ran'⟩

variable [Scalar α]

theorem follows_run (options : Options) (root : Nat) :
    Follows (run options root : Compile α (Tape β))
      (Build.optimise options root >>= Build.lower) := by
  have emit := fun out => follows_lower_bind (α := α) (β := β) out fun _ checked =>
    follows_close options checked
  rw [Build.optimise, bind_assoc, run]
  refine (follows_unifyAxes root).bind fun merged => ?_
  cases options.simplify with
  | false => exact (follows_pure merged).bind emit
  | true => exact (follows_simplify merged).bind emit

end Compile

namespace Build

variable {α β : Type} [Scalar α] [Sample β] [Narrow α β]

/-- Compilation is optimisation followed by lowering. -/
theorem compile_eq (options : Options) (root : Nat) :
    (compile options root : Build α (Tape β)) = optimise options root >>= lower := by
  funext g
  obtain ⟨journal, ran⟩ := Compile.follows_run (β := β) options root g #[]
  rw [compile, ran]
  cases (optimise options root >>= lower : Build α (Tape β)) g <;> rfl

theorem compile_cases (options : Options) (g : Graph α) (root : Nat) :
    (g.size ≤ root ∧ optimise options root g = .error .badNode g ∧
      (compile options root : Build α (Tape β)) g = .error .badNode g) ∨
    root < g.size ∧ ∃ out h t, optimise options root g = .ok out h ∧ h.term? out = some t ∧
      ((∃ a, t = .axis a ∧
        (compile options root : Build α (Tape β)) g = .error .emptyTape h) ∨
      t.axis? = none ∧ ((∃ tape, (compile options root : Build α (Tape β)) g = .ok tape h) ∨
        ∃ field value, (compile options root : Build α (Tape β)) g =
          .error (.internal (.fieldOverflow field value)) h)) := by
  rw [compile_eq]
  rcases Nat.lt_or_ge root g.size with inside | absent
  · obtain ⟨out, h, optimised, _, insideOut, unified⟩ := optimise_spec options inside
    obtain ⟨t, stored⟩ := Graph.exists_term?_of_lt_size insideOut
    refine .inr ⟨inside, out, h, t, optimised, stored, ?_⟩
    rw [bind_ok optimised, lower]
    cases kind : t.axis? with
    | some a =>
        rw [Term.eq_axis_of_axis? kind] at stored ⊢
        rw [Graph.lower_of_axis stored]
        exact .inl ⟨a, rfl, rfl⟩
    | none =>
        refine .inr ⟨rfl, ?_⟩
        rcases Graph.lower_of_axesUnified (β := β) stored kind unified with
          ⟨tape, lowered⟩ | ⟨field, value, failed⟩
        · rw [lowered]
          exact .inl ⟨tape, rfl⟩
        · rw [failed]
          exact .inr ⟨field, value, rfl⟩
  · have failed := optimise_of_absent options absent
    exact .inl ⟨absent, failed, bind_error failed⟩

/-- How compilation ends. It fails for a missing node exactly when its root is not in the graph,
and for want of code exactly when an axis is left after optimisation. Else there is a tape, or a
number does not fit its field. Asking for the check makes no difference. -/
theorem compile_outcome (options : Options) (g : Graph α) (root : Nat) :
    let result := (compile options root : Build α (Tape β)) g
    ((∃ k, result = .error .badNode k) ↔ ¬root < g.size) ∧
    ((∃ out h, optimise options root g = .ok out h) ↔ root < g.size) ∧
    ((∃ k, result = .error .emptyTape k) ↔
      ∃ out h a, optimise options root g = .ok out h ∧ h.term? out = some (.axis a)) ∧
    ((∃ k, result = .error .badNode k) ∨ (∃ k, result = .error .emptyTape k) ∨
      (∃ tape k, result = .ok tape k) ∨
      ∃ field value k, result = .error (.internal (.fieldOverflow field value)) k) ∧
    (compile ⟨options.simplify, true⟩ root : Build α (Tape β)) g =
      compile ⟨options.simplify, false⟩ root g := by
  intro result
  have sameChecked : (compile ⟨options.simplify, true⟩ root : Build α (Tape β)) =
      compile ⟨options.simplify, false⟩ root := by
    rw [compile_eq, compile_eq]
    rfl
  rw [sameChecked]
  rcases compile_cases (β := β) options g root with
    ⟨absent, optimised, ended⟩ | ⟨inside, out, h, t, optimised, stored, rest⟩
  · simp [result, optimised, ended, Nat.not_lt.mpr absent]
  · have leaf : (∃ out h a, optimise options root g = .ok out h ∧ h.term? out = some (.axis a)) ↔
        ∃ a, t = .axis a := by
      constructor
      · rintro ⟨out', h', a, same, found⟩
        rw [optimised] at same
        cases same
        exact ⟨a, Option.some.inj (stored.symm.trans found)⟩
      · rintro ⟨a, rfl⟩
        exact ⟨out, h, a, optimised, stored⟩
    have ran : ∃ out h, optimise options root g = .ok out h := ⟨out, h, optimised⟩
    rw [leaf]
    rcases rest with ⟨a, rfl, ended⟩ | ⟨kind, rest⟩
    · simp [result, ended, inside, ran]
    · have operator : ¬∃ a, t = .axis a := by
        rintro ⟨a, rfl⟩
        cases kind
      rcases rest with ⟨tape, ended⟩ | ⟨field, value, ended⟩
      · simp [result, ended, inside, ran, operator]
      · simp [result, ended, inside, ran, operator]

theorem optimise_unsimplified {validate : Bool} {g h : Graph α} {root out : Nat}
    (ran : unifyAxes root g = .ok out h) : optimise ⟨false, validate⟩ root g = .ok out h :=
  bind_ok ran

theorem lower_of_compile {options : Options} {g h k : Graph α} {root out : Nat} {tape : Tape β}
    (optimised : optimise options root g = .ok out h)
    (compiled : compile options root g = .ok tape k) : h.lower out = .ok tape := by
  rw [compile_eq, bind_ok optimised, lower] at compiled
  cases lowered : (h.lower out : Except Error (Tape β)) with
  | error e =>
      rw [lowered] at compiled
      cases compiled
  | ok lowerTape =>
      rw [lowered] at compiled
      cases compiled
      rfl

/-- The node that merging gives has the value of the original one under every interpretation. So a
tape that was compiled without simplification computes the value of the original node, whose axes
were not merged. -/
theorem unifyAxes_keeps_meaning {g : Graph α} {root : Nat} (inside : root < g.size) :
    ∃ out h, unifyAxes root g = .ok out h ∧
      (∀ {γ : Type} (meaning : Interpretation α γ), ∃ v, g.eval meaning root = .ok v ∧
        h.eval meaning out = .ok v ∧ g.value? meaning root = some v ∧
        h.value? meaning out = some v) ∧
      ∀ {γ : Type} [Sample γ] [Narrow α γ] {validate : Bool} {tape : Tape γ} {k : Graph α},
        compile ⟨false, validate⟩ root g = .ok tape k → ∀ p : Point γ,
          ∃ v, g.value? (.atPoint Narrow.narrow p) root = some v ∧ tape.run p = .ok v := by
  obtain ⟨out, h, ran, _, _, _, same⟩ := unifyAxes_spec inside
  refine ⟨out, h, ran, ?_, ?_⟩
  · intro γ meaning
    obtain ⟨v, value⟩ := Graph.exists_value? meaning inside
    have merged := (same meaning).trans value
    exact ⟨v, Graph.eval_of_value? value, Graph.eval_of_value? merged, value, merged⟩
  · intro γ _ _ validate tape k compiled p
    obtain ⟨v, value⟩ := Graph.exists_value? (.atPoint Narrow.narrow p) inside
    refine ⟨v, value, ?_⟩
    calc tape.run p
      _ = h.eval (.atPoint Narrow.narrow p) out :=
          Graph.run_of_lower (lower_of_compile (optimise_unsimplified ran) compiled) p
      _ = .ok v := Graph.eval_of_value? ((same _).trans value)

/-- The expression `x * (x - y)`, with two nodes for the axis `x`. -/
def twinAxes : Graph Float where
  terms := #[.axis .x, .axis .x, .axis .y, .binary .sub 1 2, .binary .mul 0 3]
  acyclic := by decide

/-- Merging rebuilds both operators over the first node of `x`. -/
def mergedTwinAxes : Graph Float where
  terms := #[.axis .x, .axis .x, .axis .y, .binary .sub 1 2, .binary .mul 0 3, .binary .sub 0 2,
    .binary .mul 0 5]
  acyclic := by decide

def twinAxesTape : Tape Float32 where
  code := [⟨7, 1, 0, 1⟩, ⟨8, 0, 0, 1⟩]
  constants := []
  slotCount := 4

theorem postOrder_twinAxes : twinAxes.postOrder 4 = .ok [⟨0, .axis .x⟩, ⟨1, .axis .x⟩,
    ⟨2, .axis .y⟩, ⟨3, .binary .sub 1 2⟩, ⟨4, .binary .mul 0 3⟩] := by
  cbv

theorem compile_twinAxes :
    compile ⟨false, true⟩ 4 twinAxes = .ok twinAxesTape mergedTwinAxes := by
  have merged : unifyAxes 4 twinAxes = .ok 6 mergedTwinAxes := by
    rw [unifyAxes, postOrder_twinAxes]
    rfl
  have listed : mergedTwinAxes.postOrder 6 = .ok [⟨0, .axis .x⟩, ⟨2, .axis .y⟩,
      ⟨5, .binary .sub 0 2⟩, ⟨6, .binary .mul 0 5⟩] := by
    cbv
  have lowered : mergedTwinAxes.lower 6 = .ok twinAxesTape := by
    rw [Graph.lower_eq_lowerEntries (t := .binary .mul 0 5) rfl rfl listed]
    rfl
  rw [compile_eq, bind_ok (optimise_unsimplified merged), lower, lowered]

theorem unifyAxes_twinAxes_keeps_meaning :
    4 < twinAxes.size ∧ compile ⟨false, true⟩ 4 twinAxes = .ok twinAxesTape mergedTwinAxes ∧
      ∃ out h, unifyAxes 4 twinAxes = .ok out h ∧
        (∃ v : Float, twinAxes.evalAt ⟨3, 2, 0, 0⟩ 4 = .ok v ∧ h.evalAt ⟨3, 2, 0, 0⟩ out = .ok v) ∧
        ∃ v : Float32, twinAxes.value? (.atPoint Narrow.narrow ⟨3, 2, 0, 0⟩) 4 = some v ∧
          twinAxesTape.run ⟨3, 2, 0, 0⟩ = .ok v := by
  have inside : 4 < twinAxes.size := by decide
  obtain ⟨out, h, ran, meanings, runs⟩ := unifyAxes_keeps_meaning inside
  obtain ⟨v, value, merged, _⟩ := meanings (.atPoint id ⟨3, 2, 0, 0⟩)
  exact ⟨inside, compile_twinAxes, out, h, ran, ⟨v, value, merged⟩, runs compile_twinAxes _⟩

end Build

end SurfaceTape

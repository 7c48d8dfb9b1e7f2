import SurfaceTape.Proofs.Compilation
import SurfaceTape.Proofs.Ladder

/-!
# What simplification may cost

Simplification does not count slots. Where a sum with a negation becomes a difference, the negated
node is used later than it was, and if the negation is used elsewhere both are alive for a while. So
an expression that could be compiled may exceed the limits once it is simplified. This is the only
way in which simplification breaks a compilation.
-/

set_option autoImplicit false

namespace SurfaceTape

namespace Build

variable {α β : Type} [Scalar α] [Sample β] [Narrow α β] {g k : Graph α} {root : Nat}

/-- How compilation of a node ends is decided by what optimisation leaves: an axis, an expression
within the limits, or one beyond them. -/
theorem compile_of_limits (options : Options) (inside : root < g.size) :
    ∃ out h, optimise options root g = .ok out h ∧
      ((∃ a, h.term? out = some (.axis a)) ∧
        (compile options root : Build α (Tape β)) g = .error .emptyTape h ∨
      (∀ a, h.term? out ≠ some (.axis a)) ∧ h.WithinLimits β out ∧
        (∃ tape, (compile options root : Build α (Tape β)) g = .ok tape h) ∨
      (∀ a, h.term? out ≠ some (.axis a)) ∧ ¬h.WithinLimits β out ∧
        ∃ field value, (compile options root : Build α (Tape β)) g =
          .error (.internal (.fieldOverflow field value)) h) := by
  rcases compile_cases (β := β) options g root with
    ⟨absent, _⟩ | ⟨_, out, h, t, optimised, stored, outcome⟩
  · exact absurd inside (Nat.not_lt.mpr absent)
  have unified : h.AxesUnified out := by
    obtain ⟨out', h', optimised', _, _, unified⟩ := optimise_spec options inside
    cases optimised.symm.trans optimised'
    exact unified
  refine ⟨out, h, optimised, ?_⟩
  rcases outcome with ⟨a, rfl, ended⟩ | ⟨kind, outcome⟩
  · exact .inl ⟨⟨a, stored⟩, ended⟩
  have operator : ∀ a, h.term? out ≠ some (.axis a) := by
    intro a axis
    cases stored.symm.trans axis
    cases kind
  have limits := Graph.exists_lower_iff (β := β) stored kind unified
  rcases outcome with ⟨tape, ended⟩ | ⟨field, value, ended⟩
  · have lowered := lower_of_compile optimised ended
    exact .inr (.inl ⟨operator, limits.mp ⟨tape, lowered⟩, tape, ended⟩)
  · refine .inr (.inr ⟨operator, fun within => ?_, field, value, ended⟩)
    obtain ⟨tape, lowered⟩ := limits.mpr within
    rw [compile_eq, bind_ok optimised, lower, lowered] at ended
    cases ended

/-- A ladder of the right length can be compiled, but not once it is simplified. -/
theorem compile_ofRungs {rungs : Nat} (validate : Bool) (long : 128 < rungs)
    (short : rungs ≤ 253) :
    (∃ tape k, (compile ⟨false, validate⟩ (4 * rungs) : Build α (Tape β))
      (Ladder.ofRungs rungs) = .ok tape k) ∧
    ∃ field value k, (compile ⟨true, validate⟩ (4 * rungs) : Build α (Tape β))
      (Ladder.ofRungs rungs) = .error (.internal (.fieldOverflow field value)) k := by
  have inside : 4 * rungs < (Ladder.ofRungs rungs : Graph α).size := by
    rw [Ladder.size_ofRungs]
    omega
  have merged := unifyAxes_of_axesUnified inside (Ladder.axesUnified_ofRungs rungs _)
  constructor
  · obtain ⟨out, k, optimised, outcome⟩ := compile_of_limits (β := β) ⟨false, validate⟩ inside
    cases (optimise_unsimplified merged).symm.trans optimised
    rcases outcome with ⟨⟨a, axis⟩, _⟩ | ⟨_, _, tape, compiled⟩ | ⟨_, exceeded, _⟩
    · have zero := Ladder.eq_zero_of_axis axis
      omega
    · exact ⟨tape, _, compiled⟩
    · exact absurd (Ladder.withinLimits_ofRungs β short) exceeded
  · obtain ⟨out, h, simplified, climbs⟩ := Ladder.simplify_ofRungs (α := α) rungs
    obtain ⟨out', k, optimised, outcome⟩ := compile_of_limits (β := β) ⟨true, validate⟩ inside
    rw [optimise, bind_ok merged] at optimised
    cases simplified.symm.trans optimised
    rcases outcome with ⟨⟨a, axis⟩, _⟩ | ⟨_, limits, _⟩ | ⟨_, _, field, value, failed⟩
    · cases climbs with
      | ground _ => omega
      | rung _ _ _ _ top => cases top.symm.trans axis
    · exact absurd limits (climbs.not_withinLimits β long)
    · exact ⟨field, value, _, failed⟩

/-- Simplifying an expression that can be compiled without it leaves an axis, an expression that can
be compiled, or one that exceeds the limits. There is no other failure. -/
theorem compile_simplified_outcome {validate : Bool} {tape : Tape β} (validate' : Bool)
    (compiled : compile ⟨false, validate⟩ root g = .ok tape k) :
    ∃ merged out h, unifyAxes root g = .ok merged k ∧ k.WithinLimits β merged ∧
      simplify merged k = .ok out h ∧
      ((∃ a, h.term? out = some (.axis a)) ∧
        (compile ⟨true, validate'⟩ root : Build α (Tape β)) g = .error .emptyTape h ∨
      (∀ a, h.term? out ≠ some (.axis a)) ∧ h.WithinLimits β out ∧
        (∃ tape', (compile ⟨true, validate'⟩ root : Build α (Tape β)) g = .ok tape' h) ∨
      (∀ a, h.term? out ≠ some (.axis a)) ∧ ¬h.WithinLimits β out ∧
        ∃ field value, (compile ⟨true, validate'⟩ root : Build α (Tape β)) g =
          .error (.internal (.fieldOverflow field value)) h) := by
  have inside : root < g.size := by
    by_contra absent
    rw [compile_eq, bind_error (optimise_of_absent _ (Nat.not_lt.mp absent))] at compiled
    cases compiled
  obtain ⟨merged, m, ran, _, _, unified, _⟩ := unifyAxes_spec inside
  have optimised : optimise ⟨false, validate⟩ root g = .ok merged m := optimise_unsimplified ran
  have lowered := lower_of_compile optimised compiled
  rw [compile_eq, bind_ok optimised, lower, lowered] at compiled
  cases compiled
  obtain ⟨out, h, optimised', outcome⟩ := compile_of_limits (β := β) ⟨true, validate'⟩ inside
  refine ⟨merged, out, h, ran, Graph.withinLimits_of_lower unified lowered, ?_, outcome⟩
  rw [optimise, bind_ok ran] at optimised'
  exact optimised'

/-- A ladder of 129 rungs is rewritten, and then holds 258 values at once. -/
theorem compile_longLadder_simplified_outcome :
    ∃ (tape : Tape Float32) (merged out : Nat) (k h : Graph Float),
      compile ⟨false, true⟩ 516 (Ladder.ofRungs 129) = .ok tape k ∧
      unifyAxes 516 (Ladder.ofRungs 129) = .ok merged k ∧ k.WithinLimits Float32 merged ∧
      simplify merged k = .ok out h ∧ ¬h.WithinLimits Float32 out ∧
      ∃ field value, (compile ⟨true, true⟩ 516 : Build Float (Tape Float32)) (Ladder.ofRungs 129) =
        .error (.internal (.fieldOverflow field value)) h := by
  obtain ⟨⟨tape, k, compiled⟩, _, _, _, failed⟩ :=
    compile_ofRungs (α := Float) (β := Float32) true (show 128 < 129 by decide) (by decide)
  obtain ⟨merged, out, h, unified, limits, simplified, outcome⟩ :=
    compile_simplified_outcome true compiled
  refine ⟨tape, merged, out, k, h, compiled, unified, limits, simplified, ?_⟩
  rcases outcome with ⟨_, ended⟩ | ⟨_, _, tape', ended⟩ | ⟨_, exceeded, overflow⟩
  · cases failed.symm.trans ended
  · cases failed.symm.trans ended
  · exact ⟨exceeded, overflow⟩

/-- Simplification may break a compilation, and not only by leaving an axis. -/
theorem simplification_exceeds_limits :
    ¬∀ (g : Graph Float) (root : Nat) (tape : Tape Float32) (k : Graph Float),
      compile ⟨false, true⟩ root g = .ok tape k →
      (∃ (tape' : Tape Float32) (h : Graph Float), compile ⟨true, true⟩ root g = .ok tape' h) ∨
        ∃ h, (compile ⟨true, true⟩ root : Build Float (Tape Float32)) g = .error .emptyTape h := by
  intro survives
  obtain ⟨⟨tape, k, compiled⟩, field, value, h, failed⟩ :=
    compile_ofRungs (α := Float) (β := Float32) true (show 128 < 129 by decide) (by decide)
  rcases survives _ _ tape k compiled with ⟨tape', h', ended⟩ | ⟨h', ended⟩
  · cases failed.symm.trans ended
  · cases failed.symm.trans ended

end Build

end SurfaceTape

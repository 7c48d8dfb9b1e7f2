import SurfaceTape.Proofs.Reachability

/-!
# The meaning of a node

The plain recursive reading of an expression, from a node down to its leaves. A node that is shared
is worked out as often as it is met. The passes and the tape are compared with this reading; it
makes no use of the order in which they visit nodes.
-/

set_option autoImplicit false

namespace SurfaceTape.Graph

variable {α β : Type}

/-- The value of the expression at a node, by recursion from the node to its inputs. A node that is
not in the graph has none. -/
def value? (g : Graph α) (meaning : Interpretation α β) (n : Nat) : Option β :=
  match found : g.term? n with
  | none => none
  | some (.axis a) => some (meaning.axis a)
  | some (.const c) => some (meaning.const c)
  | some (.unary op a) =>
      have first : a < n := lt_of_mem_inputs found (by simp [Term.inputs])
      (value? g meaning a).map (meaning.unary op)
  | some (.binary op a b) =>
      have first : a < n := lt_of_mem_inputs found (by simp [Term.inputs])
      have second : b < n := lt_of_mem_inputs found (by simp [Term.inputs])
      (value? g meaning a).bind fun v => (value? g meaning b).map (meaning.binary op v)
termination_by n

/-- The value of a term over nodes of the graph. The term itself need not be stored. -/
def termValue? (g : Graph α) (meaning : Interpretation α β) (t : Term α Nat) : Option β :=
  (t.map? (g.value? meaning)).map meaning.apply

theorem value?_of_term? {g : Graph α} {meaning : Interpretation α β} {n : Nat} {t : Term α Nat}
    (found : g.term? n = some t) : g.value? meaning n = g.termValue? meaning t := by
  rw [value?]
  split
  · next absent => rw [absent] at found; cases found
  · next stored => rw [stored] at found; cases found; rfl
  · next stored => rw [stored] at found; cases found; rfl
  · next stored =>
      rw [stored] at found
      cases found
      simp [termValue?, Term.map?, Function.comp_def, Interpretation.apply]
  · next a b stored =>
      rw [stored] at found
      cases found
      simp only [termValue?, Term.map?]
      cases g.value? meaning a with
      | none => rfl
      | some v => simp [Function.comp_def, Interpretation.apply]

theorem termValue?_unary {g : Graph α} {meaning : Interpretation α β} {op : UnaryOp} {a : Nat}
    {v : β} (value : g.value? meaning a = some v) :
    g.termValue? meaning (.unary op a) = some (meaning.unary op v) := by
  simp [termValue?, Term.map?, value, Interpretation.apply]

theorem termValue?_binary {g : Graph α} {meaning : Interpretation α β} {op : BinaryOp} {a b : Nat}
    {v w : β} (first : g.value? meaning a = some v) (second : g.value? meaning b = some w) :
    g.termValue? meaning (.binary op a b) = some (meaning.binary op v w) := by
  simp [termValue?, Term.map?, first, second, Interpretation.apply]

theorem value?_of_absent {g : Graph α} {meaning : Interpretation α β} {n : Nat}
    (absent : g.size ≤ n) : g.value? meaning n = none := by
  have missing := (g.term?_eq_none_iff n).mpr absent
  rw [value?]
  split <;> simp_all

private theorem termValue?_congr {g h : Graph α} {meaning : Interpretation α β} {t : Term α Nat}
    (same : ∀ a ∈ t.inputs, g.value? meaning a = h.value? meaning a) :
    g.termValue? meaning t = h.termValue? meaning t := by
  rw [termValue?, termValue?, Term.map?_congr same]

theorem termValue?_of_rel {g h : Graph α} {meaning : Interpretation α β} {t u : Term α Nat}
    (rel : Term.Rel (fun a b => h.value? meaning b = g.value? meaning a) t u) :
    h.termValue? meaning u = g.termValue? meaning t := by
  cases rel with
  | axis => rfl
  | const => rfl
  | unary first => simp only [termValue?, Term.map?, first]
  | binary first second => simp only [termValue?, Term.map?, first, second]

theorem exists_value? {g : Graph α} (meaning : Interpretation α β) {n : Nat}
    (inside : n < g.size) : ∃ v, g.value? meaning n = some v := by
  induction n using Nat.strongRecOn with
  | ind n ih =>
      obtain ⟨t, found⟩ := exists_term?_of_lt_size inside
      have inputs : ∀ a ∈ t.inputs, ∃ v, g.value? meaning a = some v ∧
          g.value? meaning a = some v := by
        intro a member
        have earlier := lt_of_mem_inputs found member
        obtain ⟨v, value⟩ := ih a earlier (Nat.lt_trans earlier inside)
        exact ⟨v, value, value⟩
      obtain ⟨u, replaced, _⟩ := Term.exists_map?_eq_some inputs
      rw [value?_of_term? found, termValue?, replaced]
      exact ⟨meaning.apply u, rfl⟩

theorem value?_of_le {g h : Graph α} (grown : g ≤ h) (meaning : Interpretation α β) {n : Nat}
    (inside : n < g.size) : h.value? meaning n = g.value? meaning n := by
  induction n using Nat.strongRecOn with
  | ind n ih =>
      obtain ⟨t, found⟩ := exists_term?_of_lt_size inside
      rw [value?_of_term? found, value?_of_term? (term?_of_le grown found)]
      apply termValue?_congr
      intro a member
      have earlier := lt_of_mem_inputs found member
      exact ih a earlier (Nat.lt_trans earlier inside)

theorem termValue?_of_le {g h : Graph α} (grown : g ≤ h) (meaning : Interpretation α β)
    {t : Term α Nat} (fits : t.Fits g.size) :
    h.termValue? meaning t = g.termValue? meaning t :=
  termValue?_congr fun a member => value?_of_le grown meaning (fits a member)

theorem value?_push (g : Graph α) (meaning : Interpretation α β) (t : Term α Nat)
    (fits : t.Fits g.size) : (g.push t fits).value? meaning g.size = g.termValue? meaning t := by
  rw [value?_of_term? (g.term?_push_self t fits), termValue?_of_le (g.le_push t fits) meaning fits]

end SurfaceTape.Graph

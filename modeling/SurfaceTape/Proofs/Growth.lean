import SurfaceTape.Proofs.Compilation

/-!
# Graphs only grow

Whatever is done to a graph, short of clearing it, appends terms and changes none. Nodes are plain
numbers, so a command may name a node that was never made, or one of a graph that was cleared since;
nothing is assumed of the numbers that a command holds. What a failing command leaves behind is said
command by command.
-/

set_option autoImplicit false

namespace SurfaceTape

namespace Graph

variable {α β : Type}

theorem terms_prefix_of_le {g h : Graph α} (grown : g ≤ h) :
    g.terms.toList <+: h.terms.toList := by
  refine List.prefix_iff_getElem?.mpr fun n inside => ?_
  have found : g.term? n = some g.terms.toList[n] := by
    rw [term?, ← Array.getElem?_toList, List.getElem?_eq_getElem inside]
  rw [Array.getElem?_toList]
  exact term?_of_le grown found

private theorem searchAll_of_le {g h : Graph α} {starts : List Nat}
    (each : ∀ n ∈ starts, ∀ done, h.search n done = g.search n done) (done : List (Entry α)) :
    h.searchAll starts done = g.searchAll starts done := by
  induction starts generalizing done with
  | nil => rfl
  | cons n starts ih =>
      rw [searchAll, List.foldl_cons, each n List.mem_cons_self, ← searchAll,
        ih fun m member => each m (List.mem_cons_of_mem n member)]
      rfl

private theorem search_of_le {g h : Graph α} (grown : g ≤ h) {n : Nat} (inside : n < g.size)
    (done : List (Entry α)) : h.search n done = g.search n done := by
  induction n using Nat.strongRecOn generalizing done with
  | ind n ih =>
      by_cases old : n ∈ done.map Entry.node
      · rw [search_of_recorded old, search_of_recorded old]
      · obtain ⟨t, found⟩ := exists_term?_of_lt_size inside
        rw [search_of_fresh old found, search_of_fresh old (term?_of_le grown found),
          searchAll_of_le]
        intro a member done
        have earlier := lt_of_mem_inputs found member
        exact ih a earlier (Nat.lt_trans earlier inside) done

theorem postOrder_of_le {g h : Graph α} (grown : g ≤ h) {n : Nat} (inside : n < g.size) :
    h.postOrder n = g.postOrder n := by
  have insideGrown := Nat.lt_of_lt_of_le inside (size_le_of_le grown)
  rw [postOrder_eq_search insideGrown, search_of_le grown inside, postOrder_eq_search inside]

theorem eval_of_le {g h : Graph α} (grown : g ≤ h) (meaning : Interpretation α β) {n : Nat}
    (inside : n < g.size) : h.eval meaning n = g.eval meaning n := by
  rw [eval_eq_value?, eval_eq_value?, value?_of_le grown meaning inside]

end Graph

namespace Build

variable {α τ υ : Type}

def graphAfter : EStateM.Result Error (Graph α) τ → Graph α
  | .ok _ g => g
  | .error _ g => g

def Extends (b : Build α τ) : Prop := ∀ g, g ≤ graphAfter (b g)

theorem extends_pure (a : τ) : Extends (pure a : Build α τ) := fun _ => le_rfl

private theorem extends_throw (e : Error) : Extends (throw e : Build α τ) := fun _ => le_rfl

theorem Extends.bind {b : Build α τ} {next : τ → Build α υ} (first : Extends b)
    (rest : ∀ a, Extends (next a)) : Extends (b >>= next) := by
  intro g
  have grown := first g
  cases ran : b g with
  | ok a h =>
      rw [ran] at grown
      rw [bind_ok ran]
      exact grown.trans (rest a h)
  | error e h =>
      rw [ran] at grown
      rw [bind_error ran]
      exact grown

theorem Extends.map {b : Build α τ} (extends_ : Extends b) (f : τ → υ) : Extends (f <$> b) := by
  rw [map_eq_pure_bind]
  exact extends_.bind fun a => extends_pure (f a)

private theorem of_map_error {b : Build α τ} {f : τ → υ} {g h : Graph α} {e : Error}
    (failed : (f <$> b) g = .error e h) : b g = .error e h := by
  rw [map_eq_pure_bind] at failed
  cases ran : b g with
  | ok a k =>
      rw [bind_ok ran] at failed
      cases failed
  | error e' k =>
      rw [bind_error ran] at failed
      cases failed
      rfl

theorem extends_insert (t : Term α Nat) : Extends (insert t) := by
  intro g
  unfold insert
  split
  · next fits => exact g.le_push t fits
  · exact le_rfl

theorem extends_axis (a : Axis) : Extends (axis a : Build α Nat) :=
  fun g => g.le_push (.axis a) (Term.axis_fits a g.size)

theorem extends_constant (c : α) : Extends (constant c) := fun g => g.le_pushConst c

theorem extends_resolve (a : Operand α) : Extends (resolve a) := by
  cases a with
  | node n =>
      intro g
      unfold resolve
      dsimp only
      split
      · exact le_rfl
      · exact le_rfl
  | const c => exact extends_constant c

theorem extends_unary (op : UnaryOp) (a : Operand α) : Extends (unary op a) :=
  (extends_resolve a).bind fun _ => extends_insert _

theorem extends_binary (op : BinaryOp) (a b : Operand α) : Extends (binary op a b) :=
  (extends_resolve a).bind fun _ => (extends_resolve b).bind fun _ => extends_insert _

theorem extends_apply (op : Operator) (inputs : List Nat) :
    Extends (apply op inputs : Build α Nat) := by
  unfold apply
  split
  · exact extends_insert _
  · exact extends_insert _
  · exact extends_throw _

/-- A computation that works on what is below a node: it succeeds for every node of the graph, and
for any other number it does nothing. -/
structure IsPass (run : Nat → Build α Nat) : Prop where
  total : ∀ {g root}, root < g.size → ∃ out h, run root g = .ok out h ∧ g ≤ h
  absent : ∀ {g root}, g.size ≤ root → run root g = .error .badNode g

theorem isPass_unifyAxes : IsPass (unifyAxes : Nat → Build α Nat) where
  total inside := by
    obtain ⟨out, h, ran, grown, _⟩ := unifyAxes_spec inside
    exact ⟨out, h, ran, grown⟩
  absent := unifyAxes_of_absent

theorem isPass_simplify [Scalar α] : IsPass (simplify : Nat → Build α Nat) where
  total inside := by
    obtain ⟨out, h, ran, grown, _⟩ := simplify_spec inside
    exact ⟨out, h, ran, grown⟩
  absent := simplify_of_absent

theorem IsPass.graph_of_error {run : Nat → Build α Nat} (pass : IsPass run) {g h : Graph α}
    {root : Nat} {e : Error} (failed : run root g = .error e h) : g.size ≤ root ∧ h = g := by
  rcases Nat.lt_or_ge root g.size with inside | outside
  · obtain ⟨out, k, ran, _⟩ := pass.total inside
    rw [ran] at failed
    cases failed
  · rw [pass.absent outside] at failed
    cases failed
    exact ⟨outside, rfl⟩

theorem IsPass.extends_run {run : Nat → Build α Nat} (pass : IsPass run) (root : Nat) :
    Extends (run root) := by
  intro g
  rcases Nat.lt_or_ge root g.size with inside | outside
  · obtain ⟨out, h, ran, grown⟩ := pass.total inside
    rw [ran]
    exact grown
  · rw [pass.absent outside]
    exact le_rfl

theorem extends_lower {β : Type} [Sample β] [Narrow α β] (root : Nat) :
    Extends (lower root : Build α (Tape β)) := by
  intro g
  unfold lower
  split
  · exact le_rfl
  · exact le_rfl

theorem extends_compile {β : Type} [Scalar α] [Sample β] [Narrow α β] (options : Options)
    (root : Nat) : Extends (compile options root : Build α (Tape β)) := by
  rw [compile_eq, optimise]
  refine ((isPass_unifyAxes.extends_run root).bind fun merged => ?_).bind extends_lower
  split
  · exact isPass_simplify.extends_run merged
  · exact extends_pure merged

/-! What is left when a builder fails. -/

private theorem graph_of_insert_error {t : Term α Nat} {g h : Graph α} {e : Error}
    (failed : insert t g = .error e h) : h = g := by
  unfold insert at failed
  split at failed
  · cases failed
  · cases failed
    rfl

theorem graph_of_apply_error {op : Operator} {inputs : List Nat} {g h : Graph α} {e : Error}
    (failed : apply op inputs g = .error e h) : h = g := by
  unfold apply at failed
  split at failed
  · exact graph_of_insert_error failed
  · exact graph_of_insert_error failed
  · cases failed
    rfl

private theorem resolve_cases (a : Operand α) (g : Graph α) :
    (∃ n, a = .node n ∧ (resolve a g = .ok n g ∧ n < g.size ∨ resolve a g = .error .badNode g)) ∨
      ∃ c, a = .const c ∧ resolve a g = .ok g.size (g.pushConst c) := by
  cases a with
  | node n =>
      refine .inl ⟨n, rfl, ?_⟩
      unfold resolve
      dsimp only
      split
      · next inside => exact .inl ⟨rfl, inside⟩
      · exact .inr rfl
  | const c => exact .inr ⟨c, rfl, rfl⟩

/-- An operand that was resolved lies in the graph, and only a constant has made it grow. -/
private theorem of_resolve_ok {a : Operand α} {g h : Graph α} {n : Nat}
    (resolved : resolve a g = .ok n h) :
    n < h.size ∧ (h = g ∨ ∃ c, a = .const c ∧ h = g.pushConst c) := by
  rcases resolve_cases a g with ⟨m, rfl, ⟨ran, inside⟩ | failed⟩ | ⟨c, rfl, ran⟩
  · rw [ran] at resolved
    cases resolved
    exact ⟨inside, .inl rfl⟩
  · rw [failed] at resolved
    cases resolved
  · rw [ran] at resolved
    cases resolved
    exact ⟨Graph.lt_size_of_term? (g.term?_pushConst_self c), .inr ⟨c, rfl, rfl⟩⟩

private theorem graph_of_resolve_error {a : Operand α} {g h : Graph α} {e : Error}
    (failed : resolve a g = .error e h) : h = g := by
  rcases resolve_cases a g with ⟨m, rfl, ⟨ran, _⟩ | missing⟩ | ⟨c, rfl, ran⟩
  · rw [ran] at failed
    cases failed
  · rw [missing] at failed
    cases failed
    rfl
  · rw [ran] at failed
    cases failed

theorem graph_of_unary_error {op : UnaryOp} {a : Operand α} {g h : Graph α} {e : Error}
    (failed : unary op a g = .error e h) : h = g := by
  rw [unary] at failed
  cases resolved : resolve a g with
  | error e' k =>
      rw [bind_error resolved] at failed
      cases failed
      exact graph_of_resolve_error resolved
  | ok n k =>
      have fits : (Term.unary op n : Term α Nat).Fits k.size :=
        Term.fits_unary.mpr (of_resolve_ok resolved).1
      rw [bind_ok resolved, insert_ok fits] at failed
      cases failed

theorem graph_of_binary_error {op : BinaryOp} {a b : Operand α} {g h : Graph α} {e : Error}
    (failed : binary op a b g = .error e h) : h = g ∨ ∃ c, a = .const c ∧ h = g.pushConst c := by
  rw [binary] at failed
  cases resolved : resolve a g with
  | error e' k =>
      rw [bind_error resolved] at failed
      cases failed
      exact .inl (graph_of_resolve_error resolved)
  | ok n k =>
      rw [bind_ok resolved] at failed
      obtain ⟨inside, grown⟩ := of_resolve_ok resolved
      cases resolved' : resolve b k with
      | error e' l =>
          rw [bind_error resolved'] at failed
          cases failed
          cases graph_of_resolve_error resolved'
          exact grown
      | ok m l =>
          have larger := extends_resolve b k
          rw [resolved'] at larger
          have fits : (Term.binary op n m : Term α Nat).Fits l.size :=
            Term.fits_binary.mpr ⟨Nat.lt_of_lt_of_le inside (Graph.size_le_of_le larger),
              (of_resolve_ok resolved').1⟩
          rw [bind_ok resolved', insert_ok fits] at failed
          cases failed

end Build

/-- What a builder takes as an input: a node, or a number of either width. -/
inductive Argument where
  | node (n : Nat)
  | single (c : Float32)
  | double (c : Float)

namespace Argument

def operand : Argument → Operand Float
  | .node n => .node n
  | .single c => .const c.toFloat
  | .double c => .const c

end Argument

inductive Command where
  | axis (a : Axis)
  | constant (c : Float)
  | apply (op : Operator) (inputs : List Nat)
  | unary (op : UnaryOp) (a : Argument)
  | binary (op : BinaryOp) (a b : Argument)
  | unifyAxes (root : Nat)
  | simplify (root : Nat)
  | compile (options : Options) (root : Nat)
  | clear

inductive Answer where
  | node (n : Nat)
  | tape (t : Tape Float32)
  | cleared

namespace Command

def perform : Command → Build Float Answer
  | .axis a => .node <$> Build.axis a
  | .constant c => .node <$> Build.constant c
  | .apply op inputs => .node <$> Build.apply op inputs
  | .unary op a => .node <$> Build.unary op a.operand
  | .binary op a b => .node <$> Build.binary op a.operand b.operand
  | .unifyAxes root => .node <$> Build.unifyAxes root
  | .simplify root => .node <$> Build.simplify root
  | .compile options root => .tape <$> Build.compile options root
  | .clear => fun _ => .ok .cleared .empty

def run (commands : List Command) (start : Graph Float) : Graph Float :=
  commands.foldl (fun g command => Build.graphAfter (command.perform g)) start

/-- What a graph may have become when a command fails on it. -/
def Leaves (g h : Graph Float) : Command → Prop
  | .axis _ | .constant _ | .clear => False
  | .apply _ _ | .unary _ _ => h = g
  | .binary _ a _ => h = g ∨ ∃ c, a.operand = .const c ∧ h = g.pushConst c
  | .unifyAxes root | .simplify root => g.size ≤ root ∧ h = g
  | .compile _ _ => g ≤ h

theorem extends_perform {command : Command} (kept : command ≠ .clear) :
    Build.Extends command.perform := by
  cases command with
  | axis a => exact (Build.extends_axis a).map _
  | constant c => exact (Build.extends_constant c).map _
  | apply op inputs => exact (Build.extends_apply op inputs).map _
  | unary op a => exact (Build.extends_unary op a.operand).map _
  | binary op a b => exact (Build.extends_binary op a.operand b.operand).map _
  | unifyAxes root => exact (Build.isPass_unifyAxes.extends_run root).map _
  | simplify root => exact (Build.isPass_simplify.extends_run root).map _
  | compile options root => exact (Build.extends_compile options root).map _
  | clear => exact absurd rfl kept

theorem le_run {commands : List Command} (kept : .clear ∉ commands) (g : Graph Float) :
    g ≤ run commands g := by
  induction commands generalizing g with
  | nil => exact le_rfl
  | cons command rest ih =>
      rw [List.mem_cons, not_or] at kept
      rw [run, List.foldl_cons]
      exact (extends_perform (Ne.symm kept.1) g).trans (ih kept.2 _)

theorem leaves_of_perform_error {command : Command} {g h : Graph Float} {e : Error}
    (failed : command.perform g = .error e h) : command.Leaves g h := by
  cases command with
  | axis a => cases failed
  | constant c => cases failed
  | apply op inputs => exact Build.graph_of_apply_error (Build.of_map_error failed)
  | unary op a => exact Build.graph_of_unary_error (Build.of_map_error failed)
  | binary op a b => exact Build.graph_of_binary_error (Build.of_map_error failed)
  | unifyAxes root => exact Build.isPass_unifyAxes.graph_of_error (Build.of_map_error failed)
  | simplify root => exact Build.isPass_simplify.graph_of_error (Build.of_map_error failed)
  | compile options root =>
      have grown := Build.extends_compile (β := Float32) options root g
      rw [Build.of_map_error failed] at grown
      exact grown
  | clear => cases failed

/-- Over every run of commands, from the empty graph, a graph that was read from text, or any other:
the inputs of a term are earlier nodes; as long as nothing is cleared, the terms so far begin the
terms later on, and every node keeps its order, its size and its value under every interpretation;
and a command that fails leaves the graph as it was, but for the constant that a binary builder has
made of its first argument, and for what the passes of a compilation have appended. -/
theorem run_grows (start : Graph Float) (earlier later : List Command) :
    let g := run earlier start
    let h := run later g
    (∀ n t, h.term? n = some t → ∀ a ∈ t.inputs, a < n) ∧
    (.clear ∉ later → g.terms.toList <+: h.terms.toList ∧
      ∀ n < g.size, h.order n = g.order n ∧ h.nodeCount n = g.nodeCount n ∧
        ∀ {γ : Type} (meaning : Interpretation Float γ), h.eval meaning n = g.eval meaning n) ∧
    ∀ (command : Command) e k, command.perform g = .error e k → command.Leaves g k := by
  intro g h
  refine ⟨fun n t found a input => Graph.lt_of_mem_inputs found input, fun kept => ?_,
    fun command e k failed => leaves_of_perform_error failed⟩
  have grown : g ≤ h := le_run kept g
  refine ⟨Graph.terms_prefix_of_le grown, fun n inside => ?_⟩
  have listed := Graph.postOrder_of_le grown inside
  refine ⟨?_, ?_, fun meaning => Graph.eval_of_le grown meaning inside⟩
  · rw [Graph.order, listed, Graph.order]
  · rw [Graph.nodeCount, listed, Graph.nodeCount]

def twinProduct : List Command := [.axis .x, .axis .x, .binary .mul (.node 0) (.node 1)]

def twinProductLater : List Command := [.unifyAxes 2, .compile ⟨false, true⟩ 2, .simplify 9]

theorem run_twinProduct_grows :
    .clear ∉ twinProductLater ∧ 2 < (run twinProduct .empty).size ∧
      (run twinProductLater (run twinProduct .empty)).size = 5 ∧
      (run twinProductLater (run twinProduct .empty)).order 2 = (run twinProduct .empty).order 2 ∧
      (Command.binary .add (.double 0.5) (.node 9)).perform (run twinProduct .empty) =
        .error .badNode ((run twinProduct .empty).pushConst 0.5) ∧
      (Command.binary .add (.double 0.5) (.node 9)).Leaves (run twinProduct .empty)
        ((run twinProduct .empty).pushConst 0.5) := by
  have kept : .clear ∉ twinProductLater := by simp [twinProductLater]
  have inside : 2 < (run twinProduct .empty).size := by decide
  have failed : (Command.binary .add (.double 0.5) (.node 9)).perform (run twinProduct .empty) =
      .error .badNode ((run twinProduct .empty).pushConst 0.5) := by rfl
  obtain ⟨_, grows, leaves⟩ := run_grows .empty twinProduct twinProductLater
  obtain ⟨_, nodes⟩ := grows kept
  exact ⟨kept, inside, by decide +kernel, (nodes 2 inside).1, failed, leaves _ _ _ failed⟩

end Command

end SurfaceTape

import SurfaceTape.Proofs.Growth
import SurfaceTape.Proofs.RenumberedPasses

/-!
# Compilation of renumbered graphs

The tape depends on the graph below the root only, and not on how its nodes are numbered. Lowering
asks its tables for nodes and never compares their numbers, so tables for matching graphs give the
same positions and the same slots.
-/

set_option autoImplicit false

namespace SurfaceTape

open Relator

variable {matched : Nat → Nat → Prop}

namespace SlotTable

def Rel (matched : Nat → Nat → Prop) (table table' : SlotTable) : Prop :=
  List.Forall₂ (Option.Rel matched) table.cells table'.cells

variable {table table' : SlotTable}

theorem Rel.size_eq (rel : Rel matched table table') : table.size = table'.size :=
  List.Forall₂.length_eq rel

private theorem cell_eq_iff (unique : BiUnique matched) {cell cell' : Option Nat} {m n : Nat}
    (rel : Option.Rel matched cell cell') (pair : matched m n) :
    cell = some m ↔ cell' = some n := by
  cases rel with
  | none => simp
  | some holds => simpa using rel_eq unique holds pair

theorem Rel.slotOf?_eq (rel : Rel matched table table') (unique : BiUnique matched) {m n : Nat}
    (pair : matched m n) : table.slotOf? m = table'.slotOf? n := by
  obtain ⟨cells⟩ := table
  obtain ⟨cells'⟩ := table'
  simp only [Rel] at rel
  simp only [slotOf?]
  induction rel with
  | nil => rfl
  | cons head _ ih =>
      simp only [List.findIdx?_cons, cell_eq_iff unique head pair, ih]

theorem Rel.freeSlot_eq (rel : Rel matched table table') : table.freeSlot = table'.freeSlot := by
  obtain ⟨cells⟩ := table
  obtain ⟨cells'⟩ := table'
  simp only [Rel] at rel
  simp only [freeSlot]
  induction rel with
  | nil => rfl
  | cons head _ ih =>
      cases head with
      | none => simp [List.findIdx_cons]
      | some holds => simp [List.findIdx_cons, ih]

private theorem forall₂_set {τ υ : Type} {related : τ → υ → Prop} {l : List τ} {l' : List υ} {a : τ}
    {b : υ} (listed : List.Forall₂ related l l') (slot : Nat) (holds : related a b) :
    List.Forall₂ related (l.set slot a) (l'.set slot b) := by
  induction listed generalizing slot with
  | nil => exact .nil
  | cons head tail ih =>
      cases slot with
      | zero => exact .cons holds tail
      | succ slot => exact .cons head (ih slot)

theorem Rel.vacate (rel : Rel matched table table') (slot : Nat) :
    Rel matched (table.vacate slot) (table'.vacate slot) :=
  forall₂_set rel slot .none

theorem Rel.occupy (rel : Rel matched table table') {m n : Nat} (pair : matched m n) :
    Rel matched (table.occupy m) (table'.occupy n) := by
  unfold SlotTable.occupy
  dsimp only
  rw [rel.freeSlot_eq, rel.size_eq]
  split
  · exact forall₂_set rel _ (.some pair)
  · exact List.rel_append rel (.cons (.some pair) .nil)

end SlotTable

namespace Plan

variable {α β : Type}

structure Rel (matched : Nat → Nat → Prop) (plan plan' : Plan β) : Prop where
  pool : plan.pool = plan'.pool
  lastUse : ∀ {m n : Nat}, matched m n → plan.lastUse[m]? = plan'.lastUse[n]?

variable {entries entries' : List (Graph.Entry α)}

theorem lastUses_eq (unique : BiUnique matched)
    (listed : List.Forall₂ (Graph.Entry.Rel matched) entries entries') {m n : Nat}
    (pair : matched m n) : (lastUses entries)[m]? = (lastUses entries')[n]? := by
  have loop (position : Nat) (uses uses' : Std.TreeMap Nat Nat) (same : uses[m]? = uses'[n]?) :
      ((entries.zipIdx position).foldl noteUses uses)[m]? =
        ((entries'.zipIdx position).foldl noteUses uses')[n]? := by
    induction listed generalizing position uses uses' with
    | nil => exact same
    | cons head _ ih =>
        rw [List.zipIdx_cons, List.zipIdx_cons, List.foldl_cons, List.foldl_cons]
        apply ih
        have input := List.rel_mem unique pair head.term.forall₂_inputs
        simp only [getElem?_noteUses, input, same]
  exact loop 0 ∅ ∅ (by simp)

theorem rel_ofEntries [Sample β] [Narrow α β] (unique : BiUnique matched)
    (listed : List.Forall₂ (Graph.Entry.Rel matched) entries entries') :
    Rel matched (ofEntries entries : Plan β) (ofEntries entries') := by
  refine ⟨?_, lastUses_eq unique listed⟩
  have constants : entries.filterMap (fun entry => entry.term.const?.map Narrow.narrow) =
      (entries'.filterMap fun entry => entry.term.const?.map Narrow.narrow : List β) := by
    induction listed with
    | nil => rfl
    | cons head _ ih => rw [List.filterMap_cons, List.filterMap_cons, head.term.const?_eq, ih]
  exact congrArg (List.foldl addConstant []) constants

end Plan

namespace Lowering

variable {α β : Type} {plan plan' : Plan β} {table table' : SlotTable} {t u : Term α Nat}

private theorem forall₂_eraseDups (unique : BiUnique matched) {nodes nodes' : List Nat}
    (listed : List.Forall₂ matched nodes nodes') :
    List.Forall₂ matched nodes.eraseDups nodes'.eraseDups := by
  induction size : nodes.length using Nat.strongRecOn generalizing nodes nodes' with
  | ind size ih =>
      cases listed with
      | nil => exact .nil
      | @cons m n nodes nodes' pair rest =>
          rw [List.eraseDups_cons, List.eraseDups_cons]
          have kept : List.Forall₂ matched (nodes.filter fun k => !k == m)
              (nodes'.filter fun k => !k == n) := by
            refine List.rel_filter (fun k l pair' => ?_) rest
            have same : k = m ↔ l = n := rel_eq unique pair' pair
            simp [same]
          refine .cons pair (ih _ ?_ kept rfl)
          have shorter := List.length_filter_le (fun k => !k == m) nodes
          simp only [List.length_cons] at size
          omega

theorem rel_freed (unique : BiUnique matched) (plans : Plan.Rel matched plan plan')
    (tables : SlotTable.Rel matched table table') (rel : Term.Rel matched t u) (position : Nat) :
    SlotTable.Rel matched (freed plan table position t) (freed plan' table' position u) := by
  have inputs : List.Forall₂ matched (t.inputs.filter fun n => plan.isLastUse n position)
      (u.inputs.filter fun n => plan'.isLastUse n position) := by
    refine List.rel_filter (fun m n pair => ?_) rel.forall₂_inputs
    simp only [Plan.isLastUse, plans.lastUse pair]
  have cells : List.Forall₂ (fun cell cell' => cell.1 = cell'.1) (dying plan table position t)
      (dying plan' table' position u) := by
    refine List.rel_filterMap (fun m n pair => ?_) (forall₂_eraseDups unique inputs)
    rw [tables.slotOf?_eq unique pair]
    cases table'.slotOf? n with
    | none => exact .none
    | some slot => exact .some rfl
  refine List.rel_foldl (fun table table' tables cell cell' same => ?_) tables cells
  rw [same]
  exact tables.vacate cell'.1

def BothMissing {τ υ : Type} (x : Except Error τ) (y : Except Error υ) : Prop :=
  ∃ m n, x = .error (.internal (.missingSlot m)) ∧ y = .error (.internal (.missingSlot n))

private theorem slotOf_alike (unique : BiUnique matched)
    (tables : SlotTable.Rel matched table table') {m n : Nat} (pair : matched m n) :
    BothMissing (slotOf table m) (slotOf table' n) ∨
      ∃ slot, slotOf table m = .ok slot ∧ slotOf table' n = .ok slot := by
  rw [slotOf, slotOf, tables.slotOf?_eq unique pair]
  cases table'.slotOf? n with
  | none => exact .inl ⟨m, n, rfl, rfl⟩
  | some slot => exact .inr ⟨slot, rfl, rfl⟩

private theorem finish_alike (plans : Plan.Rel matched plan plan') {layout layout' : Layout}
    (tables : SlotTable.Rel matched layout.table layout'.table)
    (code : layout.code = layout'.code) :
    (finish plan layout).outcome = (finish plan' layout').outcome := by
  rw [finish, finish, code]
  cases layout'.code with
  | nil => rfl
  | cons last earlier => simp only [plans.pool, tables.size_eq]

variable [Sample β] [Narrow α β]

private theorem fields_alike (unique : BiUnique matched) (plans : Plan.Rel matched plan plan')
    (tables : SlotTable.Rel matched table table') (rel : Term.Rel matched t u) :
    BothMissing (fields plan table t) (fields plan' table' u) ∨
      ∃ chosen, fields plan table t = .ok chosen ∧ fields plan' table' u = .ok chosen := by
  cases rel with
  | axis => exact .inr ⟨none, rfl, rfl⟩
  | const =>
      rw [fields, fields, plans.pool]
      exact .inr ⟨_, rfl, rfl⟩
  | unary first =>
      simp only [fields]
      rcases slotOf_alike unique tables first with ⟨m, n, absent, absent'⟩ | ⟨slot, found, found'⟩
      · rw [absent, absent']
        exact .inl ⟨m, n, rfl, rfl⟩
      · rw [found, found']
        exact .inr ⟨_, rfl, rfl⟩
  | binary first second =>
      simp only [fields]
      rcases slotOf_alike unique tables first with ⟨m, n, absent, absent'⟩ | ⟨slot, found, found'⟩
      · rw [absent, absent']
        exact .inl ⟨m, n, rfl, rfl⟩
      rw [found, found']
      rcases slotOf_alike unique tables second with ⟨m, n, absent, absent'⟩ | ⟨slot, found, found'⟩
      · rw [absent, absent']
        exact .inl ⟨m, n, rfl, rfl⟩
      · rw [found, found']
        exact .inr ⟨_, rfl, rfl⟩

/-- Layouts with the same code that were left for the same reason, and then have corresponding
tables, or both for want of a slot. -/
def LaidAlike (matched : Nat → Nat → Prop) (x y : Layout × Option Error) : Prop :=
  (∃ m n, x.2 = some (.internal (.missingSlot m)) ∧ y.2 = some (.internal (.missingSlot n))) ∨
    x.2 = y.2 ∧ x.1.code = y.1.code ∧ SlotTable.Rel matched x.1.table y.1.table

theorem layOut_alike (unique : BiUnique matched) (plans : Plan.Rel matched plan plan')
    {entries entries' : List (Graph.Entry α)} {layout layout' : Layout} (position : Nat)
    (listed : List.Forall₂ (Graph.Entry.Rel matched) entries entries')
    (tables : SlotTable.Rel matched layout.table layout'.table)
    (code : layout.code = layout'.code) :
    LaidAlike matched (layOut plan (entries.zipIdx position) layout)
      (layOut plan' (entries'.zipIdx position) layout') := by
  induction listed generalizing position layout layout' with
  | nil => exact .inr ⟨rfl, code, tables⟩
  | @cons entry entry' _ _ head _ ih =>
      rw [List.zipIdx_cons, List.zipIdx_cons, layOut, layOut]
      rcases fields_alike unique plans tables head.term with
        ⟨m, n, absent, absent'⟩ | ⟨chosen, same, same'⟩
      · rw [assign, absent, assign, absent']
        exact .inl ⟨m, n, rfl, rfl⟩
      cases chosen with
      | none =>
          rw [assign, same, assign, same']
          exact ih _ tables code
      | some chosen =>
          obtain ⟨op, a, b⟩ := chosen
          -- The freed slots are the same, so the result takes the same slot on both sides.
          have free := rel_freed unique plans tables head.term position
          rw [assign_of_fields position same, assign_of_fields position same']
          dsimp only [Assignment.instruction]
          rw [free.freeSlot_eq]
          cases Instruction.make op
              (freed plan' layout'.table position entry'.term).freeSlot a b with
          | error e => exact .inr ⟨rfl, code, free.occupy head.node⟩
          | ok i => exact ih _ (free.occupy head.node) (congrArg (i :: ·) code)

theorem rel_start {entries entries' : List (Graph.Entry α)}
    (listed : List.Forall₂ (Graph.Entry.Rel matched) entries entries') :
    SlotTable.Rel matched (start entries).table (start entries').table := by
  refine List.forall₂_map_left_iff.mpr (List.forall₂_map_right_iff.mpr ?_)
  exact List.forall₂_same.mpr fun a _ => Graph.rel_axisNode? listed a

end Lowering

namespace Graph

open Lowering

variable {α β : Type} [Sample β] [Narrow α β] {g h : Graph α} {root root' : Nat}

/-- Lowering gives the same tape or the same failure for corresponding nodes. That each axis has one
node is needed only so that no slot is missing, since that failure carries the number of a node. -/
theorem Matching.lower_eq (matching : Matching g h matched) (pair : matched root root')
    (unified : g.AxesUnified root) :
    (g.lower root : Except Error (Tape β)) = h.lower root' := by
  obtain ⟨t, u, stored, stored', rel⟩ := matching.terms pair
  cases kind : t.axis? with
  | some a =>
      have kind' := rel.axis?_eq ▸ kind
      rw [Term.eq_axis_of_axis? kind] at stored
      rw [Term.eq_axis_of_axis? kind'] at stored'
      rw [lower_of_axis stored, lower_of_axis stored']
  | none =>
      have kind' : u.axis? = none := rel.axis?_eq ▸ kind
      obtain ⟨entries, entries', ordered, ordered', listed⟩ := matching.exists_postOrder pair
      have plans : Plan.Rel matched (.ofEntries entries : Plan β) (.ofEntries entries') :=
        Plan.rel_ofEntries matching.unique listed
      have laid := layOut_alike matching.unique plans 0 listed (rel_start listed) rfl
      cases ran : layOut (.ofEntries entries : Plan β) entries.zipIdx (start entries) with
      | mk layout failure =>
          cases ran' : layOut (.ofEntries entries' : Plan β) entries'.zipIdx (start entries') with
          | mk layout' failure' =>
              rw [ran, ran'] at laid
              have lowered := lower_of_layOut stored kind ordered ran
              rw [lowered, lower_of_layOut stored' kind' ordered' ran']
              rcases laid with ⟨m, n, missing, _⟩ | ⟨same, code, tables⟩
              · -- The numbers in the two failures may differ, but this failure does not occur.
                cases missing
                rcases lower_of_axesUnified (β := β) stored kind unified with
                  ⟨tape, made⟩ | ⟨field, value, failed⟩
                · cases lowered.symm.trans made
                · cases lowered.symm.trans failed
              · cases same
                cases failure with
                | some e => rfl
                | none => exact finish_alike plans tables code

end Graph

namespace Build

variable {α β : Type}

/-- What a computation answers, whatever the graph it leaves behind. -/
def answer {τ : Type} : EStateM.Result Error (Graph α) τ → Except Error τ
  | .ok result _ => .ok result
  | .error e _ => .error e

variable [Scalar α] {g h : Graph α} {root root' : Nat}

theorem alike_optimise (options : Options) (matching : Graph.Matching g h matched)
    (pair : matched root root') :
    Alike matched Nodes (optimise options root g) (optimise options root' h) := by
  refine (alike_unifyAxes matching pair).bind fun _ matching' pair' => ?_
  cases options.simplify with
  | true => exact alike_simplify matching' pair'
  | false => exact .ok le_rfl matching' pair'

variable [Sample β] [Narrow α β]

theorem answer_compile_eq (options : Options) (matching : Graph.Matching g h matched)
    (pair : matched root root') :
    answer (compile options root g : EStateM.Result Error (Graph α) (Tape β)) =
      answer (compile options root' h) := by
  obtain ⟨inside, inside'⟩ := matching.lt_size pair
  obtain ⟨out, k, ran, _, _, unified⟩ := optimise_spec options inside
  obtain ⟨out', k', ran', _⟩ := optimise_spec options inside'
  have alike := alike_optimise options matching pair
  rw [ran, ran'] at alike
  rw [compile_eq, compile_eq, bind_ok ran, bind_ok ran', lower, lower]
  cases alike with
  | ok _ matching' pair' =>
      rw [matching'.lower_eq pair' unified]
      cases (k'.lower out' : Except Error (Tape β)) with
      | ok tape => rfl
      | error e => rfl

/-- The same for a root that need not be in the graph. -/
theorem answer_compile_of_injOn (options : Options) {f : Nat → Nat}
    (injective : Set.InjOn f {n | g.Reaches root n})
    (term : ∀ n, g.Reaches root n → h.term? (f n) = (g.term? n).map (Term.map f)) :
    answer (compile options root g : EStateM.Result Error (Graph α) (Tape β)) =
      answer (compile options (f root) h) := by
  rcases Nat.lt_or_ge root g.size with inside | absent
  · exact answer_compile_eq options (Graph.matching_of_injOn inside injective term) ⟨.refl, rfl⟩
  · have absent' : h.size ≤ f root := by
      rw [← Graph.term?_eq_none_iff, term root .refl, (g.term?_eq_none_iff root).mpr absent]
      rfl
    rw [compile_eq, compile_eq, bind_error (optimise_of_absent options absent),
      bind_error (optimise_of_absent options absent')]
    rfl

theorem answer_compile_of_agree (options : Options)
    (agree : ∀ n, g.Reaches root n → h.term? n = g.term? n) :
    answer (compile options root g : EStateM.Result Error (Graph α) (Tape β)) =
      answer (compile options root h) := by
  refine answer_compile_of_injOn options (Set.injOn_id _) fun n reached => ?_
  have same : (Term.map id : Term α Nat → Term α Nat) = id := by
    funext t
    cases t <;> rfl
  rw [same, Option.map_id]
  exact agree n reached

end Build

namespace Command

/-- Compilation answers for the graph below its root. Whatever the values are, the answer is alike
for isomorphic graphs below the root and for graphs that agree there, whatever else they hold. It is
alike before and after anything that is done to a graph but clearing it. The answer is a tape, with
its code, its constants and its number of slots, or a failure. -/
theorem compile_determined_below (options : Options) (root : Nat) :
    (∀ (α β : Type) [Scalar α] [Sample β] [Narrow α β] (g h : Graph α),
      let compiled (g : Graph α) (root : Nat) : Except Error (Tape β) :=
        Build.answer (Build.compile options root g)
      (∀ root' f, g.Isomorphism root h root' f → compiled g root = compiled h root') ∧
      ((∀ n, g.Reaches root n → h.term? n = g.term? n) → compiled g root = compiled h root)) ∧
    ∀ (g : Graph Float) (commands : List Command), .clear ∉ commands → root < g.size →
      let compiled (g : Graph Float) : Except Error (Tape Float32) :=
        Build.answer (Build.compile options root g)
      compiled g = compiled (run commands g) := by
  constructor
  · intro α β _ _ _ g h
    refine ⟨fun root' f iso => ?_, fun agree => Build.answer_compile_of_agree options agree⟩
    rw [← iso.atRoot]
    exact Build.answer_compile_of_injOn options iso.bijective.injOn iso.term
  · intro g commands kept inside
    refine Build.answer_compile_of_agree options fun n reached => ?_
    exact Graph.term?_eq_of_le (le_run kept g) (reached.lt_size inside)

/-- The expression `x * (x - y)` again, in another order and among other nodes. -/
def scatteredTwinAxes : Graph Float where
  terms := #[.axis .z, .axis .y, .axis .x, .unary .sqrt 0, .axis .x, .binary .sub 2 1,
    .binary .mul 4 5]
  acyclic := by decide

def scatter (n : Nat) : Nat := [4, 2, 1, 5, 6].getD n 0

theorem compile_twinAxes_determined_below :
    Build.twinAxes.Isomorphism 4 scatteredTwinAxes 6 scatter ∧
      Build.answer (Build.compile ⟨false, true⟩ 4 Build.twinAxes) = .ok Build.twinAxesTape ∧
      Build.answer (Build.compile ⟨false, true⟩ 6 scatteredTwinAxes) = .ok Build.twinAxesTape ∧
      Build.answer (Build.compile ⟨false, true⟩ 4
        (run [.unifyAxes 4, .compile ⟨true, true⟩ 3] Build.twinAxes)) = .ok Build.twinAxesTape := by
  have listed := Graph.mem_order_iff
    (show Build.twinAxes.order 4 = .ok [0, 1, 2, 3, 4] by cbv)
  have listed' := Graph.mem_order_iff
    (show scatteredTwinAxes.order 6 = .ok [4, 2, 1, 5, 6] by cbv)
  have iso : Build.twinAxes.Isomorphism 4 scatteredTwinAxes 6 scatter := by
    refine ⟨rfl, ?_, ?_⟩
    · have maps : ∀ n ∈ [0, 1, 2, 3, 4], scatter n ∈ [4, 2, 1, 5, 6] := by decide
      have injective : ∀ m ∈ [0, 1, 2, 3, 4], ∀ n ∈ [0, 1, 2, 3, 4],
          scatter m = scatter n → m = n := by decide
      have onto : ∀ k ∈ [4, 2, 1, 5, 6], ∃ n ∈ [0, 1, 2, 3, 4], scatter n = k := by decide
      simp only [← listed, ← listed']
      exact ⟨maps, fun m inside n inside' => injective m inside n inside', onto⟩
    · intro n reached
      have member := (listed n).mpr reached
      simp only [List.mem_cons, List.not_mem_nil, or_false] at member
      rcases member with rfl | rfl | rfl | rfl | rfl <;> rfl
  obtain ⟨below, again⟩ := compile_determined_below ⟨false, true⟩ 4
  obtain ⟨renumbered, _⟩ := below Float Float32 Build.twinAxes scatteredTwinAxes
  have compiled : Build.answer (Build.compile ⟨false, true⟩ 4 Build.twinAxes) =
      .ok Build.twinAxesTape := by
    rw [Build.compile_twinAxes]
    rfl
  exact ⟨iso, compiled, (renumbered _ _ iso).symm.trans compiled,
    (again _ _ (by simp) (by decide)).symm.trans compiled⟩

end Command

end SurfaceTape

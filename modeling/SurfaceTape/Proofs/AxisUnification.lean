import SurfaceTape.Graph.Axes
import SurfaceTape.Proofs.Folding
import Mathlib.Data.List.Basic

/-!
# Merging axes keeps the meaning

The node that replaces another one has the same value under every interpretation, and below it each
axis is represented by the first node of that axis in the post-order. Both facts are properties of
single results and go through the fold together.
-/

set_option autoImplicit false

namespace SurfaceTape

theorem Term.eq_axis_of_axis? {α ν : Type} {t : Term α ν} {a : Axis} (found : t.axis? = some a) :
    t = .axis a := by
  cases t with
  | axis b =>
      cases found
      rfl
  | const c => cases found
  | unary op b => cases found
  | binary op b c => cases found

namespace Graph

variable {α β : Type}

/-- Below the node, no axis has two nodes. -/
def AxesUnified (g : Graph α) (root : Nat) : Prop :=
  ∀ {a : Axis} {k k' : Nat}, g.Reaches root k → g.Reaches root k' →
    g.term? k = some (.axis a) → g.term? k' = some (.axis a) → k = k'

theorem axesUnified_of_le {g h : Graph α} (grown : g ≤ h) {root : Nat} (inside : root < g.size)
    (unified : g.AxesUnified root) : h.AxesUnified root := by
  intro a k k' reached reached' kind kind'
  rw [reaches_iff_of_le grown inside] at reached reached'
  rw [term?_eq_of_le grown (reached.lt_size inside)] at kind
  rw [term?_eq_of_le grown (reached'.lt_size inside)] at kind'
  exact unified reached reached' kind kind'

theorem axesUnified_of_axis {g : Graph α} {root : Nat} {a : Axis}
    (stored : g.term? root = some (.axis a)) : g.AxesUnified root := by
  have alone : ∀ {k}, g.Reaches root k → k = root := by
    intro k reached
    rcases (reaches_iff stored).mp reached with same | ⟨b, input, _⟩
    · exact same
    · cases input
  intro _ k k' reached reached' _ _
  exact (alone reached).trans (alone reached').symm

theorem getElem?_axisNodes (entries : List (Entry α)) (a : Axis) :
    (axisNodes entries)[a.slot]? = some (axisNode? entries a) := by
  rw [axisNodes, List.getElem?_map, Axis.all_getElem?_slot]
  rfl

theorem Ordered.axisNode?_spec {g : Graph α} {root : Nat} {entries : List (Entry α)}
    (ordered : g.Ordered root entries) {a : Axis} {k : Nat}
    (found : axisNode? entries a = some k) : g.term? k = some (.axis a) ∧ g.Reaches root k := by
  obtain ⟨entry, first, rfl⟩ := Option.map_eq_some_iff.mp found
  have member := List.mem_of_find?_eq_some first
  have kind := Term.eq_axis_of_axis? (by simpa using List.find?_some first)
  refine ⟨kind ▸ ordered.term? member, ?_⟩
  rw [← ordered.mem_iff]
  exact List.mem_map_of_mem member

theorem Ordered.exists_axisNode? {g : Graph α} {root : Nat} {entries : List (Entry α)}
    (ordered : g.Ordered root entries) {a : Axis} {n : Nat} (reached : g.Reaches root n)
    (stored : g.term? n = some (.axis a)) : ∃ k, axisNode? entries a = some k := by
  obtain ⟨entry, member, rfl⟩ := List.mem_map.mp ((ordered.mem_iff n).mpr reached)
  have kind : entry.term = .axis a := by
    have listed := ordered.term? member
    rw [stored] at listed
    exact (Option.some.inj listed).symm
  cases first : entries.find? fun entry => entry.term.axis? = some a with
  | none =>
      have excluded := List.find?_eq_none.mp first entry member
      simp [kind, Term.axis?] at excluded
  | some found => exact ⟨found.node, by rw [axisNode?, first]; rfl⟩

def LeadsAxis (g : Graph α) (root : Nat) (a : Axis) (n : Nat) : Prop :=
  ∃ before after, g.order root = .ok (before ++ n :: after) ∧ g.term? n = some (.axis a) ∧
    ∀ m ∈ before, g.term? m ≠ some (.axis a)

theorem LeadsAxis.reaches {g : Graph α} {root n : Nat} {a : Axis} (leads : g.LeadsAxis root a n) :
    g.Reaches root n := by
  obtain ⟨_, _, nodes, _⟩ := leads
  exact (mem_order_iff nodes n).mp (by simp)

theorem LeadsAxis.axis {g : Graph α} {root n : Nat} {a : Axis} (leads : g.LeadsAxis root a n) :
    g.term? n = some (.axis a) := by
  obtain ⟨_, _, _, axis, _⟩ := leads
  exact axis

/-- The node is an axis, and another node of that axis comes before it. -/
def RepeatsAxis (g : Graph α) (root n : Nat) : Prop :=
  ∃ a before after m, g.order root = .ok (before ++ n :: after) ∧ g.term? n = some (.axis a) ∧
    m ∈ before ∧ g.term? m = some (.axis a)

theorem RepeatsAxis.exists_axis {g : Graph α} {root n : Nat} (repeats : g.RepeatsAxis root n) :
    ∃ a, g.term? n = some (.axis a) := by
  obtain ⟨a, _, _, _, _, axis, _⟩ := repeats
  exact ⟨a, axis⟩

theorem RepeatsAxis.reaches {g : Graph α} {root n : Nat} (repeats : g.RepeatsAxis root n) :
    g.Reaches root n := by
  obtain ⟨_, _, _, _, nodes, _⟩ := repeats
  exact (mem_order_iff nodes n).mp (by simp)

theorem leadsAxis_of_axisNode? {g : Graph α} {root n : Nat} {a : Axis} {entries : List (Entry α)}
    (listed : g.postOrder root = .ok entries) (first : axisNode? entries a = some n) :
    g.LeadsAxis root a n := by
  have ordered := (Ordered.of_postOrder listed).2
  have kind := (ordered.axisNode?_spec first).1
  obtain ⟨entry, found, rfl⟩ := Option.map_eq_some_iff.mp first
  obtain ⟨_, before, after, split, others⟩ := List.find?_eq_some_iff_append.mp found
  refine ⟨before.map Entry.node, after.map Entry.node, ?_, kind, fun m member axis => ?_⟩
  · rw [order_of_postOrder listed, split, List.map_append, List.map_cons]
  · obtain ⟨earlier, among, rfl⟩ := List.mem_map.mp member
    have stored := ordered.term? (split ▸ List.mem_append_left _ among)
    have term : earlier.term = .axis a := Option.some.inj (stored.symm.trans axis)
    have excluded := others earlier among
    simp [term, Term.axis?] at excluded

/-- Of the nodes of an axis, the first one is the only one that repeats none. -/
theorem LeadsAxis.repeatsAxis_iff {g : Graph α} {root k n : Nat} {a : Axis}
    (leads : g.LeadsAxis root a k) (reached : g.Reaches root n)
    (axis : g.term? n = some (.axis a)) : g.RepeatsAxis root n ↔ n ≠ k := by
  obtain ⟨before, after, nodes, kind, others⟩ := leads
  constructor
  · rintro ⟨b, before', after', m, nodes', axis', member, axisM⟩ rfl
    cases axis'.symm.trans axis
    have once := nodup_order nodes
    rw [List.nodup_append, List.nodup_cons] at once
    have alone : n ∉ before := fun listed => once.2.2 n listed n List.mem_cons_self rfl
    have split := Except.ok.inj (nodes.symm.trans nodes')
    obtain ⟨rfl, _, _⟩ :=
      (List.append_cons_inj_of_notMem alone once.2.1.1).mp split
    exact others m member axisM
  · intro other
    have listed := (mem_order_iff nodes n).mpr reached
    rcases List.mem_append.mp listed with earlier | later
    · exact absurd axis (others n earlier)
    · obtain ⟨between, rest, rfl⟩ := List.append_of_mem (List.mem_of_ne_of_mem other later)
      refine ⟨a, before ++ k :: between, rest, k, ?_, axis, by simp, kind⟩
      rw [nodes]
      simp

theorem LeadsAxis.not_repeatsAxis {g : Graph α} {root n : Nat} {a : Axis}
    (leads : g.LeadsAxis root a n) : ¬g.RepeatsAxis root n :=
  fun repeats => (leads.repeatsAxis_iff leads.reaches leads.axis).mp repeats rfl

theorem LeadsAxis.unique {g : Graph α} {root m n : Nat} {a : Axis} (leads : g.LeadsAxis root a m)
    (leads' : g.LeadsAxis root a n) : m = n := by
  by_contra other
  exact leads.not_repeatsAxis ((leads'.repeatsAxis_iff leads.reaches leads.axis).mpr other)

theorem RepeatsAxis.not_axesUnified {g : Graph α} {root n : Nat} (inside : root < g.size)
    (repeats : g.RepeatsAxis root n) : ¬g.AxesUnified root := by
  intro unified
  obtain ⟨a, before, after, m, nodes, axis, member, axis'⟩ := repeats
  have listed : n ∈ before ++ n :: after ∧ m ∈ before ++ n :: after := by simp [member]
  have reached := (mem_order_iff nodes n).mp listed.1
  have same := unified reached ((mem_order_iff nodes m).mp listed.2) axis axis'
  exact (closed_of_order inside nodes member).1 (same ▸ List.mem_cons_self)

end Graph

namespace Build

variable {α : Type}

structure Unified (g : Graph α) (entries : List (Graph.Entry α)) (h : Graph α) (n r : Nat) :
    Prop where
  inside : r < h.size
  value : ∀ {β : Type} (meaning : Interpretation α β), h.value? meaning r = g.value? meaning n
  axes : h.AxesBelow r fun k a => Graph.axisNode? entries a = some k

theorem Unified.grow {g h h' : Graph α} {entries : List (Graph.Entry α)} {n r : Nat}
    (grown : h ≤ h') (unified : Unified g entries h n r) : Unified g entries h' n r where
  inside := Nat.lt_of_lt_of_le unified.inside (Graph.size_le_of_le grown)
  value meaning := (Graph.value?_of_le grown meaning unified.inside).trans (unified.value meaning)
  axes := Graph.axesBelow_of_le grown unified.inside unified.axes

/-- A constant, or an operator none of whose inputs is replaced, stays. -/
private theorem unified_of_kept {g h : Graph α} {entries : List (Graph.Entry α)} {n : Nat}
    {before after : Term α Nat} (grown : g ≤ h) (stored : g.term? n = some before)
    (operator : before.axis? = none) (rel : Term.Rel (Unified g entries h) before after)
    (same : after.inputs = before.inputs) : Unified g entries h n n := by
  have found := Graph.term?_of_le grown stored
  refine ⟨Graph.lt_size_of_term? found,
    fun meaning => Graph.value?_of_le grown meaning (Graph.lt_size_of_term? stored), ?_⟩
  refine Graph.axesBelow_of_term? found operator fun b input => ?_
  obtain ⟨_, _, unified⟩ := rel.exists_of_mem_inputs (same ▸ input)
  exact unified.axes

private theorem unified_of_inserted {g h : Graph α} {entries : List (Graph.Entry α)} {n : Nat}
    {before after : Term α Nat} (stored : g.term? n = some before)
    (operator : after.axis? = none) (rel : Term.Rel (Unified g entries h) before after)
    (fits : after.Fits h.size) : Unified g entries (h.push after fits) n h.size := by
  refine ⟨by simp, ?_, ?_⟩
  · intro β meaning
    rw [Graph.value?_push, Graph.value?_of_term? stored]
    exact Graph.termValue?_of_rel (rel.imp fun _ _ unified => unified.value meaning)
  · refine Graph.axesBelow_of_term? (h.term?_push_self after fits) operator fun b input => ?_
    obtain ⟨_, _, unified⟩ := rel.exists_of_mem_inputs input
    exact (unified.grow (h.le_push after fits)).axes

private theorem unified_of_axis {g h : Graph α} {root n k : Nat} {entries : List (Graph.Entry α)}
    {a : Axis} (ordered : g.Ordered root entries) (grown : g ≤ h)
    (stored : g.term? n = some (.axis a)) (first : Graph.axisNode? entries a = some k) :
    Unified g entries h n k := by
  have found := Graph.term?_of_le grown (ordered.axisNode?_spec first).1
  refine ⟨Graph.lt_size_of_term? found, ?_, ?_⟩
  · intro β meaning
    rw [Graph.value?_of_term? found, Graph.value?_of_term? stored]
    rfl
  · intro j b reached kind
    rcases (Graph.reaches_iff found).mp reached with rfl | ⟨_, input, _⟩
    · rw [found] at kind
      cases kind
      exact first
    · cases input

theorem unifyTerm_operator {axes : List (Option Nat)} {n : Nat} {before after : Term α Nat}
    (operator : before.operator?.isSome = true) :
    unifyTerm axes n before after =
      if after.inputs = before.inputs then pure n else insert after := by
  cases before with
  | axis a => cases operator
  | const c => cases operator
  | unary op a => rfl
  | binary op a b => rfl

private theorem unifyTerm_operator_spec {g h : Graph α} {n : Nat} {entries : List (Graph.Entry α)}
    {before after : Term α Nat} (grown : g ≤ h) (stored : g.term? n = some before)
    (operator : before.operator?.isSome = true)
    (rel : Term.Rel (Unified g entries h) before after) :
    ∃ r h', unifyTerm (Graph.axisNodes entries) n before after h = .ok r h' ∧ h ≤ h' ∧
      Unified g entries h' n r := by
  rw [unifyTerm_operator operator]
  by_cases same : after.inputs = before.inputs
  · rw [if_pos same]
    exact ⟨n, h, rfl, le_rfl,
      unified_of_kept grown stored (Term.axis?_of_operator operator) rel same⟩
  · have fits := rel.fits fun _ _ unified => unified.inside
    rw [if_neg same]
    exact ⟨h.size, h.push after fits, insert_ok fits, h.le_push after fits,
      unified_of_inserted stored (rel.axis?_of_operator operator) rel fits⟩

theorem unifyTerm_spec {g h : Graph α} {root n : Nat} {entries : List (Graph.Entry α)}
    {before after : Term α Nat} (ordered : g.Ordered root entries) (grown : g ≤ h)
    (stored : g.term? n = some before) (reached : g.Reaches root n)
    (rel : Term.Rel (Unified g entries h) before after) :
    ∃ r h', unifyTerm (Graph.axisNodes entries) n before after h = .ok r h' ∧ h ≤ h' ∧
      Unified g entries h' n r := by
  cases rel with
  | @axis a =>
      obtain ⟨k, first⟩ := ordered.exists_axisNode? reached stored
      refine ⟨k, h, ?_, le_rfl, unified_of_axis ordered grown stored first⟩
      rw [unifyTerm, Graph.getElem?_axisNodes, first]
      rfl
  | const => exact ⟨n, h, rfl, le_rfl, unified_of_kept grown stored rfl .const rfl⟩
  | unary first => exact unifyTerm_operator_spec grown stored rfl (.unary first)
  | binary first second => exact unifyTerm_operator_spec grown stored rfl (.binary first second)

/-- Merging succeeds below every node of the graph. The result has the meaning of the node, and no
axis has two nodes below it. -/
theorem unifyAxes_spec {g : Graph α} {root : Nat} (inside : root < g.size) :
    ∃ out h, unifyAxes root g = .ok out h ∧ g ≤ h ∧ out < h.size ∧ h.AxesUnified out ∧
      ∀ {β : Type} (meaning : Interpretation α β),
        h.value? meaning out = g.value? meaning root := by
  obtain ⟨entries, listed, ordered⟩ := Graph.exists_postOrder inside
  obtain ⟨out, h, ran, grown, unified⟩ :=
    foldEntries_induct ordered (Unified g entries) Unified.grow (unifyTerm_spec ordered)
  refine ⟨out, h, ?_, grown, unified.inside, ?_, unified.value⟩
  · rw [unifyAxes, listed]
    exact ran
  · intro a k k' reached reached' kind kind'
    have first := unified.axes k a reached kind
    have first' := unified.axes k' a reached' kind'
    exact Option.some.inj (first.symm.trans first')

theorem unifyTerm_of_axesUnified {g : Graph α} {root n : Nat} {t : Term α Nat}
    {entries : List (Graph.Entry α)} (ordered : g.Ordered root entries)
    (unified : g.AxesUnified root) (stored : g.term? n = some t) (reached : g.Reaches root n) :
    unifyTerm (Graph.axisNodes entries) n t t g = .ok n g := by
  cases t with
  | axis a =>
      obtain ⟨k, first⟩ := ordered.exists_axisNode? reached stored
      obtain ⟨kind, below⟩ := ordered.axisNode?_spec first
      rw [unifyTerm, Graph.getElem?_axisNodes, first, unified below reached kind stored]
      rfl
  | const c => rfl
  | unary op a =>
      rw [unifyTerm_operator rfl, if_pos rfl]
      rfl
  | binary op a b =>
      rw [unifyTerm_operator rfl, if_pos rfl]
      rfl

/-- Where no axis has two nodes, merging changes nothing. -/
theorem unifyAxes_of_axesUnified {g : Graph α} {root : Nat} (inside : root < g.size)
    (unified : g.AxesUnified root) : unifyAxes root g = .ok root g := by
  obtain ⟨entries, listed, ordered⟩ := Graph.exists_postOrder inside
  obtain ⟨t, stored⟩ := Graph.exists_term?_of_lt_size inside
  rw [unifyAxes, listed]
  refine foldEntries_of_kept ordered ?_ stored
    (unifyTerm_of_axesUnified ordered unified stored .refl)
  intro n u stored' reached _
  exact unifyTerm_of_axesUnified ordered unified stored' reached

theorem unifyAxes_of_absent {g : Graph α} {root : Nat} (absent : g.size ≤ root) :
    unifyAxes root g = .error .badNode g := by
  rw [unifyAxes, Graph.postOrder_of_absent absent]

end Build

end SurfaceTape

import SurfaceTape.Proofs.AxisSharing
import Mathlib.Data.Set.Card

/-!
# What merging replaces

Merging the axes below a root replaces the nodes that repeat an axis and the operators above them,
and no others. Each of these operators is rebuilt once, so what was shared stays shared. A search of
the result meets the replacements in the order in which the nodes were met before, apart from axes
that it has met already.
-/

set_option autoImplicit false

namespace SurfaceTape

private theorem eraseDups_concat {ν : Type} [BEq ν] [LawfulBEq ν] {l : List ν} {a : ν} :
    (a ∈ l → (l ++ [a]).eraseDups = l.eraseDups) ∧
      (a ∉ l → (l ++ [a]).eraseDups = l.eraseDups ++ [a]) := by
  constructor
  · intro member
    simp [List.eraseDups_append, List.removeAll, member]
  · intro fresh
    simp [List.eraseDups_append, List.removeAll, fresh, List.eraseDups_cons]

namespace Graph

variable {α : Type} {g h : Graph α} {root : Nat} {matched : Nat → Nat → Prop}

/-- A node that repeats an axis lies at the node or below it. -/
def Changed (g : Graph α) (root n : Nat) : Prop := ∃ k, g.Reaches n k ∧ g.RepeatsAxis root k

theorem changed_iff {n : Nat} {t : Term α Nat} (stored : g.term? n = some t) :
    g.Changed root n ↔ g.RepeatsAxis root n ∨ ∃ a ∈ t.inputs, g.Changed root a := by
  constructor
  · rintro ⟨k, reached, repeats⟩
    rcases (reaches_iff stored).mp reached with rfl | ⟨a, input, below⟩
    · exact .inl repeats
    · exact .inr ⟨a, input, k, below, repeats⟩
  · rintro (repeats | ⟨a, input, k, below, repeats⟩)
    · exact ⟨n, .refl, repeats⟩
    · exact ⟨k, (reaches_input stored input).trans below, repeats⟩

/-- An axis has nothing below it. -/
private theorem changed_axis_iff {n : Nat} {a : Axis} (stored : g.term? n = some (.axis a)) :
    g.Changed root n ↔ g.RepeatsAxis root n := by
  rw [changed_iff stored]
  simp [Term.inputs]

theorem changed_iff_of_axis?_eq_none {n : Nat} {t : Term α Nat} (stored : g.term? n = some t)
    (other : t.axis? = none) : g.Changed root n ↔ ∃ a ∈ t.inputs, g.Changed root a := by
  rw [changed_iff stored]
  constructor
  · rintro (repeats | below)
    · obtain ⟨a, axis⟩ := repeats.exists_axis
      cases axis.symm.trans stored
      cases other
    · exact below
  · exact .inr

theorem changed_root_iff (inside : root < g.size) : g.Changed root root ↔ ¬g.AxesUnified root := by
  constructor
  · rintro ⟨k, _, repeats⟩
    exact repeats.not_axesUnified inside
  · intro shared
    by_contra unchanged
    apply shared
    intro a k k' reached reached' axis axis'
    obtain ⟨entries, listed, ordered⟩ := exists_postOrder inside
    obtain ⟨m, first⟩ := ordered.exists_axisNode? reached axis
    have leads := leadsAxis_of_axisNode? listed first
    -- A second node of the axis would repeat it, and it lies below the root.
    have leading : ∀ n, g.Reaches root n → g.term? n = some (.axis a) → n = m := by
      intro n below kind
      by_contra other
      exact unchanged ⟨n, below, (leads.repeatsAxis_iff below kind).mpr other⟩
    exact (leading k reached axis).trans (leading k' reached' axis').symm

private theorem not_changed_const {n : Nat} {c : α} (constant : g.term? n = some (.const c)) :
    ¬g.Changed root n := by
  rw [changed_iff_of_axis?_eq_none constant rfl]
  simp [Term.inputs]

def rebuilt (g : Graph α) (root : Nat) : Set Nat := {n | n ∈ g.operators root ∧ g.Changed root n}

theorem finite_reached (g : Graph α) (root : Nat) : {n | g.Reaches root n}.Finite :=
  (Set.finite_le_nat root).subset fun _ reached => reached.le

theorem finite_rebuilt (g : Graph α) (root : Nat) : (g.rebuilt root).Finite :=
  (g.finite_reached root).subset fun _ member => member.1.1

def rebuiltAmong (g : Graph α) (root : Nat) (entries : List (Entry α)) : Set Nat :=
  {n | n ∈ g.rebuilt root ∧ n ∈ entries.map Entry.node}

private theorem rebuiltAmong_concat_of_mem {earlier : List (Entry α)} {entry : Entry α}
    (changed : entry.node ∈ g.rebuilt root) :
    g.rebuiltAmong root (earlier ++ [entry]) = insert entry.node (g.rebuiltAmong root earlier) := by
  ext n
  grind [rebuiltAmong]

private theorem rebuiltAmong_concat_of_not_mem {earlier : List (Entry α)} {entry : Entry α}
    (kept : entry.node ∉ g.rebuilt root) :
    g.rebuiltAmong root (earlier ++ [entry]) = g.rebuiltAmong root earlier := by
  ext n
  grind [rebuiltAmong]

theorem nodeCount_eq_ncard (inside : root < g.size) :
    g.nodeCount root = .ok {n | g.Reaches root n}.ncard := by
  obtain ⟨entries, listed, ordered⟩ := exists_postOrder inside
  have same : {n | g.Reaches root n} = ((entries.map Entry.node).toFinset : Set Nat) := by
    ext n
    rw [List.coe_toFinset]
    exact (ordered.mem_iff n).symm
  rw [nodeCount, listed, same, Set.ncard_coe_finset, List.toFinset_card_of_nodup ordered.nodup,
    List.length_map]
  rfl

end Graph

namespace Build

open SurfaceTape.Graph

variable {α : Type} {g h : Graph α} {root : Nat} {matched : Nat → Nat → Prop}
  {entries earlier later : List (Entry α)} {entry : Entry α}

/-- What has been merged so far: every node has a replacement, an axis the first node of its kind,
and just the changed nodes another one than themselves; for each rebuilt operator one node was
appended. -/
structure Replacing (g : Graph α) (root : Nat) (entries earlier : List (Entry α))
    (matched : Nat → Nat → Prop) (h : Graph α) : Prop extends Merging g earlier matched h where
  total : ∀ n ∈ earlier.map Entry.node, ∃ r, matched n r
  first : ∀ {n r a}, matched n r → g.term? n = some (.axis a) → axisNode? entries a = some r
  kept_iff : ∀ {n r}, matched n r → (r = n ↔ ¬g.Changed root n)
  size_eq : h.size = g.size + (g.rebuiltAmong root earlier).ncard

private theorem Replacing.add {h' : Graph α} {r : Nat}
    (replacing : Replacing g root entries earlier matched h)
    (merging : Merging g (earlier ++ [entry]) (withPair matched entry.node r) h')
    (first : ∀ a, g.term? entry.node = some (.axis a) → axisNode? entries a = some r)
    (kept_iff : r = entry.node ↔ ¬g.Changed root entry.node)
    (size_eq : h'.size = g.size + (g.rebuiltAmong root (earlier ++ [entry])).ncard) :
    Replacing g root entries (earlier ++ [entry]) (withPair matched entry.node r) h' := by
  refine { merging with total := ?_, first := ?_, kept_iff := ?_, size_eq }
  · intro n member
    rw [List.map_append, List.mem_append] at member
    rcases member with old | new
    · obtain ⟨s, pair⟩ := replacing.total n old
      exact ⟨s, .inl pair⟩
    · exact ⟨r, .inr ⟨List.mem_singleton.mp new, rfl⟩⟩
  · rintro n s a (old | ⟨rfl, rfl⟩) axis
    · exact replacing.first old axis
    · exact first a axis
  · rintro n s (old | ⟨rfl, rfl⟩)
    · exact replacing.kept_iff old
    · exact kept_iff

/-- An operator is kept if all its inputs are, and otherwise a node is appended for it. -/
private theorem Replacing.operator {axes : List (Option Nat)} {after : Term α Nat} {h' : Graph α}
    {r : Nat} (replacing : Replacing g root entries earlier matched h)
    (merging : Merging g (earlier ++ [entry]) (withPair matched entry.node r) h')
    (fresh : entry.node ∉ earlier.map Entry.node) (found : g.term? entry.node = some entry.term)
    (reached : g.Reaches root entry.node) (rel : Term.Rel matched entry.term after)
    (operator : entry.term.operator?.isSome = true)
    (ran : unifyTerm axes entry.node entry.term after h = .ok r h') :
    Replacing g root entries (earlier ++ [entry]) (withPair matched entry.node r) h' := by
  have other := Term.axis?_of_operator operator
  have unlike : ∀ a, g.term? entry.node = some (.axis a) → axisNode? entries a = some r := by
    intro a axis
    rw [Option.some.inj (found.symm.trans axis)] at other
    cases other
  have kept_iff : after.inputs = entry.term.inputs ↔ ¬g.Changed root entry.node := by
    rw [rel.inputs_eq_iff_kept fun _ _ pair => replacing.kept_iff pair,
      changed_iff_of_axis?_eq_none found other]
    simp
  rw [unifyTerm_operator operator] at ran
  by_cases same : after.inputs = entry.term.inputs
  · rw [if_pos same] at ran
    cases ran
    refine replacing.add merging unlike (iff_of_true rfl (kept_iff.mp same)) ?_
    rw [rebuiltAmong_concat_of_not_mem fun member => kept_iff.mp same member.2]
    exact replacing.size_eq
  · have fits := (replacing.unifies.corresponds.fits rel).2
    have changed : g.Changed root entry.node := not_not.mp (mt kept_iff.mpr same)
    have old : entry.node < h.size :=
      Nat.lt_of_lt_of_le (lt_size_of_term? found) (size_le_of_le replacing.grown)
    rw [if_neg same, insert_ok fits] at ran
    cases ran
    refine replacing.add merging unlike (iff_of_false old.ne' (not_not.mpr changed)) ?_
    have member : entry.node ∈ g.rebuilt root := ⟨⟨reached, _, found, operator⟩, changed⟩
    have new : entry.node ∉ g.rebuiltAmong root earlier := fun among => fresh among.2
    have finite : (g.rebuiltAmong root earlier).Finite :=
      (g.finite_rebuilt root).subset fun _ among => among.1
    rw [size_push, replacing.size_eq, rebuiltAmong_concat_of_mem member,
      Set.ncard_insert_of_notMem new finite, Nat.add_assoc]

private theorem Replacing.step {after : Term α Nat} (listed : g.postOrder root = .ok entries)
    (split : entries = earlier ++ entry :: later)
    (replacing : Replacing g root entries earlier matched h)
    (rel : Term.Rel matched entry.term after) :
    ∃ r h', unifyTerm (axisNodes entries) entry.node entry.term after h = .ok r h' ∧
      Replacing g root entries (earlier ++ [entry]) (withPair matched entry.node r) h' := by
  have ordered := (Ordered.of_postOrder listed).2
  obtain ⟨found, fresh, _⟩ := ordered.split split
  have reached : g.Reaches root entry.node := by
    rw [← ordered.mem_iff, split]
    simp
  obtain ⟨r, h', ran, merging⟩ := replacing.toMerging.step ordered split rel
  refine ⟨r, h', ran, ?_⟩
  have leaf : entry.term.operator? = none → entry.node ∉ g.rebuilt root := by
    rintro leaf ⟨⟨_, t, stored, operator⟩, _⟩
    cases found.symm.trans stored
    rw [leaf] at operator
    cases operator
  cases kind : entry.term with
  | axis a =>
      have axis : g.term? entry.node = some (.axis a) := kind ▸ found
      obtain ⟨k, first⟩ := ordered.exists_axisNode? reached axis
      rw [kind, unifyTerm, getElem?_axisNodes, first] at ran
      cases ran
      refine replacing.add merging ?_ ?_ ?_
      · intro b axis'
        cases axis.symm.trans axis'
        exact first
      · have leads := leadsAxis_of_axisNode? listed first
        rw [changed_axis_iff axis, leads.repeatsAxis_iff reached axis, not_ne_iff]
        exact eq_comm
      · rw [rebuiltAmong_concat_of_not_mem (leaf (by rw [kind]; rfl))]
        exact replacing.size_eq
  | const c =>
      have constant : g.term? entry.node = some (.const c) := kind ▸ found
      rw [kind] at ran
      cases ran
      refine replacing.add merging ?_ (iff_of_true rfl (not_changed_const constant)) ?_
      · intro a axis
        cases axis.symm.trans constant
      · rw [rebuiltAmong_concat_of_not_mem (leaf (by rw [kind]; rfl))]
        exact replacing.size_eq
  | unary op a =>
      exact replacing.operator merging fresh found reached rel (by rw [kind]; rfl) ran
  | binary op a b =>
      exact replacing.operator merging fresh found reached rel (by rw [kind]; rfl) ran

theorem unifyAxes_replacing (listed : g.postOrder root = .ok entries) :
    ∃ out h matched, unifyAxes root g = .ok out h ∧ matched root out ∧
      Replacing g root entries entries matched h := by
  have ordered := (Ordered.of_postOrder listed).2
  have start : Replacing g root entries ([] : List (Entry α)) (fun _ _ => False) g := by
    refine { merging_start g with
      total := nofun, first := False.elim, kept_iff := False.elim, size_eq := ?_ }
    simp [rebuiltAmong]
  obtain ⟨out, h, matched, ran, replacing, pair⟩ := foldEntries_track ordered
    (fun earlier matched h => Replacing g root entries earlier matched h) start
    (fun split replacing rel => replacing.step listed split rel)
  refine ⟨out, h, matched, ?_, pair, replacing⟩
  rw [unifyAxes, listed]
  exact ran

end Build

namespace Graph

variable {α : Type} {g h : Graph α} {root : Nat} {f : Nat → Nat}

/-- What stands for each node below a root once the axes are merged: for an axis the first node of
its kind, for a constant and for an operator above no repeated axis the node itself, and for every
other operator a new node, over what stands for the inputs. Only an axis shares it with another
node. -/
structure Replacement (g : Graph α) (root : Nat) (h : Graph α) (f : Nat → Nat) : Prop where
  axis : ∀ {n a}, g.Reaches root n → g.term? n = some (.axis a) → g.LeadsAxis root a (f n)
  const : ∀ {n c}, g.Reaches root n → g.term? n = some (.const c) → f n = n
  kept : ∀ n ∈ g.operators root, n ∉ g.rebuilt root → f n = n
  new : ∀ n ∈ g.rebuilt root, g.size ≤ f n
  own : ∀ {m n}, g.Reaches root m → g.Reaches root n → f m = f n →
    m = n ∨ ∃ a, g.term? m = some (.axis a) ∧ g.term? n = some (.axis a)
  term : ∀ n, g.Reaches root n → h.term? (f n) = (g.term? n).map (Term.map f)

theorem Replacement.unifies (replacement : g.Replacement root h f) (inside : root < g.size) :
    Unifies g h fun m n => g.Reaches root m ∧ f m = n := by
  refine ⟨corresponds_of_term inside replacement.term, ?_, ?_⟩
  · rintro m n n' ⟨_, rfl⟩ ⟨_, rfl⟩
    rfl
  · rintro m m' n ⟨reached, rfl⟩ ⟨reached', same⟩
    rcases replacement.own reached reached' same.symm with rfl | ⟨a, axis, _⟩
    · exact .inl rfl
    · exact .inr ⟨a, axis⟩

theorem Replacement.axis_iff (replacement : g.Replacement root h f) (inside : root < g.size)
    {n : Nat} (reached : g.Reaches root n) (a : Axis) :
    g.term? n = some (.axis a) ↔ h.term? (f n) = some (.axis a) :=
  (replacement.unifies inside).corresponds.axis_iff ⟨reached, rfl⟩ a

theorem Replacement.reaches_iff (replacement : g.Replacement root h f) (k : Nat) :
    h.Reaches (f root) k ↔ ∃ n, g.Reaches root n ∧ f n = k := by
  constructor
  · intro reached
    induction reached with
    | refl => exact ⟨root, .refl, rfl⟩
    | tail _ used ih =>
        obtain ⟨n, below, rfl⟩ := ih
        obtain ⟨u, stored, input⟩ := used
        rw [replacement.term n below] at stored
        obtain ⟨t, found, rfl⟩ := Option.map_eq_some_iff.mp stored
        rw [Term.inputs_map] at input
        obtain ⟨b, member, rfl⟩ := List.mem_map.mp input
        exact ⟨b, below.trans (reaches_input found member), rfl⟩
  · rintro ⟨n, reached, rfl⟩
    induction reached with
    | refl => exact .refl
    | @tail b c below used ih =>
        obtain ⟨t, found, input⟩ := used
        refine ih.tail ⟨t.map f, ?_, ?_⟩
        · rw [replacement.term b below, found]
          rfl
        · rw [Term.inputs_map]
          exact List.mem_map_of_mem input

theorem Replacement.existsUnique_axis (replacement : g.Replacement root h f)
    (inside : root < g.size) (a : Axis) :
    (∃ n, g.Reaches root n ∧ g.term? n = some (.axis a)) ↔
      ∃! k, h.Reaches (f root) k ∧ h.term? k = some (.axis a) := by
  constructor
  · rintro ⟨n, reached, axis⟩
    refine ⟨f n, ⟨(replacement.reaches_iff _).mpr ⟨n, reached, rfl⟩,
      (replacement.axis_iff inside reached a).mp axis⟩, ?_⟩
    rintro k ⟨below, kind⟩
    obtain ⟨m, reached', rfl⟩ := (replacement.reaches_iff _).mp below
    have axis' := (replacement.axis_iff inside reached' a).mpr kind
    exact (replacement.axis reached' axis').unique (replacement.axis reached axis)
  · rintro ⟨k, ⟨below, kind⟩, _⟩
    obtain ⟨n, reached, rfl⟩ := (replacement.reaches_iff _).mp below
    exact ⟨n, reached, (replacement.axis_iff inside reached a).mpr kind⟩

/-- The nodes below the result come one to one from those that repeat no axis. -/
theorem Replacement.reached_eq_image (replacement : g.Replacement root h f) :
    {k | h.Reaches (f root) k} = f '' ({n | g.Reaches root n} \ {n | g.RepeatsAxis root n}) := by
  ext k
  constructor
  · intro below
    obtain ⟨n, reached, rfl⟩ := (replacement.reaches_iff k).mp below
    by_cases repeats : g.RepeatsAxis root n
    · obtain ⟨a, axis⟩ := repeats.exists_axis
      have leads := replacement.axis reached axis
      exact ⟨f n, ⟨leads.reaches, leads.not_repeatsAxis⟩,
        (replacement.axis leads.reaches leads.axis).unique leads⟩
    · exact ⟨n, ⟨reached, repeats⟩, rfl⟩
  · rintro ⟨n, ⟨reached, _⟩, rfl⟩
    exact (replacement.reaches_iff _).mpr ⟨n, reached, rfl⟩

theorem Replacement.injOn (replacement : g.Replacement root h f) :
    Set.InjOn f ({n | g.Reaches root n} \ {n | g.RepeatsAxis root n}) := by
  rintro m ⟨reached, first⟩ n ⟨reached', first'⟩ same
  rcases replacement.own reached reached' same with rfl | ⟨a, axis, axis'⟩
  · rfl
  · have leads := replacement.axis reached axis
    have leading := not_not.mp (mt (leads.repeatsAxis_iff reached axis).mpr first)
    have leading' := not_not.mp (mt (leads.repeatsAxis_iff reached' axis').mpr first')
    exact leading.trans leading'.symm

theorem Replacement.ncard_reached (replacement : g.Replacement root h f) :
    {n | g.Reaches root n}.ncard =
      {k | h.Reaches (f root) k}.ncard + {n | g.RepeatsAxis root n}.ncard := by
  rw [replacement.reached_eq_image, replacement.injOn.ncard_image,
    Set.ncard_sdiff_add_ncard_of_subset (fun _ repeats => repeats.reaches) (g.finite_reached root)]

/-- Where an entry is left out, its image was listed before. -/
private theorem Thinned.nodes_eq {matched : Nat → Nat → Prop} {done done' : List (Entry α)}
    (thinned : Thinned matched done done') (image : ∀ m n, matched m n → f m = n)
    (once : (done'.map Entry.node).Nodup) :
    ((done.reverse.map Entry.node).map f).eraseDups = done'.reverse.map Entry.node := by
  induction thinned with
  | nil => rfl
  | @both entry entry' done done' _ rel ih =>
      obtain ⟨fresh, once⟩ := List.nodup_cons.mp once
      have new : f entry.node ∉ (done.reverse.map Entry.node).map f := by
        rw [← List.mem_eraseDups, ih once, List.map_reverse, List.mem_reverse, image _ _ rel.node]
        exact fresh
      simp only [List.reverse_cons, List.map_append, List.map_singleton]
      rw [eraseDups_concat.2 new, ih once, image _ _ rel.node]
  | @again entry done done' a n _ _ pair met ih =>
      have old : f entry.node ∈ (done.reverse.map Entry.node).map f := by
        rw [← List.mem_eraseDups, ih once, List.map_reverse, List.mem_reverse, image _ _ pair]
        exact met
      simp only [List.reverse_cons, List.map_append, List.map_singleton]
      rw [eraseDups_concat.1 old, ih once]

theorem Replacement.order_eq (replacement : g.Replacement root h f) (inside : root < g.size)
    {nodes : List Nat} (listed : g.order root = .ok nodes) :
    h.order (f root) = .ok (nodes.map f).eraseDups := by
  have unifies := replacement.unifies inside
  have inside' := (unifies.corresponds.lt_size ⟨.refl, rfl⟩).2
  have thinned := unifies.thinned_search ⟨.refl, rfl⟩ .nil
  have once := (explored_search inside' .nil).recorded.nodup
  rw [order_of_postOrder (postOrder_eq_search inside)] at listed
  cases listed
  rw [order_of_postOrder (postOrder_eq_search inside'),
    thinned.nodes_eq (fun _ _ pair => pair.2) once]

end Graph

namespace Build

open SurfaceTape.Graph

variable {α : Type} {g h : Graph α} {root : Nat} {matched : Nat → Nat → Prop}
  {entries : List (Entry α)}

theorem Replacing.exists_replacement (listed : g.postOrder root = .ok entries)
    (replacing : Replacing g root entries entries matched h) :
    ∃ f, g.Replacement root h f ∧ ∀ n r, matched n r → f n = r := by
  have ordered := (Ordered.of_postOrder listed).2
  have total : ∀ n, g.Reaches root n → ∃ r, matched n r := fun n reached =>
    replacing.total n ((ordered.mem_iff n).mpr reached)
  choose! f pairs using total
  have image : ∀ n r, matched n r → f n = r := by
    intro n r pair
    have reached := (ordered.mem_iff n).mp (replacing.worked pair)
    exact replacing.unifies.partner (pairs n reached) pair
  have corresponds := replacing.unifies.corresponds
  refine ⟨f, { axis := ?_, const := ?_, kept := ?_, new := ?_, own := ?_, term := ?_ }, image⟩
  · intro n a reached axis
    exact leadsAxis_of_axisNode? listed (replacing.first (pairs n reached) axis)
  · intro n c reached constant
    exact (replacing.kept_iff (pairs n reached)).mpr (not_changed_const constant)
  · intro n operator kept
    exact (replacing.kept_iff (pairs n operator.1)).mpr fun changed => kept ⟨operator, changed⟩
  · rintro n ⟨⟨reached, t, stored, operator⟩, changed⟩
    rcases replacing.place (pairs n reached) with same | new | ⟨a, axis⟩
    · exact absurd changed ((replacing.kept_iff (pairs n reached)).mp same)
    · exact new
    · cases stored.symm.trans axis
      cases operator
  · intro m n reached reached' same
    have pair' := same ▸ pairs n reached'
    rcases replacing.unifies.shared (pairs m reached) pair' with rfl | ⟨a, axis⟩
    · exact .inl rfl
    · have kind := (corresponds.axis_iff (pairs m reached) a).mp axis
      exact .inr ⟨a, axis, (corresponds.axis_iff pair' a).mpr kind⟩
  · intro n reached
    obtain ⟨t, u, found, found', rel⟩ := corresponds _ _ (pairs n reached)
    rw [found, found', rel.eq_map image]
    rfl

private theorem rebuiltAmong_of_ordered (ordered : g.Ordered root entries) :
    g.rebuiltAmong root entries = g.rebuilt root := by
  ext n
  constructor
  · exact And.left
  · intro member
    exact ⟨member, (ordered.mem_iff n).mpr member.1.1⟩

/-- Merging takes the axes as one and does nothing else. The map that says what stands for each node
leads from the order below the root to that below the result, without what was listed before. -/
theorem unifyAxes_replaces_only_repeated (inside : root < g.size) :
    ∃ out h f nodes count, unifyAxes root g = .ok out h ∧ g ≤ h ∧ g.Replacement root h f ∧
      f root = out ∧ h.size = g.size + (g.rebuilt root).ncard ∧
      g.order root = .ok nodes ∧ h.order out = .ok (nodes.map f).eraseDups ∧
      (∀ a, (∃ n, g.Reaches root n ∧ g.term? n = some (.axis a)) ↔
        ∃! k, h.Reaches out k ∧ h.term? k = some (.axis a)) ∧
      h.nodeCount out = .ok count ∧
      g.nodeCount root = .ok (count + {n | g.RepeatsAxis root n}.ncard) ∧
      ∀ k, h.Reaches out k ↔ ∃ n, g.Reaches root n ∧ f n = k := by
  obtain ⟨entries, listed, ordered⟩ := exists_postOrder inside
  obtain ⟨out, h, matched, ran, pair, replacing⟩ := unifyAxes_replacing listed
  obtain ⟨f, replacement, image⟩ := replacing.exists_replacement listed
  obtain rfl := image root out pair
  have inside' := (replacing.unifies.corresponds.lt_size pair).2
  refine ⟨f root, h, f, _, _, ran, replacing.grown, replacement, rfl, ?_,
    order_of_postOrder listed, replacement.order_eq inside (order_of_postOrder listed),
    replacement.existsUnique_axis inside, nodeCount_eq_ncard inside', ?_, replacement.reaches_iff⟩
  · rw [replacing.size_eq, rebuiltAmong_of_ordered ordered]
  · rw [nodeCount_eq_ncard inside, replacement.ncard_reached]

/-- The expression `min ((x + y) - x * y) (x * y)`, with a second node for `x` in the product. -/
def sharedProduct : Graph Rat where
  terms := #[.axis .x, .axis .y, .binary .add 0 1, .axis .x, .binary .mul 3 1, .binary .sub 2 4,
    .binary .min 5 4]
  acyclic := by decide

/-- The sum stays, and the product is rebuilt once for both places that use it. -/
def mergedSharedProduct : Graph Rat where
  terms := #[.axis .x, .axis .y, .binary .add 0 1, .axis .x, .binary .mul 3 1, .binary .sub 2 4,
    .binary .min 5 4, .binary .mul 0 1, .binary .sub 2 7, .binary .min 8 7]
  acyclic := by decide

private theorem unifyAxes_sharedProduct :
    unifyAxes 6 sharedProduct = .ok 9 mergedSharedProduct := by
  have listed : sharedProduct.postOrder 6 = .ok [⟨0, .axis .x⟩, ⟨1, .axis .y⟩,
      ⟨2, .binary .add 0 1⟩, ⟨3, .axis .x⟩, ⟨4, .binary .mul 3 1⟩, ⟨5, .binary .sub 2 4⟩,
      ⟨6, .binary .min 5 4⟩] := by
    cbv
  rw [unifyAxes, listed]
  rfl

theorem unifyAxes_sharedProduct_replaces_only_repeated :
    6 < sharedProduct.size ∧ unifyAxes 6 sharedProduct = .ok 9 mergedSharedProduct ∧
      (sharedProduct.rebuilt 6).ncard = 3 ∧ {n | sharedProduct.RepeatsAxis 6 n}.ncard = 1 ∧
      ∃ f, sharedProduct.Replacement 6 mergedSharedProduct f ∧ f 6 = 9 ∧
        mergedSharedProduct.order 9 = .ok ([0, 1, 2, 3, 4, 5, 6].map f).eraseDups := by
  have inside : 6 < sharedProduct.size := by decide
  have listed : sharedProduct.order 6 = .ok [0, 1, 2, 3, 4, 5, 6] := by cbv
  have counted : sharedProduct.nodeCount 6 = .ok 7 := by cbv
  have left : mergedSharedProduct.nodeCount 9 = .ok 6 := by cbv
  obtain ⟨out, h, f, nodes, count, ran, _, replacement, atRoot, size, order, order', _, number,
    number', _⟩ := unifyAxes_replaces_only_repeated inside
  cases unifyAxes_sharedProduct.symm.trans ran
  cases listed.symm.trans order
  cases left.symm.trans number
  have surplus := Except.ok.inj (counted.symm.trans number')
  have sizes : sharedProduct.size = 7 ∧ mergedSharedProduct.size = 10 := by decide
  exact ⟨inside, unifyAxes_sharedProduct, by omega, by omega, f, replacement, atRoot, order'⟩

/-- Merging returns the node it is given if it appends nothing, and both if no axis has two nodes
below it, and only then. A second time it returns what it returned before, whatever was appended
since. -/
theorem unifyAxes_eq_root_iff (inside : root < g.size) :
    ∃ out h, unifyAxes root g = .ok out h ∧ g ≤ h ∧ (out = root ↔ h = g) ∧
      (out = root ↔ g.AxesUnified root) ∧ ∀ k, h ≤ k → unifyAxes out k = .ok out k := by
  obtain ⟨entries, listed, ordered⟩ := exists_postOrder inside
  obtain ⟨out, h, matched, ran, pair, replacing⟩ := unifyAxes_replacing listed
  obtain ⟨out', h', ran', grown, inside', unified, _⟩ := unifyAxes_spec inside
  cases ran.symm.trans ran'
  have kept : out = root ↔ g.AxesUnified root := by
    rw [replacing.kept_iff pair, changed_root_iff inside, not_not]
  refine ⟨out, h, ran, grown, ?_, kept, ?_⟩
  · constructor
    · intro same
      have unchanged := unifyAxes_of_axesUnified inside (kept.mp same)
      cases ran.symm.trans unchanged
      rfl
    · rintro rfl
      -- A new node would lie outside the graph, so the root could only be replaced as an axis.
      rcases replacing.place pair with same | new | ⟨a, axis⟩
      · exact same
      · exact absurd inside' (Nat.not_lt.mpr new)
      · exact kept.mpr (axesUnified_of_axis axis)
  · intro k further
    exact unifyAxes_of_axesUnified (Nat.lt_of_lt_of_le inside' (size_le_of_le further))
      (axesUnified_of_le further inside' unified)

theorem unifyAxes_sharedProduct_eq_root_iff :
    6 < sharedProduct.size ∧ ¬sharedProduct.AxesUnified 6 ∧
      ∃ out h, unifyAxes 6 sharedProduct = .ok out h ∧ out = 9 ∧
        unifyAxes out (h.pushConst 5) = .ok out (h.pushConst 5) := by
  have inside : 6 < sharedProduct.size := by decide
  obtain ⟨out, h, ran, _, _, canonical, again⟩ := unifyAxes_eq_root_iff inside
  cases unifyAxes_sharedProduct.symm.trans ran
  exact ⟨inside, mt canonical.mpr (by decide), 9, _, unifyAxes_sharedProduct, rfl,
    again _ (le_pushConst _ 5)⟩

end Build

end SurfaceTape

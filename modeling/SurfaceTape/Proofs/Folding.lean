import SurfaceTape.Proofs.DepthFirst
import SurfaceTape.Proofs.Meaning

/-!
# Folding over a post-order

A fold finds a result for every input it asks for, because a post-order lists the inputs of a node
before the node. Two consequences are drawn. A property of results that every step establishes and
that growth of the graph keeps holds of the result for the root; and evaluation node by node agrees
with the plain recursive reading.
-/

set_option autoImplicit false

namespace SurfaceTape

theorem bind_ok {ε σ τ υ : Type} {first : EStateM ε σ τ} {next : τ → EStateM ε σ υ} {s s' : σ}
    {result : τ} (ran : first s = .ok result s') : (first >>= next) s = next result s' := by
  show EStateM.bind first next s = next result s'
  rw [EStateM.bind, ran]

theorem bind_error {ε σ τ υ : Type} {first : EStateM ε σ τ} {next : τ → EStateM ε σ υ} {s s' : σ}
    {e : ε} (failed : first s = .error e s') : (first >>= next) s = .error e s' := by
  show EStateM.bind first next s = .error e s'
  rw [EStateM.bind, failed]

namespace Graph

variable {α β τ : Type}

def Filed (results : Std.TreeMap Nat τ) (nodes : List Nat) (good : Nat → τ → Prop) : Prop :=
  ∀ n ∈ nodes, ∃ r, results[n]? = some r ∧ good n r

theorem Filed.imp {results : Std.TreeMap Nat τ} {nodes : List Nat} {good weaker : Nat → τ → Prop}
    (filed : Filed results nodes good) (implies : ∀ n r, good n r → weaker n r) :
    Filed results nodes weaker := by
  intro n member
  obtain ⟨r, found, holds⟩ := filed n member
  exact ⟨r, found, implies n r holds⟩

theorem Filed.insert {results : Std.TreeMap Nat τ} {nodes : List Nat} {good : Nat → τ → Prop}
    (filed : Filed results nodes good) {node : Nat} {result : τ} (fresh : node ∉ nodes)
    (holds : good node result) : Filed (results.insert node result) (nodes ++ [node]) good := by
  intro n member
  rcases List.mem_append.mp member with old | new
  · obtain ⟨r, found, holds⟩ := filed n old
    have different : node ≠ n := fun same => fresh (same ▸ old)
    refine ⟨r, ?_, holds⟩
    rw [Std.TreeMap.getElem?_insert, if_neg (by simpa [Nat.compare_eq_eq] using different), found]
  · cases List.mem_singleton.mp new
    exact ⟨result, by simp, holds⟩

theorem Filed.map? {results : Std.TreeMap Nat τ} {nodes : List Nat} {good : Nat → τ → Prop}
    (filed : Filed results nodes good) {t : Term α Nat} (inputs : ∀ a ∈ t.inputs, a ∈ nodes) :
    ∃ u, (t.map? fun n => results[n]?) = some u ∧ Term.Rel good t u :=
  Term.exists_map?_eq_some fun a member => filed a (inputs a member)

end Graph

namespace Build

variable {α τ : Type}

theorem insert_ok {t : Term α Nat} {g : Graph α} (fits : t.Fits g.size) :
    insert t g = .ok g.size (g.push t fits) := by
  rw [insert, dif_pos fits]

section Effects

variable {σ : Type} {f : Nat → Term α Nat → Term α τ → EStateM Error σ τ}
  {results : Std.TreeMap Nat τ} {entry : Graph.Entry α} {after : Term α τ}

private theorem foldEntry_eq {s s' : σ} {result : τ}
    (replaced : (entry.term.map? fun n => results[n]?) = some after)
    (ran : f entry.node entry.term after s = .ok result s') :
    Graph.foldEntry f results entry s = .ok (results.insert entry.node result) s' := by
  simp only [Graph.foldEntry, replaced]
  exact bind_ok ran

theorem foldEntry_error {s s' : σ} {e : Error}
    (replaced : (entry.term.map? fun n => results[n]?) = some after)
    (failed : f entry.node entry.term after s = .error e s') :
    Graph.foldEntry f results entry s = .error e s' := by
  simp only [Graph.foldEntry, replaced]
  exact bind_error failed

theorem foldlM_concat {before : List (Graph.Entry α)} {s s' s'' : σ} {r : τ}
    (ran : before.foldlM (Graph.foldEntry f) ∅ s = .ok results s')
    (replaced : (entry.term.map? fun n => results[n]?) = some after)
    (worked : f entry.node entry.term after s' = .ok r s'') :
    (before ++ [entry]).foldlM (Graph.foldEntry f) ∅ s =
      .ok (results.insert entry.node r) s'' := by
  rw [List.foldlM_append, bind_ok ran, List.foldlM_cons, bind_ok (foldEntry_eq replaced worked)]
  rfl

theorem foldEntries_of_foldlM {entries : List (Graph.Entry α)} {root : Nat} {s s' : σ} {r : τ}
    (ran : entries.foldlM (Graph.foldEntry f) ∅ s = .ok results s')
    (filed : results[root]? = some r) : Graph.foldEntries entries root f s = .ok r s' := by
  rw [Graph.foldEntries]
  refine (bind_ok ran).trans ?_
  simp only [filed]
  rfl

end Effects

/-- An invariant of the entries that were worked out, the results that were filed for them, and the
graph. Each step may assume results for the inputs of its entry; it adds one result. -/
theorem foldlM_track {g : Graph α} {root : Nat} {entries before rest : List (Graph.Entry α)}
    (ordered : g.Ordered root entries) (split : entries = before ++ rest)
    {f : Nat → Term α Nat → Term α τ → Build α τ}
    (inv : List (Graph.Entry α) → (Nat → τ → Prop) → Graph α → Prop)
    (start : inv [] (fun _ _ => False) g)
    (step : ∀ {earlier entry later filed h after}, before = earlier ++ entry :: later →
      inv earlier filed h → Term.Rel filed entry.term after →
      ∃ r h', f entry.node entry.term after h = .ok r h' ∧
        inv (earlier ++ [entry]) (fun n s => filed n s ∨ n = entry.node ∧ s = r) h') :
    ∃ results h filed, before.foldlM (Graph.foldEntry f) ∅ g = .ok results h ∧
      inv before filed h ∧ Graph.Filed results (before.map Graph.Entry.node) filed := by
  -- The induction is on the entries that are left; the results of all earlier ones are filed.
  have loop : ∀ (later earlier : List (Graph.Entry α)) (results : Std.TreeMap Nat τ)
      (filed : Nat → τ → Prop) (h : Graph α), before = earlier ++ later → inv earlier filed h →
      Graph.Filed results (earlier.map Graph.Entry.node) filed →
      ∃ final h' filed', later.foldlM (Graph.foldEntry f) results h = .ok final h' ∧
        inv before filed' h' ∧ Graph.Filed final (before.map Graph.Entry.node) filed' := by
    intro later
    induction later with
    | nil =>
        intro earlier results filed h place holds found
        rw [List.append_nil] at place
        subst place
        exact ⟨results, h, filed, rfl, holds, found⟩
    | cons entry later ih =>
        intro earlier results filed h place holds found
        have whole : entries = earlier ++ entry :: (later ++ rest) := by simp [split, place]
        obtain ⟨_, fresh, inputs⟩ := ordered.split whole
        obtain ⟨after, replaced, related⟩ := found.map? inputs
        obtain ⟨r, next, ran, holdsNext⟩ := step place holds related
        have foundNext : Graph.Filed (results.insert entry.node r)
            (earlier.map Graph.Entry.node ++ [entry.node])
            (fun n s => filed n s ∨ n = entry.node ∧ s = r) :=
          (found.imp fun _ _ => .inl).insert fresh (.inr ⟨rfl, rfl⟩)
        obtain ⟨final, h', filed', finished, result⟩ :=
          ih (earlier ++ [entry]) (results.insert entry.node r) _ next (by simp [place]) holdsNext
            (by simpa using foundNext)
        refine ⟨final, h', filed', ?_, result⟩
        rw [List.foldlM_cons]
        exact (bind_ok (foldEntry_eq replaced ran)).trans finished
  exact loop before [] ∅ _ g rfl start fun n member => by cases member

theorem foldEntries_track {g : Graph α} {root : Nat} {entries : List (Graph.Entry α)}
    (ordered : g.Ordered root entries) {f : Nat → Term α Nat → Term α τ → Build α τ}
    (inv : List (Graph.Entry α) → (Nat → τ → Prop) → Graph α → Prop)
    (start : inv [] (fun _ _ => False) g)
    (step : ∀ {earlier entry later filed h after}, entries = earlier ++ entry :: later →
      inv earlier filed h → Term.Rel filed entry.term after →
      ∃ r h', f entry.node entry.term after h = .ok r h' ∧
        inv (earlier ++ [entry]) (fun n s => filed n s ∨ n = entry.node ∧ s = r) h') :
    ∃ r h filed, Graph.foldEntries entries root f g = .ok r h ∧ inv entries filed h ∧
      filed root r := by
  obtain ⟨results, h, filed, ran, holds, found⟩ :=
    foldlM_track ordered (List.append_nil entries).symm inv start step
  obtain ⟨r, stored, result⟩ := found root ((ordered.mem_iff root).mpr .refl)
  exact ⟨r, h, filed, foldEntries_of_foldlM ran stored, holds, result⟩

/-- A fold that keeps every node below the root works on the root alone. -/
theorem foldEntries_of_kept {g h : Graph α} {root r : Nat} {t : Term α Nat}
    {entries : List (Graph.Entry α)} (ordered : g.Ordered root entries)
    {f : Nat → Term α Nat → Term α Nat → Build α Nat}
    (kept : ∀ n u, g.term? n = some u → g.Reaches root n → n ≠ root → f n u u g = .ok n g)
    (stored : g.term? root = some t) (worked : f root t t g = .ok r h) :
    Graph.foldEntries entries root f g = .ok r h := by
  obtain ⟨u, before, stored', split⟩ := ordered.last
  cases stored.symm.trans stored'
  obtain ⟨results, k, filed, ran, ⟨rfl, same⟩, found⟩ := foldlM_track ordered split (f := f)
    (fun _ filed h => h = g ∧ ∀ n r, filed n r → r = n) ⟨rfl, nofun⟩ (by
      intro earlier entry later filed h after place inv related
      obtain ⟨rfl, same⟩ := inv
      have whole : entries = earlier ++ entry :: (later ++ [⟨root, t⟩]) := by simp [split, place]
      have reached : h.Reaches root entry.node := by
        rw [← ordered.mem_iff, whole]
        simp
      have other : entry.node ≠ root := by
        rintro rfl
        exact (ordered.split split).2.1 (by simp [place])
      rw [related.eq_of_same same]
      refine ⟨entry.node, h, kept _ _ (ordered.split whole).1 reached other, rfl, ?_⟩
      intro n r place
      rcases place with old | ⟨rfl, rfl⟩
      · exact same n r old
      · rfl)
  obtain ⟨after, replaced, related⟩ := found.map? (ordered.split split).2.2
  rw [related.eq_of_same same] at replaced
  rw [split]
  exact foldEntries_of_foldlM (foldlM_concat ran replaced worked) (by simp)

/-- What every step of a fold establishes, and growth keeps, holds of the result for the root. The
step may assume it of the results for the inputs. -/
theorem foldEntries_induct {g : Graph α} {root : Nat} {entries : List (Graph.Entry α)}
    (ordered : g.Ordered root entries) {f : Nat → Term α Nat → Term α τ → Build α τ}
    (good : Graph α → Nat → τ → Prop)
    (grow : ∀ {h h' n r}, h ≤ h' → good h n r → good h' n r)
    (step : ∀ {h n before after}, g ≤ h → g.term? n = some before → g.Reaches root n →
      Term.Rel (good h) before after →
      ∃ r h', f n before after h = .ok r h' ∧ h ≤ h' ∧ good h' n r) :
    ∃ r h, Graph.foldEntries entries root f g = .ok r h ∧ g ≤ h ∧ good h root r := by
  obtain ⟨r, h, filed, ran, ⟨grown, holds⟩, result⟩ := foldEntries_track ordered (f := f)
    (fun _ filed h => g ≤ h ∧ ∀ n r, filed n r → good h n r) ⟨le_rfl, nofun⟩ (by
      intro earlier entry later filed h after split inv related
      have reached : g.Reaches root entry.node := by
        rw [← ordered.mem_iff, split]
        simp
      obtain ⟨r, h', ran, grown, holds⟩ :=
        step inv.1 (ordered.split split).1 reached (related.imp inv.2)
      refine ⟨r, h', ran, inv.1.trans grown, fun n s place => ?_⟩
      rcases place with old | ⟨rfl, rfl⟩
      · exact grow grown (inv.2 n s old)
      · exact holds)
  exact ⟨r, h, ran, grown, holds root r result⟩

end Build

namespace Graph

variable {α β τ : Type} {m : Type → Type} [Monad m] [LawfulMonad m] [MonadExceptOf Error m]

/-- A fold whose steps have no effects gives a result, with every property that the steps
establish. -/
theorem foldEntries_pure_induct {g : Graph α} {root : Nat} {entries : List (Entry α)}
    (ordered : g.Ordered root entries) {f : Nat → Term α Nat → Term α τ → τ} (good : Nat → τ → Prop)
    (step : ∀ {n before after}, g.term? n = some before → Term.Rel good before after →
      good n (f n before after)) :
    ∃ r, foldEntries entries root (fun n before after => (pure (f n before after) : m τ)) = pure r ∧
      good root r := by
  have loop : ∀ (later earlier : List (Entry α)) (results : Std.TreeMap Nat τ),
      entries = earlier ++ later → Filed results (earlier.map Entry.node) good →
      ∃ final, later.foldlM (foldEntry fun n before after => (pure (f n before after) : m τ))
          results = pure final ∧ Filed final (entries.map Entry.node) good := by
    intro later
    induction later with
    | nil =>
        intro earlier results split filed
        refine ⟨results, rfl, ?_⟩
        rw [split, List.append_nil]
        exact filed
    | cons entry later ih =>
        intro earlier results split filed
        obtain ⟨stored, fresh, inputs⟩ := ordered.split split
        obtain ⟨after, replaced, related⟩ := filed.map? inputs
        have filedNext := filed.insert fresh (step stored related)
        obtain ⟨final, finished, filedFinal⟩ :=
          ih (earlier ++ [entry]) (results.insert entry.node (f entry.node entry.term after))
            (by simp [split]) (by simpa using filedNext)
        refine ⟨final, ?_, filedFinal⟩
        rw [List.foldlM_cons, foldEntry]
        simp only [replaced, pure_bind]
        exact finished
  obtain ⟨results, ran, filed⟩ := loop entries [] ∅ rfl fun n member => by cases member
  obtain ⟨r, found, holds⟩ := filed root ((ordered.mem_iff root).mpr .refl)
  refine ⟨r, ?_, holds⟩
  rw [foldEntries, ran, pure_bind]
  simp only [found]

private theorem termValue?_of_rel_value {g : Graph α} {meaning : Interpretation α β}
    {t : Term α Nat} {u : Term α β} (rel : Term.Rel (fun n v => g.value? meaning n = some v) t u) :
    g.termValue? meaning t = some (meaning.apply u) := by
  cases rel with
  | axis => rfl
  | const => rfl
  | unary first => simp [termValue?, Term.map?, first]
  | binary first second => simp [termValue?, Term.map?, first, second]

/-- Evaluation node by node agrees with the plain recursive reading. -/
theorem eval_eq_value? (g : Graph α) (meaning : Interpretation α β) (root : Nat) :
    g.eval meaning root = (g.value? meaning root).elim (.error .badNode) .ok := by
  rcases Nat.lt_or_ge root g.size with inside | absent
  · obtain ⟨entries, listed, ordered⟩ := exists_postOrder inside
    obtain ⟨v, ran, value⟩ := foldEntries_pure_induct (m := Except Error) ordered
      (f := fun _ _ after => meaning.apply after) (fun n v => g.value? meaning n = some v)
      (fun stored related => by rw [value?_of_term? stored, termValue?_of_rel_value related])
    rw [eval, foldM, listed, value]
    exact ran
  · rw [eval, foldM, postOrder_of_absent absent, value?_of_absent absent]
    rfl

theorem eval_of_value? {g : Graph α} {meaning : Interpretation α β} {root : Nat} {v : β}
    (value : g.value? meaning root = some v) : g.eval meaning root = .ok v := by
  rw [eval_eq_value?, value]
  rfl

end Graph

end SurfaceTape

import SurfaceTape.Proofs.Folding
import Mathlib.Data.List.Forall2
import Mathlib.Data.Set.Function

/-!
# Renumbering nodes

Two graphs whose nodes correspond one to one. The correspondence need not cover all nodes, and it
grows when both graphs do: two terms over corresponding inputs that are appended on either side
correspond from then on, whatever numbers they get. Two computations on such graphs end alike if
they fail with the same failure or end in such graphs again, with corresponding results.
-/

set_option autoImplicit false

namespace SurfaceTape

open Relator

section Options

variable {τ υ τ' υ' : Type} {related : τ → υ → Prop} {related' : τ' → υ' → Prop}
  {x : Option τ} {y : Option υ}

theorem rel_option_cases (rel : Option.Rel related x y) :
    (x = none ∧ y = none) ∨ ∃ a b, x = some a ∧ y = some b ∧ related a b := by
  cases rel with
  | none => exact .inl ⟨rfl, rfl⟩
  | some holds => exact .inr ⟨_, _, rfl, rfl, holds⟩

private theorem rel_option_bind {f : τ → Option τ'} {f' : υ → Option υ'}
    (rel : Option.Rel related x y) (each : ∀ a b, related a b → Option.Rel related' (f a) (f' b)) :
    Option.Rel related' (x.bind f) (y.bind f') := by
  cases rel with
  | none => exact .none
  | some holds => exact each _ _ holds

theorem rel_option_map {f : τ → τ'} {f' : υ → υ'} (rel : Option.Rel related x y)
    (each : ∀ a b, related a b → related' (f a) (f' b)) :
    Option.Rel related' (x.map f) (y.map f') := by
  cases rel with
  | none => exact .none
  | some holds => exact .some (each _ _ holds)

private theorem rel_option_imp {weaker : τ → υ → Prop} (rel : Option.Rel related x y)
    (implies : ∀ a b, related a b → weaker a b) : Option.Rel weaker x y := by
  cases rel with
  | none => exact .none
  | some holds => exact .some (implies _ _ holds)

end Options

namespace Term

variable {α ν μ τ υ : Type} {related : ν → μ → Prop} {t : Term α ν} {u : Term α μ}

theorem Rel.forall₂_inputs (rel : Rel related t u) : List.Forall₂ related t.inputs u.inputs := by
  cases rel with
  | axis => exact .nil
  | const => exact .nil
  | unary first => exact .cons first .nil
  | binary first second => exact .cons first (.cons second .nil)

theorem Rel.const?_eq (rel : Rel related t u) : t.const? = u.const? := by
  cases rel <;> rfl

theorem Rel.axis?_eq (rel : Rel related t u) : t.axis? = u.axis? := by
  cases rel <;> rfl

theorem Rel.operator?_eq (rel : Rel related t u) : t.operator? = u.operator? := by
  cases rel <;> rfl

theorem Rel.map? {results : τ → υ → Prop} {f : ν → Option τ} {f' : μ → Option υ}
    (each : (related ⇒ Option.Rel results) f f') (rel : Rel related t u) :
    Option.Rel (Rel results) (t.map? f) (u.map? f') := by
  cases rel with
  | axis => exact .some .axis
  | const => exact .some .const
  | unary first => exact rel_option_map (each first) fun _ _ => .unary
  | binary first second =>
      refine rel_option_bind (each first) fun _ _ holds => ?_
      exact rel_option_map (each second) fun _ _ => .binary holds

theorem rel_map {f : ν → μ} (each : ∀ a ∈ t.inputs, related a (f a)) :
    Rel related t (t.map f) := by
  cases t with
  | axis a => exact .axis
  | const c => exact .const
  | unary op a => exact .unary (each a List.mem_cons_self)
  | binary op a b =>
      exact .binary (each a List.mem_cons_self)
        (each b (List.mem_cons_of_mem a List.mem_cons_self))

theorem Rel.inputs_eq_iff (unique : BiUnique related) {t' : Term α ν} {u' : Term α μ}
    (rel : Rel related t u) (rel' : Rel related t' u') :
    t.inputs = t'.inputs ↔ u.inputs = u'.inputs :=
  rel_eq unique.forall₂ rel.forall₂_inputs rel'.forall₂_inputs

end Term

namespace Graph

variable {α : Type}

/-- Nodes of two graphs that hold terms of the same shape over corresponding inputs. Nothing is said
about how many nodes one node corresponds to. -/
def Corresponds (g h : Graph α) (matched : Nat → Nat → Prop) : Prop :=
  ∀ m n, matched m n →
    ∃ t u, g.term? m = some t ∧ h.term? n = some u ∧ Term.Rel matched t u

/-- Nodes of two graphs that correspond one to one and hold terms of the same shape over
corresponding inputs. -/
structure Matching (g h : Graph α) (matched : Nat → Nat → Prop) : Prop where
  unique : BiUnique matched
  terms : ∀ {m n : Nat}, matched m n →
    ∃ t u, g.term? m = some t ∧ h.term? n = some u ∧ Term.Rel matched t u

variable {g h : Graph α} {matched : Nat → Nat → Prop}

theorem Matching.corresponds (matching : Matching g h matched) : Corresponds g h matched :=
  fun _ _ => matching.terms

theorem Corresponds.lt_size (corresponds : Corresponds g h matched) {m n : Nat}
    (pair : matched m n) : m < g.size ∧ n < h.size := by
  obtain ⟨t, u, found, found', _⟩ := corresponds _ _ pair
  exact ⟨lt_size_of_term? found, lt_size_of_term? found'⟩

theorem Matching.lt_size (matching : Matching g h matched) {m n : Nat} (pair : matched m n) :
    m < g.size ∧ n < h.size :=
  matching.corresponds.lt_size pair

theorem Corresponds.fits (corresponds : Corresponds g h matched) {t u : Term α Nat}
    (rel : Term.Rel matched t u) : t.Fits g.size ∧ u.Fits h.size := by
  constructor
  · cases rel with
    | axis => exact Term.axis_fits _ _
    | const => exact Term.const_fits _ _
    | unary first => exact Term.fits_unary.mpr (corresponds.lt_size first).1
    | binary first second =>
        exact Term.fits_binary.mpr ⟨(corresponds.lt_size first).1, (corresponds.lt_size second).1⟩
  · exact rel.fits fun _ _ pair => (corresponds.lt_size pair).2

theorem Corresponds.grow {k l : Graph α} (corresponds : Corresponds g h matched) (grown : g ≤ k)
    (grown' : h ≤ l) : Corresponds k l matched := by
  intro m n pair
  obtain ⟨t, u, found, found', rel⟩ := corresponds _ _ pair
  exact ⟨t, u, term?_of_le grown found, term?_of_le grown' found', rel⟩

def withPair (matched : Nat → Nat → Prop) (a b : Nat) : Nat → Nat → Prop :=
  fun m n => matched m n ∨ m = a ∧ n = b

theorem le_withPair (matched : Nat → Nat → Prop) (a b : Nat) : matched ≤ withPair matched a b :=
  fun _ _ pair => .inl pair

theorem Corresponds.withPair (corresponds : Corresponds g h matched) {a b : Nat} {t u : Term α Nat}
    (found : g.term? a = some t) (found' : h.term? b = some u) (rel : Term.Rel matched t u) :
    Corresponds g h (withPair matched a b) := by
  intro m n pair
  rcases pair with old | ⟨rfl, rfl⟩
  · obtain ⟨t', u', stored, stored', rel'⟩ := corresponds _ _ old
    exact ⟨t', u', stored, stored', rel'.imp fun _ _ => .inl⟩
  · exact ⟨t, u, found, found', rel.imp fun _ _ => .inl⟩

/-- Terms that correspond may be appended on both sides. Their nodes are new on both sides, so the
correspondence stays one to one. -/
theorem Matching.push (matching : Matching g h matched) {t u : Term α Nat}
    (rel : Term.Rel matched t u) (fits : t.Fits g.size) (fits' : u.Fits h.size) :
    Matching (g.push t fits) (h.push u fits') (withPair matched g.size h.size) := by
  have inside : ∀ {m n}, matched m n → m < g.size ∧ n < h.size := matching.lt_size
  have grown := matching.corresponds.grow (g.le_push t fits) (h.le_push u fits')
  have paired := grown.withPair (g.term?_push_self t fits) (h.term?_push_self u fits') rel
  refine ⟨⟨?_, ?_⟩, paired _ _⟩
  · rintro m m' n (pair | ⟨rfl, rfl⟩) (pair' | ⟨rfl, same⟩)
    · exact matching.unique.1 pair pair'
    · exact absurd (inside pair).2 (by omega)
    · exact absurd (inside pair').2 (by omega)
    · rfl
  · rintro m n n' (pair | ⟨rfl, rfl⟩) (pair' | ⟨same, rfl⟩)
    · exact matching.unique.2 pair pair'
    · exact absurd (inside pair).1 (by omega)
    · exact absurd (inside pair').1 (by omega)
    · rfl

/-- A kind of correspondence that is kept when corresponding terms are appended on both sides. -/
structure Appendable (kind : Graph α → Graph α → (Nat → Nat → Prop) → Prop) : Prop where
  corresponds : ∀ {g h matched}, kind g h matched → Corresponds g h matched
  push : ∀ {g h matched} {t u : Term α Nat}, kind g h matched → Term.Rel matched t u →
    ∀ (fits : t.Fits g.size) (fits' : u.Fits h.size),
      kind (g.push t fits) (h.push u fits') (withPair matched g.size h.size)

theorem Appendable.pushConst {kind : Graph α → Graph α → (Nat → Nat → Prop) → Prop}
    (appendable : Appendable kind) (related : kind g h matched) (c : α) :
    kind (g.pushConst c) (h.pushConst c) (withPair matched g.size h.size) :=
  appendable.push related .const _ _

theorem appendable_matching : Appendable (Matching (α := α)) :=
  ⟨fun matching => matching.corresponds, fun matching => matching.push⟩

/-- The nodes below two roots correspond one to one, root to root, with the same axes, constants and
operators over corresponding inputs in the same order. -/
structure Isomorphism (g : Graph α) (root : Nat) (h : Graph α) (root' : Nat) (f : Nat → Nat) :
    Prop where
  atRoot : f root = root'
  bijective : Set.BijOn f {n | g.Reaches root n} {n | h.Reaches root' n}
  term : ∀ n, g.Reaches root n → h.term? (f n) = (g.term? n).map (Term.map f)

theorem corresponds_of_term {root : Nat} {f : Nat → Nat} (inside : root < g.size)
    (term : ∀ n, g.Reaches root n → h.term? (f n) = (g.term? n).map (Term.map f)) :
    Corresponds g h fun m n => g.Reaches root m ∧ f m = n := by
  rintro m n ⟨reached, rfl⟩
  obtain ⟨t, stored⟩ := exists_term?_of_lt_size (reached.lt_size inside)
  refine ⟨t, t.map f, stored, by rw [term m reached, stored]; rfl, Term.rel_map ?_⟩
  intro a input
  exact ⟨reached.trans (reaches_input stored input), rfl⟩

theorem matching_of_injOn {root : Nat} {f : Nat → Nat} (inside : root < g.size)
    (injective : Set.InjOn f {n | g.Reaches root n})
    (term : ∀ n, g.Reaches root n → h.term? (f n) = (g.term? n).map (Term.map f)) :
    Matching g h fun m n => g.Reaches root m ∧ f m = n := by
  refine ⟨⟨?_, ?_⟩, corresponds_of_term inside term _ _⟩
  · intro m m' n pair pair'
    exact injective pair.1 pair'.1 (pair.2.trans pair'.2.symm)
  · intro m n n' pair pair'
    exact pair.2.symm.trans pair'.2

/-! The walk meets corresponding nodes in the same order. -/

structure Entry.Rel (matched : Nat → Nat → Prop) (entry entry' : Entry α) : Prop where
  node : matched entry.node entry'.node
  term : Term.Rel matched entry.term entry'.term

theorem mem_nodes_iff (unique : BiUnique matched) {done done' : List (Entry α)}
    (listed : List.Forall₂ (Entry.Rel matched) done done') {m n : Nat} (pair : matched m n) :
    m ∈ done.map Entry.node ↔ n ∈ done'.map Entry.node :=
  List.rel_mem unique pair (List.rel_map (fun _ _ rel => rel.node) listed)

private theorem forall₂_searchAll {starts starts' : List Nat} {done done' : List (Entry α)}
    (starting : List.Forall₂ matched starts starts')
    (each : ∀ m ∈ starts, ∀ n, matched m n → ∀ done done',
      List.Forall₂ (Entry.Rel matched) done done' →
        List.Forall₂ (Entry.Rel matched) (g.search m done) (h.search n done'))
    (listed : List.Forall₂ (Entry.Rel matched) done done') :
    List.Forall₂ (Entry.Rel matched) (g.searchAll starts done) (h.searchAll starts' done') := by
  induction starting generalizing done done' with
  | nil => exact listed
  | @cons m n starts starts' pair _ ih =>
      exact ih (fun k member => each k (List.mem_cons_of_mem m member))
        (each m List.mem_cons_self n pair done done' listed)

theorem Matching.forall₂_search (matching : Matching g h matched) {m n : Nat}
    (pair : matched m n) {done done' : List (Entry α)}
    (listed : List.Forall₂ (Entry.Rel matched) done done') :
    List.Forall₂ (Entry.Rel matched) (g.search m done) (h.search n done') := by
  induction m using Nat.strongRecOn generalizing n done done' with
  | ind m ih =>
      by_cases old : m ∈ done.map Entry.node
      · have old' := (mem_nodes_iff matching.unique listed pair).mp old
        rw [search_of_recorded old, search_of_recorded old']
        exact listed
      · have new' := mt (mem_nodes_iff matching.unique listed pair).mpr old
        obtain ⟨t, u, found, found', rel⟩ := matching.terms pair
        rw [search_of_fresh old found, search_of_fresh new' found']
        refine .cons ⟨pair, rel⟩ (forall₂_searchAll rel.forall₂_inputs ?_ listed)
        intro a input b pair' done done' listed
        exact ih a (lt_of_mem_inputs found input) pair' listed

theorem Matching.exists_postOrder (matching : Matching g h matched) {m n : Nat}
    (pair : matched m n) :
    ∃ entries entries', g.postOrder m = .ok entries ∧ h.postOrder n = .ok entries' ∧
      List.Forall₂ (Entry.Rel matched) entries entries' := by
  obtain ⟨inside, inside'⟩ := matching.lt_size pair
  exact ⟨_, _, postOrder_eq_search inside, postOrder_eq_search inside',
    List.rel_reverse (matching.forall₂_search pair .nil)⟩

end Graph

namespace Build

variable {α τ υ τ' υ' : Type} {matched larger : Nat → Nat → Prop}

/-- How two computations on matching graphs end alike. The relation between their results may depend
on the correspondence between the nodes. -/
inductive Alike (matched : Nat → Nat → Prop) (results : (Nat → Nat → Prop) → τ → υ → Prop) :
    EStateM.Result Error (Graph α) τ → EStateM.Result Error (Graph α) υ → Prop where
  | ok {larger : Nat → Nat → Prop} {r : τ} {r' : υ} {g h : Graph α} :
      matched ≤ larger → Graph.Matching g h larger → results larger r r' →
      Alike matched results (.ok r g) (.ok r' h)
  | error {e : Error} {g h : Graph α} : Alike matched results (.error e g) (.error e h)

def Nodes (matched : Nat → Nat → Prop) : Nat → Nat → Prop := matched

theorem Alike.of_le {results : (Nat → Nat → Prop) → τ → υ → Prop} (grown : matched ≤ larger)
    {x : EStateM.Result Error (Graph α) τ} {y : EStateM.Result Error (Graph α) υ}
    (alike : Alike larger results x y) : Alike matched results x y := by
  cases alike with
  | ok further matching related => exact .ok (grown.trans further) matching related
  | error => exact .error

theorem Alike.bind {results : (Nat → Nat → Prop) → τ → υ → Prop}
    {results' : (Nat → Nat → Prop) → τ' → υ' → Prop} {x : Build α τ} {y : Build α υ}
    {f : τ → Build α τ'} {f' : υ → Build α υ'} {g h : Graph α}
    (first : Alike matched results (x g) (y h))
    (next : ∀ {larger r r' k l}, matched ≤ larger → Graph.Matching k l larger →
      results larger r r' → Alike larger results' (f r k) (f' r' l)) :
    Alike matched results' ((x >>= f) g) ((y >>= f') h) := by
  cases ran : x g with
  | ok r k =>
      cases ran' : y h with
      | ok r' l =>
          rw [ran, ran'] at first
          rw [bind_ok ran, bind_ok ran']
          cases first with
          | ok grown matching related => exact (next grown matching related).of_le grown
      | error e l =>
          rw [ran, ran'] at first
          cases first
  | error e k =>
      cases ran' : y h with
      | ok r' l =>
          rw [ran, ran'] at first
          cases first
      | error e' l =>
          rw [ran, ran'] at first
          rw [bind_error ran, bind_error ran']
          cases first
          exact .error

theorem alike_insert {g h : Graph α} {t u : Term α Nat} (matching : Graph.Matching g h matched)
    (rel : Term.Rel matched t u) : Alike matched Nodes (insert t g) (insert u h) := by
  obtain ⟨fits, fits'⟩ := matching.corresponds.fits rel
  rw [insert_ok fits, insert_ok fits']
  exact .ok (Graph.le_withPair _ _ _) (matching.push rel fits fits') (.inr ⟨rfl, rfl⟩)

/-! Folding. The tables are asked for nodes of the graphs at the start, and hold nodes of the graphs
as they have become. -/

def Tables (asked held : Nat → Nat → Prop) (results results' : Std.TreeMap Nat Nat) : Prop :=
  (asked ⇒ Option.Rel held) (fun m => results[m]?) (fun n => results'[n]?)

theorem Tables.imp {asked held : Nat → Nat → Prop} {results results' : Std.TreeMap Nat Nat}
    (tables : Tables asked held results results') (grown : held ≤ larger) :
    Tables asked larger results results' := by
  intro m n pair
  exact rel_option_imp (tables pair) grown

theorem Tables.insert {asked held : Nat → Nat → Prop} {results results' : Std.TreeMap Nat Nat}
    (tables : Tables asked held results results') (unique : BiUnique asked) {m n r r' : Nat}
    (pair : asked m n) (related : held r r') :
    Tables asked held (results.insert m r) (results'.insert n r') := by
  intro k l pair'
  simp only [Std.TreeMap.getElem?_insert, Nat.compare_eq_eq]
  have same : m = k ↔ n = l := rel_eq unique pair pair'
  by_cases hit : m = k
  · rw [if_pos hit, if_pos (same.mp hit)]
    exact .some related
  · rw [if_neg hit, if_neg (mt same.mpr hit)]
    exact tables pair'

variable {f f' : Nat → Term α Nat → Term α Nat → Build α Nat}

def StepsAlike (asked : Nat → Nat → Prop) (f f' : Nat → Term α Nat → Term α Nat → Build α Nat) :
    Prop :=
  ∀ {held : Nat → Nat → Prop} {g h : Graph α} {entry entry' : Graph.Entry α}
    {after after' : Term α Nat}, asked ≤ held → Graph.Matching g h held →
    Graph.Entry.Rel asked entry entry' → Term.Rel held after after' →
    Alike held Nodes (f entry.node entry.term after g) (f' entry'.node entry'.term after' h)

theorem alike_foldEntry {asked held : Nat → Nat → Prop} {g h : Graph α}
    {results results' : Std.TreeMap Nat Nat} {entry entry' : Graph.Entry α}
    (steps : StepsAlike asked f f') (unique : BiUnique asked) (grown : asked ≤ held)
    (matching : Graph.Matching g h held) (tables : Tables asked held results results')
    (rel : Graph.Entry.Rel asked entry entry') :
    Alike held (Tables asked) (Graph.foldEntry f results entry g)
      (Graph.foldEntry f' results' entry' h) := by
  rcases rel_option_cases (rel.term.map? tables) with ⟨absent, absent'⟩ | found
  · simp only [Graph.foldEntry, absent, absent']
    exact .error
  · obtain ⟨after, after', replaced, replaced', related⟩ := found
    simp only [Graph.foldEntry, replaced, replaced']
    refine (steps grown matching rel related).bind fun further matching' result => ?_
    exact .ok le_rfl matching' ((tables.imp further).insert unique rel.node result)

theorem alike_foldlM {asked held : Nat → Nat → Prop} {g h : Graph α}
    {results results' : Std.TreeMap Nat Nat} {entries entries' : List (Graph.Entry α)}
    (steps : StepsAlike asked f f') (unique : BiUnique asked) (grown : asked ≤ held)
    (matching : Graph.Matching g h held) (tables : Tables asked held results results')
    (listed : List.Forall₂ (Graph.Entry.Rel asked) entries entries') :
    Alike held (Tables asked) (entries.foldlM (Graph.foldEntry f) results g)
      (entries'.foldlM (Graph.foldEntry f') results' h) := by
  induction listed generalizing held g h results results' with
  | nil => exact .ok le_rfl matching tables
  | cons rel _ ih =>
      rw [List.foldlM_cons, List.foldlM_cons]
      refine (alike_foldEntry steps unique grown matching tables rel).bind ?_
      intro larger r r' k l further matching' tables'
      exact ih (grown.trans further) matching' tables'

theorem alike_foldEntries {asked : Nat → Nat → Prop} {g h : Graph α} {root root' : Nat}
    {entries entries' : List (Graph.Entry α)} (steps : StepsAlike asked f f')
    (matching : Graph.Matching g h asked) (pair : asked root root')
    (listed : List.Forall₂ (Graph.Entry.Rel asked) entries entries') :
    Alike asked Nodes (Graph.foldEntries entries root f g)
      (Graph.foldEntries entries' root' f' h) := by
  have start : Tables asked asked ∅ ∅ := fun _ _ _ => by simp
  refine (alike_foldlM steps matching.unique le_rfl matching start listed).bind ?_
  intro larger results results' k l grown matching' tables
  rcases rel_option_cases (tables pair) with ⟨absent, absent'⟩ | found
  · simp only [absent, absent']
    exact .error
  · obtain ⟨r, r', filed, filed', related⟩ := found
    simp only [filed, filed']
    exact .ok le_rfl matching' related

end Build

end SurfaceTape

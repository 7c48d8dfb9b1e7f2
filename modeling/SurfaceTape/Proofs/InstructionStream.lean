import SurfaceTape.Proofs.Rewriting
import SurfaceTape.Proofs.SlotDemand

/-!
# Code follows the order of the nodes

The constants are collected in one pass over the order, and the instructions are made in another
one. The two meet in the bits of a constant: a load looks for the bits of its own node, and finds
them in the place where they were first put.
-/

set_option autoImplicit false

namespace SurfaceTape

namespace Term

variable {α ν : Type}

def opcode? : Term α ν → Option Opcode
  | .axis _ => none
  | .const _ => some .const
  | .unary op _ => some (Operator.unary op).opcode
  | .binary op _ _ => some (Operator.binary op).opcode

end Term

namespace Plan

variable {α β : Type} [Sample β] [Narrow α β]

def sameBits (c d : β) : Bool := Sample.bits c == Sample.bits d

private theorem any_sameBits_reverse (pool : List β) (c : β) :
    pool.reverse.any (sameBits c) = pool.any fun d => Sample.bits d == Sample.bits c := by
  rw [List.any_reverse]
  congr 1
  funext d
  exact Bool.beq_comm

private theorem foldl_addConstant_eq (constants pool : List β) :
    constants.foldl addConstant pool = List.eraseDupsBy.loop sameBits constants pool.reverse := by
  induction constants generalizing pool with
  | nil => simp [List.eraseDupsBy.loop]
  | cons c rest ih =>
      rw [List.foldl_cons, ih, List.eraseDupsBy.loop, any_sameBits_reverse, addConstant]
      cases pool.any fun d => Sample.bits d == Sample.bits c <;> simp

/-- The pool is the list of the constants without the repetitions of bits. -/
theorem poolOf_eq_eraseDupsBy (entries : List (Graph.Entry α)) :
    (poolOf entries : List β) =
      (entries.filterMap fun entry => entry.term.const?.map Narrow.narrow).eraseDupsBy sameBits :=
  foldl_addConstant_eq _ []

end Plan

namespace Graph

open Lowering

variable {α β : Type}

def isAxis (g : Graph α) (n : Nat) : Bool := ((g.term? n).bind Term.axis?).isSome

def constantsOf [Narrow α β] (g : Graph α) (nodes : List Nat) : List β :=
  (nodes.filterMap g.const?).map Narrow.narrow

private theorem isAxis_eq {g : Graph α} {n : Nat} {t : Term α Nat} (stored : g.term? n = some t) :
    g.isAxis n = t.axis?.isSome := by
  rw [isAxis, stored]
  rfl

private theorem constantsOf_eq [Narrow α β] {g : Graph α} {root : Nat} {entries : List (Entry α)}
    (ordered : g.Ordered root entries) :
    (g.constantsOf (entries.map Entry.node) : List β) =
      entries.filterMap fun entry => entry.term.const?.map Narrow.narrow := by
  rw [constantsOf, List.filterMap_map, List.map_filterMap]
  refine List.filterMap_congr fun entry member => ?_
  simp [const?, ordered.term? member]

variable [Sample β] [Narrow α β]

/-- The instruction has the opcode of the node, and if the node is a constant, the place from which
the instruction loads holds the bits of that constant. -/
structure Renders (g : Graph α) (pool : List β) (n : Nat) (i : Instruction) : Prop where
  opcode : ∃ t op, g.term? n = some t ∧ t.opcode? = some op ∧ i.opcode = .ok op
  constant : ∀ c, g.const? n = some c →
    ∃ d, pool[i.a.toNat]? = some d ∧ Sample.bits d = Sample.bits (Narrow.narrow c : β)

variable {g : Graph α} {root : Nat} {entries earlier : List (Entry α)} {entry : Entry α}
  {pool : List β} {code : List Instruction} {i : Instruction}

theorem renders_of_encodes {plan : Plan β} {table : SlotTable} {n : Nat} {t : Term α Nat}
    {op : Opcode} {a b : Nat} (stored : g.term? n = some t)
    (pooled : ∀ c, t = .const c → Narrow.narrow c ∈ plan.pool)
    (encodes : Encodes plan table t op a b) (opcode : i.opcode = .ok op) (first : i.a.toNat = a) :
    g.Renders plan.pool n i := by
  cases encodes with
  | const c =>
      refine ⟨⟨_, _, stored, rfl, opcode⟩, fun d value => ?_⟩
      cases stored.symm.trans (term?_of_const? value)
      exact ⟨Narrow.narrow c, first ▸ Plan.getElem?_poolIndex (pooled c rfl), rfl⟩
  | unary _ =>
      refine ⟨⟨_, _, stored, rfl, opcode⟩, fun d value => ?_⟩
      cases stored.symm.trans (term?_of_const? value)
  | binary _ _ =>
      refine ⟨⟨_, _, stored, rfl, opcode⟩, fun d value => ?_⟩
      cases stored.symm.trans (term?_of_const? value)

def Streamed (g : Graph α) (pool : List β) (earlier : List (Entry α)) (code : List Instruction) :
    Prop :=
  List.Forall₂ (g.Renders pool) ((earlier.map Entry.node).filter fun n => !g.isAxis n) code

theorem Streamed.skip (streamed : Streamed g pool earlier code)
    (stored : g.term? entry.node = some entry.term) {a : Axis} (kind : entry.term = .axis a) :
    Streamed g pool (earlier ++ [entry]) code := by
  have passed : g.isAxis entry.node = true := by
    rw [isAxis_eq stored, kind]
    rfl
  simpa [Streamed, passed] using streamed

theorem Streamed.concat (streamed : Streamed g pool earlier code)
    (stored : g.term? entry.node = some entry.term) (operator : entry.term.axis? = none)
    (renders : g.Renders pool entry.node i) :
    Streamed g pool (earlier ++ [entry]) (code ++ [i]) := by
  have coded : g.isAxis entry.node = false := by
    rw [isAxis_eq stored, operator]
    rfl
  rw [Streamed, List.map_append, List.filter_append]
  refine List.rel_append streamed ?_
  simpa [coded] using renders

theorem streamed_kept (ordered : g.Ordered root entries) :
    Kept (Plan.ofEntries entries : Plan β) entries
      fun earlier layout =>
        Streamed g (Plan.poolOf entries : List β) earlier layout.code.reverse := by
  intro earlier later entry layout next split streamed emits
  have stored := (ordered.split split).1
  cases emits with
  | axis kind => exact streamed.skip stored kind
  | instruction encodes made =>
      obtain ⟨opcode, _, first, _⟩ := Instruction.fields_of_make made
      have member : entry ∈ entries := by simp [split]
      have renders := renders_of_encodes stored (fun _ kind => Plan.mem_poolOf member kind)
        encodes opcode first
      rw [List.reverse_cons]
      exact streamed.concat stored encodes.axis? renders

/-- Code and constants of a tape mirror the graph. There is one instruction for each node of the
order that is no axis, in the same order and with the opcode of the node. The pool lists the
constants of the order as the tape holds them, without those whose bits were met before, and a load
takes the bits of its own node from it. -/
theorem lower_mirrors_order {tape : Tape β} (lowered : g.lower root = .ok tape) :
    ∃ nodes, g.order root = .ok nodes ∧
      List.Forall₂ (g.Renders tape.constants) (nodes.filter fun n => !g.isAxis n) tape.code ∧
      tape.constants = (g.constantsOf nodes).eraseDupsBy Plan.sameBits ∧
      (tape.constants.map Sample.bits).Nodup := by
  obtain ⟨t, stored, operator⟩ := exists_term?_of_lower lowered
  obtain ⟨before, listed⟩ := exists_postOrder_concat stored
  have ordered := (Ordered.of_postOrder listed).2
  have member : (⟨root, t⟩ : Entry α) ∈ before ++ [⟨root, t⟩] := by simp
  rcases lower_induct _ rfl listed rfl operator .nil (streamed_kept (β := β) ordered) with
    ⟨layout, op, a, b, i, streamed, encodes, made, closed⟩ | ⟨_, _, _, _, e, _, _, _, failed⟩
  · cases closed.symm.trans lowered
    obtain ⟨opcode, _, first, _⟩ := Instruction.fields_of_make made
    -- The last instruction is moved to slot 0, and keeps its opcode and inputs.
    have renders : g.Renders (Plan.poolOf (before ++ [⟨root, t⟩]) : List β) root (i.setOutput 0) :=
      renders_of_encodes stored (fun _ kind => Plan.mem_poolOf member kind) encodes opcode first
    refine ⟨_, order_of_postOrder listed, streamed.concat stored operator renders, ?_,
      Plan.nodup_bits_poolOf _⟩
    rw [constantsOf_eq ordered]
    exact Plan.poolOf_eq_eraseDupsBy _
  · cases failed.symm.trans lowered

instance : Narrow UInt64 UInt32 := ⟨UInt64.toUInt32⟩

/-- The expression `(c + x) * (5 - 7)`, where `c` is another constant than `5` and narrows to it. -/
def halvedWords : Graph UInt64 where
  terms := #[.const 0x100000005, .axis .x, .binary .add 0 1, .const 5, .const 7, .binary .sub 3 4,
    .binary .mul 2 5]
  acyclic := by decide

def halvedWordsTape : Tape UInt32 where
  code :=
    [⟨0, 1, 0, 0⟩, ⟨6, 0, 1, 0⟩, ⟨0, 1, 0, 0⟩, ⟨0, 2, 1, 0⟩, ⟨7, 1, 1, 2⟩, ⟨8, 0, 0, 1⟩]
  constants := [5, 7]
  slotCount := 4

theorem lower_halvedWords_mirrors_order :
    halvedWords.lower 6 = .ok halvedWordsTape ∧
      List.Forall₂ (halvedWords.Renders halvedWordsTape.constants) [0, 2, 3, 4, 5, 6]
        halvedWordsTape.code ∧
      halvedWordsTape.constants = [5, 5, 7].eraseDupsBy Plan.sameBits := by
  have known : halvedWords.postOrder 6 = .ok [⟨0, .const 0x100000005⟩, ⟨1, .axis .x⟩,
      ⟨2, .binary .add 0 1⟩, ⟨3, .const 5⟩, ⟨4, .const 7⟩, ⟨5, .binary .sub 3 4⟩,
      ⟨6, .binary .mul 2 5⟩] := by
    cbv
  have lowered : halvedWords.lower 6 = .ok halvedWordsTape := by
    rw [lower_eq_lowerEntries (t := .binary .mul 2 5) rfl rfl known]
    rfl
  have listed : halvedWords.order 6 = .ok [0, 1, 2, 3, 4, 5, 6] := order_of_postOrder known
  obtain ⟨nodes, ordered, streamed, pooled, _⟩ := lower_mirrors_order lowered
  cases listed.symm.trans ordered
  exact ⟨lowered, streamed, pooled⟩

end Graph

end SurfaceTape

import SurfaceTape.Graph.Axes
import SurfaceTape.Lowering.SlotTable
import SurfaceTape.Scalar.Basic

/-!
# Plans

What has to be known of a whole post-order before code is laid out for it: the constants it loads,
and the position at which each node is used for the last time.
-/

set_option autoImplicit false

namespace SurfaceTape

structure Plan (β : Type) where
  pool : List β
  lastUse : Std.TreeMap Nat Nat

namespace Plan

variable {α β : Type} [Sample β] [Narrow α β]

/-- Adds a constant to a pool, unless one with the same bits is in it. -/
def addConstant (pool : List β) (c : β) : List β :=
  if pool.any fun d => Sample.bits d == Sample.bits c then pool else pool ++ [c]

/-- The constants of the entries, converted, each bit pattern once and in the order of its first
appearance. -/
def poolOf (entries : List (Graph.Entry α)) : List β :=
  (entries.filterMap fun entry => entry.term.const?.map Narrow.narrow).foldl addConstant []

def poolIndex (pool : List β) (c : β) : Nat :=
  pool.findIdx fun d => Sample.bits d == Sample.bits c

def noteUses (uses : Std.TreeMap Nat Nat) (entry : Graph.Entry α × Nat) : Std.TreeMap Nat Nat :=
  entry.1.term.inputs.foldl (fun uses n => uses.insert n entry.2) uses

def lastUses (entries : List (Graph.Entry α)) : Std.TreeMap Nat Nat :=
  entries.zipIdx.foldl noteUses ∅

/-- The plan for the entries below a root. Every other node has to be used somewhere. -/
def make (entries : List (Graph.Entry α)) (root : Nat) : Except Error (Plan β) :=
  let uses := lastUses entries
  match entries.find? fun entry => entry.node ≠ root ∧ !uses.contains entry.node with
  | some entry => .error (.internal (.deadNode entry.node))
  | none => .ok ⟨poolOf entries, uses⟩

def isLastUse (plan : Plan β) (node position : Nat) : Bool := plan.lastUse[node]? = some position

end Plan

end SurfaceTape

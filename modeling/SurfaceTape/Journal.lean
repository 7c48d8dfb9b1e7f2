import SurfaceTape.Error
import SurfaceTape.Tape.Opcode

/-!
# Journals

What the compiler reports while it works. Events are data; their wording stands here and nowhere
else.
-/

set_option autoImplicit false

namespace SurfaceTape

inductive Level where
  | debug
  | trace
  deriving DecidableEq

inductive Event where
  /-- Axes were merged; the sizes are those below the root before and after. -/
  | axesUnified (before after : Nat)
  | simplified (before after : Nat)
  | released (slot node : Nat)
  | bound (node slot : Nat)
  | emitted (position : Nat) (op : Opcode) (out a b : Nat)
  | finished (instructions slots constants : Nat)
  | compiled (nodes instructions : Nat)
  deriving DecidableEq

namespace Event

/-- The detail of an event. What concerns a single node is finer than what concerns a graph. -/
def level : Event → Level
  | .released .. => .trace
  | .bound .. => .trace
  | .emitted .. => .trace
  | _ => .debug

def change (before after : Nat) : String :=
  toString before ++ " -> " ++ toString after ++ " nodes"

def message : Event → String
  | .axesUnified before after => "merge_axes: " ++ change before after
  | .simplified before after => "simplify: " ++ change before after
  | .released slot node => "releasing slot " ++ toString slot ++ " (Some(" ++ nodeText node ++ "))"
  | .bound node slot => "binding " ++ nodeText node ++ " to slot " ++ toString slot
  | .emitted position op out a b =>
      toString position ++ ": " ++ op.name ++ " out=" ++ toString out ++ " a=" ++ toString a ++
        " b=" ++ toString b
  | .finished instructions slots constants =>
      "tape: " ++ toString instructions ++ " instructions, " ++ toString slots ++ " slots, " ++
        toString constants ++ " constants"
  | .compiled nodes instructions =>
      "compiled " ++ toString nodes ++ " nodes into " ++ toString instructions ++ " instructions"

end Event

namespace Level

def name : Level → String
  | .debug => "DEBUG"
  | .trace => "TRACE"

/-- Whether a journal kept at this level holds events of the other one. -/
def keeps (limit level : Level) : Bool := limit = .trace || level = .debug

end Level

end SurfaceTape

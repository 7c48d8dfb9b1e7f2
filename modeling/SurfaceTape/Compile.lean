import SurfaceTape.Graph.Simplify
import SurfaceTape.Lowering.Basic
import SurfaceTape.Tape.Check

/-!
# Compiling

From a node to a tape: the axes are merged, the expression is simplified on request, its code is
laid out, and the tape is checked on request. Every step reports to a journal; a step that fails
leaves the reports before it, and the nodes that were appended, in place.
-/

set_option autoImplicit false

namespace SurfaceTape

structure Workspace (α : Type) where
  graph : Graph α
  journal : Array Event

structure Options where
  simplify : Bool
  validate : Bool

namespace Options

def all : Options := ⟨true, true⟩

end Options

abbrev Compile (α τ : Type) := EStateM Error (Workspace α) τ

namespace Compile

variable {α β : Type}

def report (event : Event) : Compile α Unit := fun w =>
  .ok () { w with journal := w.journal.push event }

/-- Runs a pass and reports the sizes below its root and below its result. -/
def pass (run : Nat → Build α Nat) (event : Nat → Nat → Event) (root : Nat) : Compile α Nat :=
  fun ⟨graph, journal⟩ =>
    match run root graph with
    | .error e graph => .error e ⟨graph, journal⟩
    | .ok out graph =>
        match graph.nodeCount root, graph.nodeCount out with
        | .ok before, .ok after => .ok out ⟨graph, journal.push (event before after)⟩
        | .error e, _ => .error e ⟨graph, journal⟩
        | _, .error e => .error e ⟨graph, journal⟩

def unifyAxes (root : Nat) : Compile α Nat := pass Build.unifyAxes .axesUnified root

def simplify [Scalar α] (root : Nat) : Compile α Nat := pass Build.simplify .simplified root

def lower [Sample β] [Narrow α β] (root : Nat) : Compile α (Tape β) := fun ⟨graph, journal⟩ =>
  match graph.lowering root with
  | ⟨reported, .ok tape⟩ => .ok tape ⟨graph, journal ++ reported⟩
  | ⟨reported, .error e⟩ => .error e ⟨graph, journal ++ reported⟩

def check (tape : Tape β) : Compile α Unit := fun w =>
  match tape.check with
  | .ok () => .ok () w
  | .error e => .error e w

def run [Scalar α] [Sample β] [Narrow α β] (options : Options) (root : Nat) :
    Compile α (Tape β) := do
  let merged ← unifyAxes root
  let optimised ← if options.simplify then simplify merged else pure merged
  let tape ← lower optimised
  if options.validate then
    check tape
  let nodes := (← get).graph.size
  report (.compiled nodes tape.code.length)
  return tape

end Compile

/-- The tape for the expression at a node, or why there is none. The graph is extended by the nodes
that the passes append. -/
def Build.compile {α β : Type} [Scalar α] [Sample β] [Narrow α β] (options : Options)
    (root : Nat) : Build α (Tape β) := fun g =>
  match Compile.run options root ⟨g, #[]⟩ with
  | .ok tape w => .ok tape w.graph
  | .error e w => .error e w.graph

end SurfaceTape

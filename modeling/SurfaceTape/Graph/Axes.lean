import SurfaceTape.Graph.Fold

/-!
# One node per axis

An axis may have been inserted several times. Merging lets the first of its nodes stand for all of
them, and rebuilds the operators above the others. A node with nothing to replace below it stays
as it is.
-/

set_option autoImplicit false

namespace SurfaceTape

namespace Graph

variable {α : Type}

/-- The first of the entries that is the given axis. -/
def axisNode? (entries : List (Entry α)) (a : Axis) : Option Nat :=
  (entries.find? fun entry => entry.term.axis? = some a).map Entry.node

def axisNodes (entries : List (Entry α)) : List (Option Nat) :=
  Axis.all.map (axisNode? entries)

end Graph

namespace Build

variable {α : Type}

def unifyTerm (axes : List (Option Nat)) (node : Nat) (before after : Term α Nat) : Build α Nat :=
  match before with
  | .axis a => pure (axes[a.slot]?.join.getD node)
  | .const _ => pure node
  | _ => if after.inputs = before.inputs then pure node else insert after

/-- Lets one node stand for each axis below the root. -/
def unifyAxes (root : Nat) : Build α Nat := fun g =>
  match g.postOrder root with
  | .error e => .error e g
  | .ok entries => Graph.foldEntries entries root (unifyTerm (Graph.axisNodes entries)) g

end Build

end SurfaceTape

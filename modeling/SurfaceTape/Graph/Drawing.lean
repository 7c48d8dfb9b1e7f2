import SurfaceTape.Decimal.Fixed
import SurfaceTape.Graph.PostOrder

/-!
# Drawings

The graph below a node in the language of graph drawing tools: one line for each node, followed by
one line for each of its inputs.
-/

set_option autoImplicit false

namespace SurfaceTape

inductive Colour where
  | red
  | green
  | goldenrod
  | dodgerBlue
  deriving DecidableEq

namespace Colour

def name : Colour → String
  | .red => "red"
  | .green => "green"
  | .goldenrod => "goldenrod"
  | .dodgerBlue => "dodgerblue"

def rgb : Colour → String
  | .red => "#FF0000"
  | .green => "#00FF00"
  | .goldenrod => "#DAA520"
  | .dodgerBlue => "#1E90FF"

end Colour

namespace Term

variable {ν : Type}

def colour {α : Type} : Term α ν → Colour
  | .const _ => .green
  | .axis _ => .red
  | .binary .min _ _ => .dodgerBlue
  | .binary .max _ _ => .dodgerBlue
  | _ => .goldenrod

def shape {α : Type} : Term α ν → String
  | .const _ => "oval"
  | .axis _ => "circle"
  | _ => "box"

/-- The text that is written into a node. Constants have one decimal place. -/
def label : Term Float ν → String
  | .const c => Decimal.fixed 1 (.ofBinary64 c)
  | .axis a => a.name
  | .unary op _ => op.name
  | .binary op _ _ => op.name

end Term

namespace Drawing

def quoted (text : String) : String := "\"" ++ text ++ "\""

def nodeLine (n : Nat) (t : Term Float Nat) : String :=
  let colour := t.colour.name
  "n" ++ toString n ++ " [label = " ++ quoted t.label ++ " color=" ++ quoted (colour ++ "1") ++
    " shape=" ++ quoted t.shape ++ " fontcolor=" ++ quoted (colour ++ "4") ++ "]\n"

def edgeLine {α : Type} (t : Term α Nat) (source target : Nat) (number : Option Nat) : String :=
  let mark := match number with
    | some i => " label = " ++ quoted (toString i)
    | none => ""
  "n" ++ toString source ++ " -> n" ++ toString target ++ " [color = " ++ quoted t.colour.rgb ++
    mark ++ "]\n"

/-- The lines of a node and of the edges to its inputs. Edges are numbered on request, and only
where there is more than one. -/
def entryLines (numbered : Bool) (entry : Graph.Entry Float) : List String :=
  let inputs := entry.term.inputs
  let number (i : Nat) : Option Nat := if numbered && 1 < inputs.length then some i else none
  nodeLine entry.node entry.term ::
    inputs.zipIdx.map fun (target, i) => edgeLine entry.term entry.node target (number i)

end Drawing

def Graph.draw (g : Graph Float) (root : Nat) (numbered : Bool) : Except Error String :=
  (g.postOrder root).map fun entries =>
    "digraph \"DAG with " ++ toString entries.length ++ " nodes\" \x7b\n" ++
      String.join (entries.flatMap (Drawing.entryLines numbered)) ++ "\x7d\n"

end SurfaceTape

import SurfaceTape.Error

/-!
# Building graphs

Builders run on a graph and give a node or a failure. A failing builder keeps the graph it had
reached: a constant that was appended before the failure stays.
-/

set_option autoImplicit false

namespace SurfaceTape

abbrev Build (α τ : Type) := EStateM Error (Graph α) τ

/-- An input of a builder: a node, or a constant that the builder appends first. -/
inductive Operand (α : Type) where
  | node (n : Nat)
  | const (c : α)

namespace Build

variable {α : Type}

def insert (t : Term α Nat) : Build α Nat := fun g =>
  if fits : t.Fits g.size then .ok g.size (g.push t fits) else .error .badNode g

def axis (a : Axis) : Build α Nat := fun g => .ok g.size (g.pushAxis a)

def constant (c : α) : Build α Nat := fun g => .ok g.size (g.pushConst c)

def resolve : Operand α → Build α Nat
  | .node n => fun g => if n < g.size then .ok n g else .error .badNode g
  | .const c => constant c

def unary (op : UnaryOp) (a : Operand α) : Build α Nat := do
  let a ← resolve a
  insert (.unary op a)

/-- Appends a binary operator. The first operand is resolved before the second. -/
def binary (op : BinaryOp) (a b : Operand α) : Build α Nat := do
  let a ← resolve a
  let b ← resolve b
  insert (.binary op a b)

/-- Appends an operator over a list of nodes. Their number is checked before the nodes are. -/
def apply (op : Operator) (inputs : List Nat) : Build α Nat :=
  match op, inputs with
  | .unary u, [a] => insert (.unary u a)
  | .binary b, [a, c] => insert (.binary b a c)
  | op, inputs => throw (.badArity op inputs.length)

end Build

end SurfaceTape

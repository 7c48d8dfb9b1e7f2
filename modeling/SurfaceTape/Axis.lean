/-!
# Axes and points

An expression is a function of three space coordinates and time. The four coordinates are its
axes; a point gives each of them a value. Nothing is assumed of the type of those values.
-/

set_option autoImplicit false

namespace SurfaceTape

inductive Axis where
  | x
  | y
  | z
  | t
  deriving DecidableEq

namespace Axis

def all : List Axis := [.x, .y, .z, .t]

/-- The slot that holds the value of the axis when a tape starts. -/
def slot : Axis → Nat
  | .x => 0
  | .y => 1
  | .z => 2
  | .t => 3

def slotCount : Nat := 4

def name : Axis → String
  | .x => "X"
  | .y => "Y"
  | .z => "Z"
  | .t => "T"

theorem slot_lt_slotCount (a : Axis) : a.slot < slotCount := by
  cases a <;> decide

theorem all_getElem?_slot (a : Axis) : all[a.slot]? = some a := by
  cases a <;> rfl

end Axis

structure Point (β : Type) where
  x : β
  y : β
  z : β
  t : β

namespace Point

variable {β γ : Type}

def coordinate (p : Point β) : Axis → β
  | .x => p.x
  | .y => p.y
  | .z => p.z
  | .t => p.t

def map (f : β → γ) (p : Point β) : Point γ :=
  ⟨f p.x, f p.y, f p.z, f p.t⟩

end Point

end SurfaceTape

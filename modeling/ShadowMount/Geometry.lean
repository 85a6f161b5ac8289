import ShadowMount.Numeric.ShortestDecimal

/-!
# Coordinates and frames

Positions and sizes are numbers of some type `κ`. The mount core only adds positions on the way
down or up the tree, divides by a size, and asks whether a frame differs from the one last sent,
so it is written once for every such type.

No law is assumed. In single precision the order of additions matters, and equality is not
reflexive (a NaN differs from itself); a theory that needs exact arithmetic asks for it.

A `Frame` is the rectangle that layout gives to a node, relative to some parent.
-/

namespace ShadowMount

/-! ## Coordinates -/

/-- The arithmetic of positions and sizes. -/
class Coordinate (κ : Type) extends Zero κ, Add κ, Mul κ, Div κ, BEq κ where
  /-- A count as a coordinate. -/
  ofCount : Nat → κ
  /-- A coordinate as it is written in a log line. -/
  text : κ → String

/-- Single precision, as the platforms lay out. -/
instance : Coordinate Float32 where
  zero := 0
  ofCount := Float32.ofNat
  text x := ShortestDecimal.ofBinary32 x.toBits

/-! ## Frames -/

/-- A position inside a parent, and a size. -/
structure Frame (κ : Type) where
  x : κ
  y : κ
  width : κ
  height : κ
  deriving DecidableEq, Inhabited

namespace Frame

variable {κ : Type} [Coordinate κ]

/-- The frame of a node that was never laid out. -/
def zero : Frame κ := ⟨0, 0, 0, 0⟩

/-- A frame at the origin. -/
def ofSize (width height : κ) : Frame κ := ⟨0, 0, width, height⟩

/-- The frame moved by `(dx, dy)`. -/
def shift (frame : Frame κ) (dx dy : κ) : Frame κ :=
  { frame with x := frame.x + dx, y := frame.y + dy }

/-- Equality of frames, coordinate by coordinate. -/
def same (a b : Frame κ) : Bool :=
  a.x == b.x && a.y == b.y && a.width == b.width && a.height == b.height

end Frame

end ShadowMount

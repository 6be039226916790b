import Mathlib.Order.Lattice
import Mathlib.Tactic.Ring

/-! Points and rectangles in workspace coordinates. Coordinates are `i32` and sizes `u32`:
integers here, with the saturation and the wrap-around of the machine written out. -/
namespace InputShare

def i32Min : Int := -2147483648
def i32Max : Int := 2147483647

/-- `as i32`, and `+` or `-` on `i32` in a release build. -/
def wrapI32 (n : Int) : Int := (n + 2147483648) % 4294967296 - 2147483648

/-- The result of a saturating operation on `i32`. -/
def satI32 (n : Int) : Int := max i32Min (min i32Max n)

structure Point where
  x : Int
  y : Int
deriving DecidableEq, Repr

def Point.default : Point := ⟨0, 0⟩

structure Rect where
  x : Int
  y : Int
  width : Nat
  height : Nat
deriving DecidableEq, Repr

namespace Rect

def maxX (r : Rect) : Int := satI32 (r.x + wrapI32 r.width)
def maxY (r : Rect) : Int := satI32 (r.y + wrapI32 r.height)

def contains (r : Rect) (p : Point) : Bool :=
  decide (p.x ≥ r.x) && decide (p.x < r.maxX) && decide (p.y ≥ r.y) && decide (p.y < r.maxY)

/-- `i32::clamp`. -/
def clampTo (lo hi v : Int) : Int := if v < lo then lo else if v > hi then hi else v

/-- Nearest point inside the rectangle; a degenerate one clamps to its origin. -/
def clamp (r : Rect) (p : Point) : Point :=
  let hiX := max (satI32 (r.maxX - 1)) r.x
  let hiY := max (satI32 (r.maxY - 1)) r.y
  ⟨clampTo r.x hiX p.x, clampTo r.y hiY p.y⟩

def translate (r : Rect) (b : Point) : Rect :=
  { r with x := satI32 (r.x + b.x), y := satI32 (r.y + b.y) }

def union (r other : Rect) : Rect :=
  let x := min r.x other.x
  let y := min r.y other.y
  let maxX := max r.maxX other.maxX
  let maxY := max r.maxY other.maxY
  ⟨x, y, (max (wrapI32 (maxX - x)) 0).toNat, (max (wrapI32 (maxY - y)) 0).toNat⟩

end Rect
end InputShare

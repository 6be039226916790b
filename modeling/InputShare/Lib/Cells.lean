import Mathlib.Data.List.Basic

/-! Durable cells. A write that returned has replaced what the cell holds; one that was cut short
has replaced it or has done nothing. -/
namespace Cells
variable {α : Type*}

/-- A write of a cell, `none` to empty it, and whether it returned. -/
structure Write (α : Type*) where
  value : Option α
  returned : Bool
deriving DecidableEq, Repr

/-- What a cell that held `start` may hold behind these writes, the newest of them first. -/
def Holds (start : Option α) : List (Write α) → Option α → Prop
  | [], v => v = start
  | w :: ws, v => v = w.value ∨ w.returned = false ∧ Holds start ws v

variable {start v : Option α} {ws : List (Write α)} {w : Write α}

theorem Holds.took (h : v = w.value) : Holds start (w :: ws) v := .inl h

theorem Holds.lost (h : Holds start ws v) (hw : w.returned = false) :
    Holds start (w :: ws) v := .inr ⟨hw, h⟩

end Cells

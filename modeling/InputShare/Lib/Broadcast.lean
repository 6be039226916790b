import Mathlib.Data.Nat.Notation

/-! A channel that shows each receiver what is sent after it subscribed. It keeps the last values
only: a receiver that has fallen further behind is told so once, and goes on with the oldest value
kept. -/
namespace Broadcast
variable {μ : Type*}

inductive Received (μ : Type*) where
  | value (m : μ)
  | lagged (missed : ℕ)

def unread (sent : List μ) (pos : ℕ) : ℕ := sent.length - pos

/-- What a receiver gets, and the position it goes on from; it waits while there is nothing left. -/
def recv (capacity : ℕ) (sent : List μ) (pos : ℕ) : Option (Received μ × ℕ) :=
  if capacity < unread sent pos then
    some (.lagged (unread sent pos - capacity), sent.length - capacity)
  else sent[pos]?.map fun m => (.value m, pos + 1)

variable {capacity pos next : ℕ} {sent : List μ} {r : Received μ}

@[simp] theorem unread_length (sent : List μ) : unread sent sent.length = 0 := Nat.sub_self _

theorem unread_append (h : pos ≤ sent.length) (m : μ) :
    unread (sent ++ [m]) pos = unread sent pos + 1 := by
  simp only [unread, List.length_append, List.length_singleton]
  omega

theorem unread_append_ne_zero (h : pos ≤ sent.length) (m : μ) : unread (sent ++ [m]) pos ≠ 0 := by
  rw [unread_append h]
  exact Nat.succ_ne_zero _

theorem recv_of_unread_le (h : unread sent pos ≤ capacity)
    (hr : recv capacity sent pos = some (r, next)) :
    ∃ m, r = .value m ∧ next = pos + 1 ∧ pos < sent.length := by
  rw [recv, if_neg (Nat.not_lt.mpr h)] at hr
  obtain ⟨m, hm, hnext⟩ := Option.map_eq_some_iff.mp hr
  obtain ⟨rfl, rfl⟩ := Prod.mk.inj hnext
  obtain ⟨hlt, -⟩ := List.getElem?_eq_some_iff.mp hm
  exact ⟨m, rfl, rfl, hlt⟩

theorem recv_of_lt_unread (h : capacity < unread sent pos)
    (hr : recv capacity sent pos = some (r, next)) : ∃ missed, r = .lagged missed := by
  rw [recv, if_pos h] at hr
  obtain ⟨rfl, -⟩ := Prod.mk.inj (Option.some.inj hr)
  exact ⟨_, rfl⟩

end Broadcast

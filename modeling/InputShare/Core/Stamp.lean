import Mathlib.Data.Prod.Lex

/-! Lamport stamps and last-writer-wins registers. -/
namespace InputShare

/-- Permanent identifier of an installation: a UUID, read as the number its bytes spell, so that
the order of the bytes is the order of the numbers. -/
abbrev MachineId := ℕ

/-- Identifier of a workspace, minted by whichever machine creates it. -/
abbrev WorkspaceId := ℕ

/-- An Ed25519 public key, as the number its 32 bytes spell. -/
abbrev PubKey := ℕ

/-- One past the largest `u64`. -/
def u64Size : ℕ := 18446744073709551616

structure Stamp where
  lamport : ℕ
  origin : MachineId
  wallClockMs : ℕ
deriving DecidableEq, Repr

/-- The comparison key; the wall clock never takes part. -/
def Stamp.key (s : Stamp) : ℕ ×ₗ MachineId := toLex (s.lamport, s.origin)

/-- A value plus the stamp that last wrote it. -/
structure Lww (α : Type*) where
  value : α
  stamp : Stamp
deriving DecidableEq, Repr

/-- Adopts `incoming` if it is newer, and says whether it did. -/
def Lww.merge {α : Type*} (held incoming : Lww α) : Lww α × Bool :=
  if held.stamp.key < incoming.stamp.key then (incoming, true) else (held, false)

theorem Lww.merge_changed_iff {α : Type*} (held incoming : Lww α) :
    (held.merge incoming).2 = true ↔ held.stamp.key < incoming.stamp.key := by
  unfold Lww.merge
  split <;> simp_all

end InputShare

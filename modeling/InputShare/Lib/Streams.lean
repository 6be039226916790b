import Mathlib.Data.List.Basic
import Mathlib.Tactic.Ring

/-! Bytes that arrive in pieces: numbers as big-endian bytes, and a reader that fills a buffer from
as many pieces as that takes. What it gets depends on the bytes alone, not on the pieces. -/
namespace Streams

abbrev Octets := List UInt8

/-- The last `k` bytes of a number, the most significant first. -/
def toBeBytes : ℕ → ℕ → Octets
  | 0, _ => []
  | k + 1, n => toBeBytes k (n / 256) ++ [UInt8.ofNat n]

def fromBeBytes (bytes : Octets) : ℕ := bytes.foldl (fun n b => n * 256 + b.toNat) 0

@[simp] theorem length_toBeBytes (k n : ℕ) : (toBeBytes k n).length = k := by
  induction k generalizing n with
  | zero => rfl
  | succ k ih => simp [toBeBytes, ih]

theorem fromBeBytes_toBeBytes (k n : ℕ) : fromBeBytes (toBeBytes k n) = n % 256 ^ k := by
  induction k generalizing n with
  | zero => simp [toBeBytes, fromBeBytes, Nat.mod_one]
  | succ k ih =>
    have hlast : fromBeBytes (toBeBytes (k + 1) n) =
        fromBeBytes (toBeBytes k (n / 256)) * 256 + n % 256 := by
      simp [toBeBytes, fromBeBytes]
    rw [hlast, ih, pow_succ, mul_comm (256 ^ k) 256, Nat.mod_mul]
    ring

/-- Fills `n` bytes from the pieces to come, an empty one being a wait for more: what was got, and
the pieces left. -/
def fill : ℕ → List Octets → Octets × List Octets
  | 0, pieces => ([], pieces)
  | _ + 1, [] => ([], [])
  | n + 1, piece :: rest =>
    if n + 1 < piece.length then (piece.take (n + 1), piece.drop (n + 1) :: rest)
    else
      let (got, left) := fill (n + 1 - piece.length) rest
      (piece ++ got, left)

theorem fill_spec (n : ℕ) (pieces : List Octets) :
    (fill n pieces).1 = pieces.flatten.take n ∧
      (fill n pieces).2.flatten = pieces.flatten.drop n := by
  induction pieces generalizing n with
  | nil => cases n <;> simp [fill]
  | cons piece rest ih =>
    cases n with
    | zero => simp [fill]
    | succ n =>
      by_cases hn : n + 1 < piece.length
      · simp only [fill, hn, if_true, List.flatten_cons]
        rw [List.take_append_of_le_length hn.le, List.drop_append_of_le_length hn.le]
        exact ⟨rfl, rfl⟩
      · obtain ⟨hgot, hleft⟩ := ih (n + 1 - piece.length)
        have hpiece : piece.length ≤ n + 1 := not_lt.mp hn
        simp only [fill, hn, if_false, List.flatten_cons, List.take_append, List.drop_append,
          List.take_of_length_le hpiece, List.drop_of_length_le hpiece, List.nil_append]
        exact ⟨by rw [hgot], hleft⟩

end Streams

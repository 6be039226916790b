import Mathlib.Data.Nat.Notation

/-! Flags in a machine word: the bits of a mask are tested, set and cleared together. -/
namespace Bits
variable {n : ℕ} {flags mask other : BitVec n}

def Has (flags mask : BitVec n) : Prop := flags &&& mask ≠ 0

instance (flags mask : BitVec n) : Decidable (Has flags mask) := inferInstanceAs (Decidable (_ ≠ _))

theorem has_iff : Has flags mask ↔ ∃ i, flags.getLsbD i = true ∧ mask.getLsbD i = true := by
  constructor
  · intro h
    refine Classical.byContradiction fun hno => h (BitVec.eq_of_getLsbD_eq fun i _ => ?_)
    have hi : ¬ (flags.getLsbD i = true ∧ mask.getLsbD i = true) := fun hb => hno ⟨i, hb⟩
    simpa using hi
  · intro ⟨i, hf, hm⟩ hzero
    have hbit : (flags &&& mask).getLsbD i = true := by rw [BitVec.getLsbD_and, hf, hm]; rfl
    simp [hzero] at hbit

theorem has_or : Has (flags ||| other) mask ↔ Has flags mask ∨ Has other mask := by
  simp only [has_iff, BitVec.getLsbD_or, Bool.or_eq_true, or_and_right, exists_or]

theorem has_mask_or : Has flags (mask ||| other) ↔ Has flags mask ∨ Has flags other := by
  simp only [has_iff, BitVec.getLsbD_or, Bool.or_eq_true, and_or_left, exists_or]

theorem has_allOnes : Has flags (BitVec.allOnes n) ↔ flags ≠ 0 := by
  rw [Has, BitVec.and_allOnes]

theorem has_self (h : mask ≠ 0) : Has mask mask := by rwa [Has, BitVec.and_self]

theorem has_or_of_disjoint (h : mask &&& other = 0) :
    Has (flags ||| mask) other ↔ Has flags other := by
  rw [has_or]
  exact or_iff_left fun hm => hm h

theorem not_has_clear (flags mask : BitVec n) : ¬ Has (flags &&& ~~~mask) mask := by
  rw [has_iff]
  intro ⟨i, hf, hm⟩
  simp [hm] at hf

theorem has_clear_of_disjoint (h : mask &&& other = 0) :
    Has (flags &&& ~~~mask) other ↔ Has flags other := by
  have hout : ∀ i, other.getLsbD i = true → mask.getLsbD i = false := by
    intro i ho
    have hbit : (mask &&& other).getLsbD i = false := by simp [h]
    simpa [ho] using hbit
  simp only [has_iff]
  refine exists_congr fun i => and_congr_left fun ho => ?_
  have hi : i < n := BitVec.lt_of_getLsbD ho
  rw [BitVec.getLsbD_and, BitVec.getLsbD_not, hout i ho]
  simp [hi]

def put (flags mask : BitVec n) (on : Bool) : BitVec n :=
  if on then flags ||| mask else flags &&& ~~~mask

theorem has_put (h : mask ≠ 0) (on : Bool) : Has (put flags mask on) mask ↔ on = true := by
  cases on with
  | false => exact iff_of_false (not_has_clear flags mask) Bool.false_ne_true
  | true => exact iff_of_true (has_or.mpr (.inr (has_self h))) rfl

theorem has_put_of_disjoint (h : mask &&& other = 0) (on : Bool) :
    Has (put flags mask on) other ↔ Has flags other := by
  cases on with
  | false => exact has_clear_of_disjoint h
  | true => exact has_or_of_disjoint h

end Bits

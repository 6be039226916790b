import Mathlib.Algebra.GroupWithZero.Nat
import Mathlib.Data.List.Basic

/-! Texts measured and cut in UTF-8 bytes. An offset inside a character is no place to cut. -/
namespace Utf8

abbrev Text := List Char

def byteLen (text : Text) : ℕ := (text.map Char.utf8Size).sum

/-- The two sides of a byte offset, `none` beyond the text or inside a character. -/
def cut : ℕ → Text → Option (Text × Text)
  | 0, text => some ([], text)
  | _ + 1, [] => none
  | n + 1, c :: text =>
    if c.utf8Size ≤ n + 1 then
      (cut (n + 1 - c.utf8Size) text).map fun (front, rest) => (c :: front, rest)
    else none

def slice (text : Text) (a b : ℕ) : Option Text :=
  if b < a then none
  else (cut a text).bind fun (_, rest) => (cut (b - a) rest).map Prod.fst

@[simp] theorem byteLen_nil : byteLen [] = 0 := rfl

@[simp] theorem byteLen_cons (c : Char) (text : Text) :
    byteLen (c :: text) = c.utf8Size + byteLen text := rfl

@[simp] theorem cut_zero (text : Text) : cut 0 text = some ([], text) := by cases text <;> rfl

theorem cut_add {a : ℕ} (b : ℕ) {text front rest : Text} (h : cut a text = some (front, rest)) :
    cut (a + b) text = (cut b rest).map fun (x, y) => (front ++ x, y) := by
  induction text generalizing a front with
  | nil =>
    cases a with
    | zero =>
      obtain ⟨rfl, rfl⟩ := Prod.mk.inj (Option.some.inj h)
      simp
    | succ a => cases h
  | cons c text ih =>
    cases a with
    | zero =>
      obtain ⟨rfl, rfl⟩ := Prod.mk.inj (Option.some.inj h)
      simp
    | succ a =>
      by_cases hc : c.utf8Size ≤ a + 1
      · simp only [cut, hc, if_true, Option.map_eq_some_iff] at h
        obtain ⟨⟨x, y⟩, hxy, he⟩ := h
        obtain ⟨rfl, rfl⟩ := Prod.mk.inj he
        have hsum : a + 1 + b = (a + b) + 1 := by omega
        have hleft : a + b + 1 - c.utf8Size = a + 1 - c.utf8Size + b := by omega
        rw [hsum, cut, if_pos (by omega), hleft, ih hxy, Option.map_map]
        rfl
      · simp [cut, hc] at h

theorem slice_of_cut {a n : ℕ} {text front rest : Text} (h : cut a text = some (front, rest)) :
    slice text a (a + n) = (cut n rest).map Prod.fst := by
  rw [slice, if_neg (by omega), h]
  simp

def Splits : Text → Prop
  | [] => False
  | [c] => 2 < c.utf8Size
  | c :: d :: _ => 2 < c.utf8Size ∨ c.utf8Size = 1 ∧ 1 < d.utf8Size

instance : DecidablePred Splits
  | [] => inferInstanceAs (Decidable False)
  | [_] => inferInstanceAs (Decidable (_ < _))
  | _ :: _ :: _ => inferInstanceAs (Decidable (_ ∨ _ ∧ _))

/-- The first two bytes of a text that has them: two characters, one, or no place to cut. -/
inductive Cut2 : Text → Option (Text × Text) → Prop where
  | pair {c d : Char} {rest : Text} (hc : c.utf8Size = 1) (hd : d.utf8Size = 1) :
      Cut2 (c :: d :: rest) (some ([c, d], rest))
  | wide {c : Char} {rest : Text} (hc : c.utf8Size = 2) : Cut2 (c :: rest) (some ([c], rest))
  | splits {text : Text} (h : Splits text) : Cut2 text none

theorem cut_two {text : Text} (h : 2 ≤ byteLen text) : Cut2 text (cut 2 text) := by
  cases text with
  | nil => simp at h
  | cons c text =>
    have hc := c.utf8Size_pos
    by_cases hwide : 2 < c.utf8Size
    · have hnone : cut 2 (c :: text) = none := by rw [cut, if_neg (by omega)]
      rw [hnone]
      cases text with
      | nil => exact .splits hwide
      | cons d text => exact .splits (.inl hwide)
    by_cases htwo : c.utf8Size = 2
    · have hone : cut 2 (c :: text) = some ([c], text) := by simp [cut, htwo]
      rw [hone]
      exact .wide htwo
    have hsize : c.utf8Size = 1 := by omega
    cases text with
    | nil =>
      simp [hsize] at h
    | cons d text =>
      have hd := d.utf8Size_pos
      by_cases hone : d.utf8Size = 1
      · have hpair : cut 2 (c :: d :: text) = some ([c, d], text) := by simp [cut, hsize, hone]
        rw [hpair]
        exact .pair hsize hone
      · have hnone : cut 2 (c :: d :: text) = none := by
          have hlt : ¬ d.utf8Size ≤ 1 := by omega
          simp [cut, hsize, hlt]
        rw [hnone]
        exact .splits (.inr ⟨hsize, by omega⟩)

end Utf8

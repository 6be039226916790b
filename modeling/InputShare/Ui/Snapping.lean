import Mathlib.Algebra.Order.Ring.Abs
import Mathlib.Algebra.Order.Field.Rat
import Mathlib.Tactic.Linarith
import Mathlib.Tactic.Positivity
import Mathlib.Tactic.Ring

/-! Where a machine that is dragged over the canvas comes to rest: each axis is pulled on its own to
the nearest edge of another machine, if one is near. -/
namespace InputShare

/-- A machine as the canvas draws it; no size stands for one that is not known yet. -/
structure UiMachine where
  x : ℤ
  y : ℤ
  width : ℕ
  height : ℕ
deriving DecidableEq, Repr

namespace Ui

def assumedWidth : ℕ := 1280
def assumedHeight : ℕ := 720

def widthOf (machine : UiMachine) : ℕ := if machine.width = 0 then assumedWidth else machine.width

def heightOf (machine : UiMachine) : ℕ :=
  if machine.height = 0 then assumedHeight else machine.height

/-- The nearer one of what is held and a candidate, which counts only within the threshold. -/
def keep (threshold : ℚ) (current : Option ℤ) (candidate : ℤ) : Option ℤ :=
  match current with
  | none => if |(candidate : ℚ)| ≤ threshold then some candidate else none
  | some d => if |(candidate : ℚ)| ≤ threshold ∧ |candidate| < |d| then some candidate else some d

/-- How far the edges of one interval are from those of another: butting up against it, then
aligned with it. -/
def pulls (near far oNear oFar : ℤ) : List ℤ := [oFar - near, oNear - far, oNear - near, oFar - far]

def snapLoop (threshold : ℚ) (left right top bottom : ℤ) :
    List UiMachine → Option ℤ × Option ℤ → Option ℤ × Option ℤ
  | [], d => d
  | other :: rest, (dx, dy) =>
    let dx := (pulls left right other.x (other.x + widthOf other)).foldl (keep threshold) dx
    let dy := (pulls top bottom other.y (other.y + heightOf other)).foldl (keep threshold) dy
    snapLoop threshold left right top bottom rest (dx, dy)

/-- Magnetic edges, of the same pull on the screen at every zoom. -/
def snapPosition (scale : ℚ) (machine : UiMachine) (x y : ℤ) (others : List UiMachine) : ℤ × ℤ :=
  let d := snapLoop (28 / scale) x (x + widthOf machine) y (y + heightOf machine) others
    (none, none)
  (x + d.1.getD 0, y + d.2.getD 0)

/-! What one axis is pulled by: the nearest of its candidates. -/

def candidates (near far : ℤ) (spans : List (ℤ × ℤ)) : List ℤ :=
  spans.flatMap fun o => pulls near far o.1 o.2

def across (others : List UiMachine) : List (ℤ × ℤ) := others.map fun o => (o.x, o.x + widthOf o)

def upright (others : List UiMachine) : List (ℤ × ℤ) :=
  others.map fun o => (o.y, o.y + heightOf o)

theorem snapLoop_eq (threshold : ℚ) (left right top bottom : ℤ) (others : List UiMachine)
    (d : Option ℤ × Option ℤ) :
    snapLoop threshold left right top bottom others d =
      ((candidates left right (across others)).foldl (keep threshold) d.1,
        (candidates top bottom (upright others)).foldl (keep threshold) d.2) := by
  induction others generalizing d with
  | nil => rfl
  | cons other rest ih =>
    rw [snapLoop, ih]
    simp only [candidates, across, upright, List.map_cons, List.flatMap_cons, List.foldl_append]

/-- What is held after some candidates: none within the threshold, or the nearest one. -/
def Nearest (threshold : ℚ) (seen : List ℤ) : Option ℤ → Prop
  | none => ∀ c ∈ seen, ¬ |(c : ℚ)| ≤ threshold
  | some d => d ∈ seen ∧ |(d : ℚ)| ≤ threshold ∧
      ∀ c ∈ seen, |(c : ℚ)| ≤ threshold → |d| ≤ |c|

theorem keep_nearest {threshold : ℚ} {seen : List ℤ} {current : Option ℤ}
    (h : Nearest threshold seen current) (c : ℤ) :
    Nearest threshold (seen ++ [c]) (keep threshold current c) := by
  have hsplit : ∀ {P : ℤ → Prop}, (∀ x ∈ seen, P x) → P c → ∀ x ∈ seen ++ [c], P x := by
    intro P hs hc x hx
    obtain hx | hx := List.mem_append.mp hx
    · exact hs x hx
    · rwa [List.mem_singleton.mp hx]
  cases current with
  | none =>
    by_cases hc : |(c : ℚ)| ≤ threshold
    · simp only [keep, hc, if_true]
      exact ⟨by simp, hc, hsplit (fun x hx hn => absurd hn (h x hx)) fun _ => le_rfl⟩
    · simp only [keep, hc, if_false]
      exact hsplit h hc
  | some d =>
    obtain ⟨hmem, hd, hall⟩ := h
    by_cases hc : |(c : ℚ)| ≤ threshold ∧ |c| < |d|
    · simp only [keep, hc, and_self, if_true]
      exact ⟨by simp, hc.1, hsplit (fun x hx hn => hc.2.le.trans (hall x hx hn)) fun _ => le_rfl⟩
    · simp only [keep, hc, if_false]
      exact ⟨by simp [hmem], hd, hsplit hall fun hn => not_lt.mp fun hlt => hc ⟨hn, hlt⟩⟩

theorem foldl_nearest {threshold : ℚ} {seen cs : List ℤ} {current : Option ℤ}
    (h : Nearest threshold seen current) :
    Nearest threshold (seen ++ cs) (cs.foldl (keep threshold) current) := by
  induction cs generalizing seen current with
  | nil => simpa using h
  | cons c cs ih => simpa using ih (keep_nearest h c)

def pull (threshold : ℚ) (near far : ℤ) (spans : List (ℤ × ℤ)) : ℤ :=
  ((candidates near far spans).foldl (keep threshold) none).getD 0

theorem snapPosition_eq (scale : ℚ) (machine : UiMachine) (x y : ℤ) (others : List UiMachine) :
    snapPosition scale machine x y others =
      (x + pull (28 / scale) x (x + widthOf machine) (across others),
        y + pull (28 / scale) y (y + heightOf machine) (upright others)) := by
  rw [snapPosition, snapLoop_eq]
  rfl

/-- An axis is not pulled, nothing being near, or by the nearest candidate. -/
theorem pull_cases (threshold : ℚ) (near far : ℤ) (spans : List (ℤ × ℤ)) :
    (pull threshold near far spans = 0 ∧
        ∀ c ∈ candidates near far spans, ¬ |(c : ℚ)| ≤ threshold) ∨
      (pull threshold near far spans ∈ candidates near far spans ∧
        |(pull threshold near far spans : ℚ)| ≤ threshold ∧
        ∀ c ∈ candidates near far spans, |(c : ℚ)| ≤ threshold →
          |pull threshold near far spans| ≤ |c|) := by
  have hnone : Nearest threshold [] none := fun c hc => absurd hc List.not_mem_nil
  have h : Nearest threshold (candidates near far spans)
      ((candidates near far spans).foldl (keep threshold) none) := foldl_nearest hnone
  unfold pull
  cases hd : (candidates near far spans).foldl (keep threshold) none with
  | none =>
    rw [hd] at h
    exact .inl ⟨rfl, h⟩
  | some d =>
    rw [hd] at h
    exact .inr h

section Axis
variable {threshold : ℚ} {near far : ℤ} {spans : List (ℤ × ℤ)}

theorem abs_pull_le (ht : 0 ≤ threshold) : |(pull threshold near far spans : ℚ)| ≤ threshold := by
  obtain ⟨h, -⟩ | ⟨-, h, -⟩ := pull_cases threshold near far spans
  · rw [h]
    simpa using ht
  · exact h

theorem abs_pull_le_abs (ht : 0 ≤ threshold) {c : ℤ} (hc : c ∈ candidates near far spans) :
    |pull threshold near far spans| ≤ |c| := by
  by_cases hn : |(c : ℚ)| ≤ threshold
  · obtain ⟨-, h⟩ | ⟨-, -, h⟩ := pull_cases threshold near far spans
    · exact absurd hn (h c hc)
    · exact h c hc hn
  · have hpull : |(pull threshold near far spans : ℚ)| ≤ threshold := abs_pull_le ht
    have hlt := hpull.trans_lt (not_le.mp hn)
    exact_mod_cast hlt.le

theorem mem_candidates {c : ℤ} :
    c ∈ candidates near far spans ↔
      ∃ o ∈ spans, c = o.2 - near ∨ c = o.1 - far ∨ c = o.1 - near ∨ c = o.2 - far := by
  simp [candidates, pulls]

theorem beside_pull (near far : ℤ) (ht : 0 ≤ threshold) {o : ℤ × ℤ} (ho : o ∈ spans)
    (h : far ≤ o.1 ∨ o.2 ≤ near) :
    far + pull threshold near far spans ≤ o.1 ∨ o.2 ≤ near + pull threshold near far spans := by
  obtain h | h := h
  · have hle : |pull threshold near far spans| ≤ |o.1 - far| :=
      abs_pull_le_abs ht (mem_candidates.mpr ⟨o, ho, .inr (.inl rfl)⟩)
    rw [abs_of_nonneg (sub_nonneg.mpr h)] at hle
    left
    linarith [le_abs_self (pull threshold near far spans)]
  · have hle : |pull threshold near far spans| ≤ |o.2 - near| :=
      abs_pull_le_abs ht (mem_candidates.mpr ⟨o, ho, .inl rfl⟩)
    rw [abs_of_nonpos (sub_nonpos.mpr h)] at hle
    right
    linarith [neg_abs_le (pull threshold near far spans)]

theorem aligned_pull (spans : List (ℤ × ℤ))
    (h : ∃ o ∈ spans, ∃ c ∈ pulls near far o.1 o.2, |(c : ℚ)| ≤ threshold) :
    ∃ o ∈ spans, near + pull threshold near far spans = o.2 ∨
      far + pull threshold near far spans = o.1 ∨ near + pull threshold near far spans = o.1 ∨
      far + pull threshold near far spans = o.2 := by
  obtain ⟨o, ho, c, hc, hn⟩ := h
  obtain ⟨-, hnone⟩ | ⟨hmem, -⟩ := pull_cases threshold near far spans
  · exact absurd hn (hnone c (List.mem_flatMap.mpr ⟨o, ho, hc⟩))
  · obtain ⟨o, ho, hcase⟩ := mem_candidates.mp hmem
    exact ⟨o, ho, by omega⟩

theorem pull_pull (ht : 0 ≤ threshold) :
    pull threshold (near + pull threshold near far spans) (far + pull threshold near far spans)
      spans = 0 := by
  by_cases h : ∃ o ∈ spans, ∃ c ∈ pulls near far o.1 o.2, |(c : ℚ)| ≤ threshold
  · obtain ⟨o, ho, hedge⟩ := aligned_pull spans h
    have hzero : (0 : ℤ) ∈ candidates (near + pull threshold near far spans)
        (far + pull threshold near far spans) spans :=
      mem_candidates.mpr ⟨o, ho, by omega⟩
    simpa using abs_pull_le_abs ht hzero
  · obtain ⟨hzero, -⟩ | ⟨hmem, hn, -⟩ := pull_cases threshold near far spans
    · rw [hzero, add_zero, add_zero, hzero]
    · obtain ⟨o, ho, hc⟩ := List.mem_flatMap.mp hmem
      exact absurd ⟨o, ho, _, hc, hn⟩ h

end Axis

/-- A machine at this corner and another one share a point. -/
def Overlaps (machine : UiMachine) (x y : ℤ) (other : UiMachine) : Prop :=
  (x < other.x + widthOf other ∧ other.x < x + widthOf machine) ∧
    y < other.y + heightOf other ∧ other.y < y + heightOf machine

/-- Dropped clear of the others a machine stays clear of them, not further than the threshold from
where it was dropped and on an edge of each axis that has one as near; there it stays. -/
theorem snapPosition_spec {scale : ℚ} (hscale : 0 < scale) (machine : UiMachine)
    (others : List UiMachine) (x y : ℤ) :
    ∃ p q, snapPosition scale machine x y others = (p, q) ∧
      ((∀ o ∈ others, ¬ Overlaps machine x y o) → ∀ o ∈ others, ¬ Overlaps machine p q o) ∧
      |((p - x : ℤ) : ℚ)| ≤ 28 / scale ∧ |((q - y : ℤ) : ℚ)| ≤ 28 / scale ∧
      ((∃ o ∈ others, ∃ c ∈ pulls x (x + widthOf machine) o.x (o.x + widthOf o),
          |(c : ℚ)| ≤ 28 / scale) →
        ∃ o ∈ others, p = o.x + widthOf o ∨ p + widthOf machine = o.x ∨ p = o.x ∨
          p + widthOf machine = o.x + widthOf o) ∧
      ((∃ o ∈ others, ∃ c ∈ pulls y (y + heightOf machine) o.y (o.y + heightOf o),
          |(c : ℚ)| ≤ 28 / scale) →
        ∃ o ∈ others, q = o.y + heightOf o ∨ q + heightOf machine = o.y ∨ q = o.y ∨
          q + heightOf machine = o.y + heightOf o) ∧
      snapPosition scale machine p q others = (p, q) := by
  have ht : 0 ≤ 28 / scale := by positivity
  set dx := pull (28 / scale) x (x + widthOf machine) (across others) with hdx
  set dy := pull (28 / scale) y (y + heightOf machine) (upright others) with hdy
  have hright : x + dx + widthOf machine = x + widthOf machine + dx := by ring
  have hbottom : y + dy + heightOf machine = y + heightOf machine + dy := by ring
  refine ⟨x + dx, y + dy, snapPosition_eq .., ?_, ?_, ?_, ?_, ?_, ?_⟩
  · rintro hclear o ho ⟨⟨h₁, h₂⟩, h₃, h₄⟩
    have hx : (o.x, o.x + (widthOf o : ℤ)) ∈ across others := List.mem_map.mpr ⟨o, ho, rfl⟩
    have hy : (o.y, o.y + (heightOf o : ℤ)) ∈ upright others := List.mem_map.mpr ⟨o, ho, rfl⟩
    -- an axis on which the two were apart, the pull has not closed
    have hxs : x < o.x + widthOf o ∧ o.x < x + widthOf machine := by
      by_contra h
      have hbeside := beside_pull x (x + widthOf machine) ht hx
        (by simp only; omega)
      simp only at hbeside
      omega
    have hys : y < o.y + heightOf o ∧ o.y < y + heightOf machine := by
      by_contra h
      have hbeside := beside_pull y (y + heightOf machine) ht hy
        (by simp only; omega)
      simp only at hbeside
      omega
    exact hclear o ho ⟨hxs, hys⟩
  · rw [add_sub_cancel_left]
    exact abs_pull_le ht
  · rw [add_sub_cancel_left]
    exact abs_pull_le ht
  · rintro ⟨o, ho, hc⟩
    obtain ⟨e, he, hedge⟩ := aligned_pull (across others)
      ⟨_, List.mem_map.mpr ⟨o, ho, rfl⟩, hc⟩
    obtain ⟨o', ho', rfl⟩ := List.mem_map.mp he
    exact ⟨o', ho', by rwa [hright]⟩
  · rintro ⟨o, ho, hc⟩
    obtain ⟨e, he, hedge⟩ := aligned_pull (upright others)
      ⟨_, List.mem_map.mpr ⟨o, ho, rfl⟩, hc⟩
    obtain ⟨o', ho', rfl⟩ := List.mem_map.mp he
    exact ⟨o', ho', by rwa [hbottom]⟩
  · rw [snapPosition_eq, hright, hbottom, pull_pull ht, pull_pull ht, add_zero, add_zero]

/-- Between two machines, one of them of a size not known yet. -/
theorem snapPosition_spec_row :
    ∃ p q, snapPosition (1 / 4) ⟨0, 0, 1920, 1080⟩ 1990 (-40)
        [⟨0, 0, 1920, 1080⟩, ⟨3920, 0, 0, 0⟩] = (p, q) ∧
      (p, q) = (2000, 0) ∧
      ∀ o ∈ [(⟨0, 0, 1920, 1080⟩ : UiMachine), ⟨3920, 0, 0, 0⟩],
        ¬ Overlaps ⟨0, 0, 1920, 1080⟩ p q o := by
  obtain ⟨p, q, hpq, hclear, -⟩ := snapPosition_spec (by norm_num : (0 : ℚ) < 1 / 4)
    ⟨0, 0, 1920, 1080⟩ [⟨0, 0, 1920, 1080⟩, ⟨3920, 0, 0, 0⟩] 1990 (-40)
  refine ⟨p, q, hpq, ?_, hclear ?_⟩
  · rw [← hpq]
    decide +kernel
  · simp [Overlaps, widthOf]

end Ui
end InputShare

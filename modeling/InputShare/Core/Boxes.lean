import InputShare.Core.Directions

/-! The box around rectangles, empty ones and saturated ones included: when it is exact, and how
it moves with them. -/
namespace InputShare
namespace Rect

/-- The corner is one the coordinates can express, and the sizes survive the cast. -/
structure Fits (r : Rect) : Prop where
  corner : (⟨r.x, r.y⟩ : Point).InRange
  wide : r.width ≤ i32Max
  high : r.height ≤ i32Max

def Joins (r s : Rect) : Prop :=
  (r.maxX - s.x ≤ i32Max ∧ s.maxX - r.x ≤ i32Max) ∧
    r.maxY - s.y ≤ i32Max ∧ s.maxY - r.y ≤ i32Max

structure Inside (r : Rect) : Prop extends r.Fits where
  right : r.x + r.width ≤ i32Max
  bottom : r.y + r.height ≤ i32Max

instance (p : Point) : Decidable p.InRange := inferInstanceAs (Decidable ((_ ∧ _) ∧ _ ∧ _))

instance (r : Rect) : Decidable r.Fits :=
  decidable_of_iff ((⟨r.x, r.y⟩ : Point).InRange ∧ r.width ≤ i32Max ∧ r.height ≤ i32Max)
    ⟨fun ⟨a, b, c⟩ => ⟨a, b, c⟩, fun ⟨a, b, c⟩ => ⟨a, b, c⟩⟩

instance (r s : Rect) : Decidable (r.Joins s) := inferInstanceAs (Decidable ((_ ∧ _) ∧ _ ∧ _))

instance (r : Rect) : Decidable r.Inside :=
  decidable_of_iff (r.Fits ∧ r.x + r.width ≤ i32Max ∧ r.y + r.height ≤ i32Max)
    ⟨fun ⟨a, b, c⟩ => ⟨a, b, c⟩, fun ⟨a, b, c⟩ => ⟨a, b, c⟩⟩

variable {r s : Rect}

theorem Plain.fits (h : r.Plain) : r.Fits := by
  obtain ⟨hw, hh, hl, ht, hr, hb, hwide, hhigh⟩ := h
  refine ⟨⟨⟨hl, ?_⟩, ht, ?_⟩, hwide, hhigh⟩
  · simp only
    omega
  · simp only
    omega

theorem Fits.maxX_eq (h : r.Fits) : r.maxX = satI32 (r.x + r.width) := by
  rw [maxX, wrapI32_eq (by unfold i32Min; omega) h.wide]

theorem Fits.maxY_eq (h : r.Fits) : r.maxY = satI32 (r.y + r.height) := by
  rw [maxY, wrapI32_eq (by unfold i32Min; omega) h.high]

theorem satI32_le (n : Int) : satI32 n ≤ i32Max := by
  unfold satI32 i32Min i32Max
  omega

theorem le_satI32_add {n : Int} {k : ℕ} (hmin : i32Min ≤ n) (hmax : n ≤ i32Max)
    (hk : k ≤ i32Max) :
    n ≤ satI32 (n + k) ∧ satI32 (n + k) ≤ i32Max ∧ satI32 (n + k) - n ≤ i32Max := by
  unfold satI32
  omega

theorem Fits.le_maxX (h : r.Fits) :
    r.x ≤ r.maxX ∧ r.maxX ≤ i32Max ∧ r.maxX - r.x ≤ i32Max := by
  rw [h.maxX_eq]
  exact le_satI32_add h.corner.1.1 h.corner.1.2 h.wide

theorem Fits.le_maxY (h : r.Fits) :
    r.y ≤ r.maxY ∧ r.maxY ≤ i32Max ∧ r.maxY - r.y ≤ i32Max := by
  rw [h.maxY_eq]
  exact le_satI32_add h.corner.2.1 h.corner.2.2 h.high

theorem Inside.maxX_eq (h : r.Inside) : r.maxX = r.x + r.width := by
  obtain ⟨⟨hmin, -⟩, -⟩ := h.corner
  simp only at hmin
  rw [h.toFits.maxX_eq, satI32_eq (by omega) h.right]

theorem Inside.maxY_eq (h : r.Inside) : r.maxY = r.y + r.height := by
  obtain ⟨-, hmin, -⟩ := h.corner
  simp only at hmin
  rw [h.toFits.maxY_eq, satI32_eq (by omega) h.bottom]

theorem union_exact (hr : r.Fits) (hs : s.Fits) (h : r.Joins s) :
    (r.union s).x = min r.x s.x ∧ (r.union s).y = min r.y s.y ∧
      ((r.union s).width : Int) = max r.maxX s.maxX - min r.x s.x ∧
      ((r.union s).height : Int) = max r.maxY s.maxY - min r.y s.y := by
  obtain ⟨hx, hy⟩ := h
  have := hr.le_maxX
  have := hs.le_maxX
  have := hr.le_maxY
  have := hs.le_maxY
  have hwide : wrapI32 (max r.maxX s.maxX - min r.x s.x) = max r.maxX s.maxX - min r.x s.x :=
    wrapI32_eq (by unfold i32Min; omega) (by omega)
  have hhigh : wrapI32 (max r.maxY s.maxY - min r.y s.y) = max r.maxY s.maxY - min r.y s.y :=
    wrapI32_eq (by unfold i32Min; omega) (by omega)
  refine ⟨rfl, rfl, ?_, ?_⟩
  · simp only [union, hwide]
    omega
  · simp only [union, hhigh]
    omega

theorem union_fits (hr : r.Fits) (hs : s.Fits) (h : r.Joins s) : (r.union s).Fits := by
  obtain ⟨hx, hy, hwide, hhigh⟩ := union_exact hr hs h
  have := hr.le_maxX
  have := hs.le_maxX
  have := hr.le_maxY
  have := hs.le_maxY
  obtain ⟨j₁, j₂⟩ := h
  obtain ⟨⟨h₁, h₂⟩, h₃, h₄⟩ := hr.corner
  obtain ⟨⟨k₁, k₂⟩, k₃, k₄⟩ := hs.corner
  simp only at *
  refine ⟨⟨⟨?_, ?_⟩, ?_, ?_⟩, ?_, ?_⟩
  · simp only [hx]
    omega
  · simp only [hx]
    omega
  · simp only [hy]
    omega
  · simp only [hy]
    omega
  · rw [hwide]
    omega
  · rw [hhigh]
    omega

theorem union_maxX (hr : r.Fits) (hs : s.Fits) (h : r.Joins s) :
    (r.union s).maxX = max r.maxX s.maxX ∧ (r.union s).maxY = max r.maxY s.maxY := by
  obtain ⟨hx, hy, hwide, hhigh⟩ := union_exact hr hs h
  have hfits := union_fits hr hs h
  obtain ⟨⟨hleft, -⟩, htop, -⟩ := hr.corner
  simp only at hleft htop
  have := hr.le_maxX
  have := hs.le_maxX
  have := hr.le_maxY
  have := hs.le_maxY
  constructor
  · rw [hfits.maxX_eq, hwide, hx, add_sub_cancel, satI32_eq (by omega) (by omega)]
  · rw [hfits.maxY_eq, hhigh, hy, add_sub_cancel, satI32_eq (by omega) (by omega)]

def shift (v : Point) (r : Rect) : Rect := { r with x := r.x + v.x, y := r.y + v.y }

@[simp] theorem shift_x (v : Point) (r : Rect) : (r.shift v).x = r.x + v.x := rfl
@[simp] theorem shift_y (v : Point) (r : Rect) : (r.shift v).y = r.y + v.y := rfl
@[simp] theorem shift_width (v : Point) (r : Rect) : (r.shift v).width = r.width := rfl
@[simp] theorem shift_height (v : Point) (r : Rect) : (r.shift v).height = r.height := rfl

theorem ext_int (hx : r.x = s.x) (hy : r.y = s.y) (hw : (r.width : Int) = s.width)
    (hh : (r.height : Int) = s.height) : r = s := by
  cases r
  cases s
  simp only [mk.injEq] at *
  omega

theorem union_shift (v : Point) (hr : r.Inside) (hs : s.Inside) (hr' : (r.shift v).Inside)
    (hs' : (s.shift v).Inside) (h : r.Joins s) :
    (r.shift v).Joins (s.shift v) ∧ (r.shift v).union (s.shift v) = (r.union s).shift v := by
  have hjoins : (r.shift v).Joins (s.shift v) := by
    obtain ⟨⟨h₁, h₂⟩, h₃, h₄⟩ := h
    rw [hr.maxX_eq] at h₁
    rw [hs.maxX_eq] at h₂
    rw [hr.maxY_eq] at h₃
    rw [hs.maxY_eq] at h₄
    unfold Joins
    rw [hr'.maxX_eq, hs'.maxX_eq, hr'.maxY_eq, hs'.maxY_eq]
    simp only [shift_x, shift_y, shift_width, shift_height]
    omega
  refine ⟨hjoins, ?_⟩
  obtain ⟨hx, hy, hwide, hhigh⟩ := union_exact hr.toFits hs.toFits h
  obtain ⟨hx', hy', hwide', hhigh'⟩ := union_exact hr'.toFits hs'.toFits hjoins
  rw [hr.maxX_eq, hs.maxX_eq] at hwide
  rw [hr.maxY_eq, hs.maxY_eq] at hhigh
  rw [hr'.maxX_eq, hs'.maxX_eq] at hwide'
  rw [hr'.maxY_eq, hs'.maxY_eq] at hhigh'
  simp only [shift_x, shift_y, shift_width, shift_height] at hx' hy' hwide' hhigh'
  refine ext_int ?_ ?_ ?_ ?_
  · rw [hx', shift_x, hx]
    omega
  · rw [hy', shift_y, hy]
    omega
  · rw [hwide', shift_width, hwide]
    omega
  · rw [hhigh', shift_height, hhigh]
    omega

theorem union_inside (hr : r.Inside) (hs : s.Inside) (h : r.Joins s) : (r.union s).Inside := by
  obtain ⟨hx, hy, hwide, hhigh⟩ := union_exact hr.toFits hs.toFits h
  have := hr.toFits.le_maxX
  have := hs.toFits.le_maxX
  have := hr.toFits.le_maxY
  have := hs.toFits.le_maxY
  exact { union_fits hr.toFits hs.toFits h with
    right := by rw [hx, hwide]; omega
    bottom := by rw [hy, hhigh]; omega }

theorem joins_union {t : Rect} (hr : r.Fits) (hs : s.Fits) (h : r.Joins s) (hrt : r.Joins t)
    (hst : s.Joins t) : (r.union s).Joins t := by
  obtain ⟨hx, hy, -⟩ := union_exact hr hs h
  obtain ⟨hmaxX, hmaxY⟩ := union_maxX hr hs h
  obtain ⟨⟨h₁, h₂⟩, h₃, h₄⟩ := hrt
  obtain ⟨⟨k₁, k₂⟩, k₃, k₄⟩ := hst
  unfold Joins
  rw [hx, hy, hmaxX, hmaxY]
  omega

def hull (r : Rect) (rest : List Rect) : Rect := rest.foldl Rect.union r

theorem hull_shift (v : Point) {rest : List Rect} (hr : r.Inside) (hr' : (r.shift v).Inside)
    (hrest : ∀ s ∈ rest, s.Inside ∧ (s.shift v).Inside) (hjoins : ∀ s ∈ rest, r.Joins s)
    (hall : ∀ s ∈ rest, ∀ t ∈ rest, s.Joins t) :
    hull (r.shift v) (rest.map (shift v)) = (hull r rest).shift v := by
  induction rest generalizing r with
  | nil => rfl
  | cons s rest ih =>
    obtain ⟨⟨hs, hs'⟩, hrest⟩ := List.forall_mem_cons.mp hrest
    obtain ⟨hrs, hjoins⟩ := List.forall_mem_cons.mp hjoins
    obtain ⟨hjoins', hunion⟩ := union_shift v hr hs hr' hs' hrs
    have hmove := union_inside hr' hs' hjoins'
    rw [hunion] at hmove
    simp only [hull, List.map_cons, List.foldl_cons, hunion]
    exact ih (union_inside hr hs hrs) hmove hrest
      (fun t ht => joins_union hr.toFits hs.toFits hrs (hjoins t ht)
        (hall s List.mem_cons_self t (List.mem_cons_of_mem _ ht)))
      fun t ht u hu => hall t (List.mem_cons_of_mem _ ht) u (List.mem_cons_of_mem _ hu)

end Rect
end InputShare

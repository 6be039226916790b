import InputShare.Core.Layout

/-! Rectangles as a pointer sees them that travels in a direction: how far along it they begin and
end, and which lines across it they span. The four directions differ only in these. -/
namespace InputShare

structure Rect.Plain (r : Rect) : Prop where
  width : 0 < r.width
  height : 0 < r.height
  left : i32Min ≤ r.x
  top : i32Min ≤ r.y
  right : r.x + r.width ≤ i32Max
  bottom : r.y + r.height ≤ i32Max
  wide : r.width ≤ i32Max
  high : r.height ≤ i32Max

instance (r : Rect) : Decidable r.Plain :=
  decidable_of_iff ((0 < r.width ∧ 0 < r.height) ∧ (i32Min ≤ r.x ∧ i32Min ≤ r.y) ∧
      (r.x + r.width ≤ i32Max ∧ r.y + r.height ≤ i32Max) ∧ r.width ≤ i32Max ∧ r.height ≤ i32Max)
    ⟨fun ⟨⟨a, b⟩, ⟨c, d⟩, ⟨e, f⟩, g, h⟩ => ⟨a, b, c, d, e, f, g, h⟩,
      fun ⟨a, b, c, d, e, f, g, h⟩ => ⟨⟨a, b⟩, ⟨c, d⟩, ⟨e, f⟩, g, h⟩⟩

def Point.InRange (p : Point) : Prop :=
  (i32Min ≤ p.x ∧ p.x ≤ i32Max) ∧ i32Min ≤ p.y ∧ p.y ≤ i32Max

theorem satI32_eq {n : Int} (h : i32Min ≤ n) (k : n ≤ i32Max) : satI32 n = n := by
  rw [satI32, min_eq_right k, max_eq_right h]

theorem wrapI32_eq {n : Int} (h : i32Min ≤ n) (k : n ≤ i32Max) : wrapI32 n = n := by
  unfold wrapI32 i32Min i32Max at *
  omega

theorem Rect.Plain.maxX {r : Rect} (h : r.Plain) : r.maxX = r.x + r.width := by
  obtain ⟨hw, -, hl, -, hr, -, hwide, -⟩ := h
  rw [Rect.maxX, wrapI32_eq (by unfold i32Min; omega) hwide, satI32_eq (by omega) hr]

theorem Rect.Plain.maxY {r : Rect} (h : r.Plain) : r.maxY = r.y + r.height := by
  obtain ⟨-, hh, -, ht, -, hb, -, hhigh⟩ := h
  rw [Rect.maxY, wrapI32_eq (by unfold i32Min; omega) hhigh, satI32_eq (by omega) hb]

namespace Direction

def opposite : Direction → Direction
  | .left => .right
  | .right => .left
  | .up => .down
  | .down => .up

def along : Direction → Point → Int
  | .right, p => p.x
  | .left, p => -p.x
  | .down, p => p.y
  | .up, p => -p.y

def across : Direction → Point → Int
  | .right, p | .left, p => p.y
  | .down, p | .up, p => p.x

def near : Direction → Rect → Int
  | .right, r => r.x
  | .left, r => -(r.x + r.width - 1)
  | .down, r => r.y
  | .up, r => -(r.y + r.height - 1)

def far : Direction → Rect → Int
  | .right, r => r.x + r.width - 1
  | .left, r => -r.x
  | .down, r => r.y + r.height - 1
  | .up, r => -r.y

def Spans (r : Rect) (n : Int) : Direction → Prop
  | .right | .left => r.y ≤ n ∧ n < r.y + r.height
  | .down | .up => r.x ≤ n ∧ n < r.x + r.width

/-- The distances leftwards and upwards are counted from the edge behind the last pixels. -/
def slack : Direction → Int
  | .right | .down => 0
  | .left | .up => 1

/-- A point so many pixels back against the direction. -/
def back (p : Point) (k : ℕ) : Direction → Point
  | .right => ⟨p.x - k, p.y⟩
  | .left => ⟨p.x + k, p.y⟩
  | .down => ⟨p.x, p.y - k⟩
  | .up => ⟨p.x, p.y + k⟩

variable (d : Direction)

theorem along_back (p : Point) (k : ℕ) : d.along (d.back p k) = d.along p - k := by
  cases d <;> simp only [along, back] <;> omega

theorem across_back (p : Point) (k : ℕ) : d.across (d.back p k) = d.across p := by cases d <;> rfl

theorem point_eq {p q : Point} (ha : d.along p = d.along q) (hc : d.across p = d.across q) :
    p = q := by
  cases p
  cases q
  cases d <;> simp_all [along, across]

theorem along_opposite (p : Point) : d.opposite.along p = -d.along p := by
  cases d <;> simp [opposite, along]

theorem across_opposite (p : Point) : d.opposite.across p = d.across p := by cases d <;> rfl

theorem near_opposite (r : Rect) : d.opposite.near r = -d.far r := by
  cases d <;> simp [opposite, near, far]

theorem spans_opposite (r : Rect) (n : Int) : d.opposite.Spans r n ↔ d.Spans r n := by
  cases d <;> rfl

theorem near_le_far {r : Rect} (h : r.Plain) : d.near r ≤ d.far r := by
  have := h.width
  have := h.height
  cases d <;> simp only [near, far] <;> omega

end Direction

open Direction

theorem Rect.contains_iff (d : Direction) {r : Rect} (h : r.Plain) {p : Point} :
    r.contains p = true ↔ d.near r ≤ d.along p ∧ d.along p ≤ d.far r ∧ d.Spans r (d.across p) := by
  simp only [Rect.contains, h.maxX, h.maxY, Bool.and_eq_true, decide_eq_true_eq]
  cases d <;> simp only [near, far, along, Spans, across] <;> omega

theorem Rect.inRange_of_contains {r : Rect} (h : r.Plain) {p : Point}
    (hp : r.contains p = true) : p.InRange := by
  rw [Rect.contains_iff .right h] at hp
  obtain ⟨-, -, hl, ht, hr, hb, -, -⟩ := h
  simp only [near, far, along, Spans, across] at hp
  exact ⟨⟨by omega, by omega⟩, by omega, by omega⟩

theorem Rect.clamp_eq {r : Rect} (h : r.Plain) (p : Point) :
    r.clamp p = ⟨max r.x (min (r.x + r.width - 1) p.x),
      max r.y (min (r.y + r.height - 1) p.y)⟩ := by
  have hx : satI32 (r.maxX - 1) = r.x + r.width - 1 := by
    rw [h.maxX]
    have := h.width
    have := h.left
    have := h.right
    exact satI32_eq (by omega) (by omega)
  have hy : satI32 (r.maxY - 1) = r.y + r.height - 1 := by
    rw [h.maxY]
    have := h.height
    have := h.top
    have := h.bottom
    exact satI32_eq (by omega) (by omega)
  have := h.width
  have := h.height
  simp only [Rect.clamp, hx, hy, Rect.clampTo, Point.mk.injEq]
  constructor <;> split <;> omega

theorem Rect.contains_clamp {r : Rect} (h : r.Plain) (p : Point) :
    r.contains (r.clamp p) = true := by
  have := h.width
  have := h.height
  rw [Rect.contains_iff .right h, Rect.clamp_eq h]
  simp only [near, far, along, Spans, across]
  omega

theorem Rect.clamp_of_contains {r : Rect} (h : r.Plain) {p : Point} (hp : r.contains p = true) :
    r.clamp p = p := by
  rw [Rect.contains_iff .right h] at hp
  simp only [near, far, along, Spans, across] at hp
  rw [Rect.clamp_eq h]
  cases p
  simp only [Point.mk.injEq] at hp ⊢
  omega

theorem Rect.along_clamp (d : Direction) {r : Rect} (h : r.Plain) (p : Point) :
    d.along (r.clamp p) = max (d.near r) (min (d.far r) (d.along p)) := by
  have := h.width
  have := h.height
  rw [Rect.clamp_eq h]
  cases d <;> simp only [along, near, far] <;> omega

theorem Rect.across_clamp (d : Direction) {r : Rect} (h : r.Plain) {p : Point}
    (hp : d.Spans r (d.across p)) : d.across (r.clamp p) = d.across p := by
  rw [Rect.clamp_eq h]
  cases d <;> simp only [Spans, across] at hp ⊢ <;> omega

namespace Layout

theorem distanceTo_eq_some {d : Direction} {r : Rect} {exit : Point} {n : Int} (h : r.Plain)
    (hfit : d.near r - d.along exit ≤ i32Max) : distanceTo r exit d = some n ↔
      d.Spans r (d.across exit) ∧ d.along exit < d.near r ∧
        n = d.near r - d.along exit - d.slack := by
  cases d
  all_goals
    simp only [distanceTo, h.maxX, h.maxY, near, along, across, Spans, slack] at *
    split
    · rw [wrapI32_eq (by unfold i32Min; omega) (by omega), Option.some.injEq]
      omega
    · simp only [reduceCtorEq, false_iff]
      omega

theorem spans_of_distanceTo {d : Direction} {r : Rect} {exit : Point} {n : Int} (h : r.Plain)
    (hn : distanceTo r exit d = some n) : d.Spans r (d.across exit) := by
  cases d
  all_goals
    simp only [distanceTo, h.maxX, h.maxY, across, Spans] at *
    split at hn
    · omega
    · cases hn

theorem entryPoint_spec {d : Direction} {r : Rect} {exit : Point} (h : r.Plain)
    (hs : d.Spans r (d.across exit)) :
    d.along (entryPoint r exit d) = d.near r ∧
      d.across (entryPoint r exit d) = d.across exit ∧
      r.contains (entryPoint r exit d) = true := by
  have hlast : satI32 (r.maxX - 1) = r.x + r.width - 1 ∧
      satI32 (r.maxY - 1) = r.y + r.height - 1 := by
    obtain ⟨hw, hh, hl, ht, hr, hb, -, -⟩ := id h
    rw [h.maxX, h.maxY, satI32_eq (by omega) (by omega), satI32_eq (by omega) (by omega)]
    exact ⟨rfl, rfl⟩
  have hpoint : ∃ p, entryPoint r exit d = r.clamp p ∧ d.along p = d.near r ∧
      d.across p = d.across exit := by
    refine ⟨_, rfl, ?_, ?_⟩ <;>
      cases d <;> simp [Direction.isHorizontal, hlast, along, near, across]
  obtain ⟨p, hp, halong, hacross⟩ := hpoint
  have hin : r.contains p = true := by
    rw [Rect.contains_iff d h, halong, hacross]
    exact ⟨le_rfl, d.near_le_far h, hs⟩
  rw [hp, Rect.clamp_of_contains h hin]
  exact ⟨halong, hacross, hin⟩

theorem absI32_pos_iff {n : Int} (h : i32Min ≤ n) (k : n ≤ i32Max) (hn : n ≠ 0) :
    0 < absI32 n ↔ n ≠ i32Min := by
  unfold absI32 wrapI32 i32Min i32Max at *
  obtain hsign | hsign := le_total 0 n
  · rw [abs_of_nonneg hsign]
    omega
  · rw [abs_of_nonpos hsign]
    omega

theorem absI32_zero : absI32 0 = 0 := by decide

theorem absI32_least : absI32 i32Min < 0 := by decide

theorem wrapI32_range (n : Int) : i32Min ≤ wrapI32 n ∧ wrapI32 n ≤ i32Max := by
  unfold wrapI32 i32Min i32Max
  omega

/-- Along one row the dominant axis is that row, unless the difference is the least number. -/
theorem directionOf_row {exit target : Point} {w : Int} (h : target.y = exit.y)
    (hw : wrapI32 (target.x - exit.x) = w) :
    directionOf exit target =
      if w = 0 then none else if w = i32Min then some .up
      else if w > 0 then some .right else some .left := by
  have hdy : wrapI32 (target.y - exit.y) = 0 := by rw [h, sub_self]; rfl
  obtain ⟨hlow, hhigh⟩ := wrapI32_range (target.x - exit.x)
  rw [hw] at hlow hhigh
  by_cases hzero : w = 0
  · simp only [directionOf, hdy, hw, hzero, and_self, if_true]
  · have hpos := absI32_pos_iff hlow hhigh hzero
    by_cases hleast : w = i32Min
    · have hle : ¬ absI32 i32Min ≥ 0 := not_le.mpr absI32_least
      rw [hleast] at hzero
      simp only [directionOf, hdy, hw, hleast, absI32_zero, hzero, hle, false_and, if_false,
        if_true]
      rfl
    · simp only [directionOf, hdy, hw, hzero, hleast, absI32_zero, (hpos.mpr hleast).le, false_and,
        if_false, if_true]
      split <;> rfl

theorem directionOf_column {exit target : Point} {w : Int} (h : target.x = exit.x)
    (hw : wrapI32 (target.y - exit.y) = w) :
    directionOf exit target =
      if w = 0 then none else if w = i32Min then some .left
      else if w > 0 then some .down else some .up := by
  have hdx : wrapI32 (target.x - exit.x) = 0 := by rw [h, sub_self]; rfl
  obtain ⟨hlow, hhigh⟩ := wrapI32_range (target.y - exit.y)
  rw [hw] at hlow hhigh
  by_cases hzero : w = 0
  · simp only [directionOf, hdx, hw, hzero, and_self, if_true]
  · have hpos := absI32_pos_iff hlow hhigh hzero
    by_cases hleast : w = i32Min
    · have hle : 0 ≥ absI32 i32Min := absI32_least.le
      rw [hleast] at hzero
      simp only [directionOf, hdx, hw, hleast, absI32_zero, hzero, hle, and_false, if_false,
        if_true]
      rfl
    · simp only [directionOf, hdx, hw, hzero, hleast, absI32_zero, not_le.mpr (hpos.mpr hleast),
        and_false, if_false]
      split <;> rfl

theorem directionOf_back {d : Direction} {p : Point} {k : ℕ} (hp : p.InRange) (hk : 1 ≤ k)
    (hb : (d.back p k).InRange) :
    directionOf p (d.back p k) = some d.opposite ↔ k < 2147483648 := by
  unfold Point.InRange i32Min i32Max at hp hb
  cases d with
  | right | left =>
    rw [directionOf_row (by rfl) rfl]
    simp only [back] at hb
    unfold wrapI32 i32Min opposite
    split_ifs with hzero hleast hsign <;> simp only [back] at * <;> simp <;> omega
  | down | up =>
    rw [directionOf_column (by rfl) rfl]
    simp only [back] at hb
    unfold wrapI32 i32Min opposite
    split_ifs with hzero hleast hsign <;> simp only [back] at * <;> simp <;> omega

/-- The difference fits in a coordinate, and so does its negation. -/
def Reaches (exit target : Point) : Prop :=
  (-i32Max ≤ target.x - exit.x ∧ target.x - exit.x ≤ i32Max) ∧
    -i32Max ≤ target.y - exit.y ∧ target.y - exit.y ≤ i32Max

theorem absI32_eq {n : Int} (h : -i32Max ≤ n) (k : n ≤ i32Max) : absI32 n = |n| := by
  exact wrapI32_eq ((abs_nonneg n).trans' (by decide)) (abs_le'.mpr ⟨k, by omega⟩)

theorem leaves_over_edge {d : Direction} {r : Rect} {target : Point} (h : r.Plain)
    (hfit : Reaches (r.clamp target) target)
    (hd : directionOf (r.clamp target) target = some d) :
    d.along (r.clamp target) = d.far r := by
  obtain ⟨⟨hx, hx'⟩, hy, hy'⟩ := hfit
  have hwx : wrapI32 (target.x - (r.clamp target).x) = target.x - (r.clamp target).x :=
    wrapI32_eq (by unfold i32Min i32Max at *; omega) hx'
  have hwy : wrapI32 (target.y - (r.clamp target).y) = target.y - (r.clamp target).y :=
    wrapI32_eq (by unfold i32Min i32Max at *; omega) hy'
  have habs (n : Int) : |n| = n ∨ |n| = -n := abs_choice n
  have hxabs := abs_nonneg (target.x - (r.clamp target).x)
  have hyabs := abs_nonneg (target.y - (r.clamp target).y)
  have hxchoice := habs (target.x - (r.clamp target).x)
  have hychoice := habs (target.y - (r.clamp target).y)
  simp only [directionOf, hwx, hwy, absI32_eq hx hx', absI32_eq hy hy'] at hd
  have := h.width
  have := h.height
  rw [Rect.clamp_eq h] at *
  simp only at *
  split_ifs at hd <;> simp only [Option.some.injEq] at hd <;> subst hd <;>
    simp only [along, far] <;> omega

theorem opposite_of_met {d way : Direction} {r : Rect} {exit p : Point} (h : r.Plain)
    (hin : r.contains exit = true) (hacross : d.across p = d.across exit)
    (hlt : d.along exit < d.along p) (hspans : way.Spans r (way.across p))
    (hmet : way.along p < way.near r) : way = d.opposite := by
  rw [Rect.contains_iff d h] at hin
  cases d <;> cases way <;>
    simp only [near, far, along, across, Spans, opposite, reduceCtorEq] at * <;>
    omega

end Layout
end InputShare

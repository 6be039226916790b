import InputShare.Core.Screens

/-! Which geometry leaves the range of the coordinates: the code once more with each cast, and each
`+`, `-` and `abs` on `i32`, checked, next to the same geometry on integers without an end. -/
namespace InputShare

/-- The result of a cast or an operation that neither overflows nor changes a sign. -/
def checkI32 (n : Int) : Option Int := if i32Min ≤ n ∧ n ≤ i32Max then some n else none

/-- `&&`, which does not compute its right side when the left one is false. -/
def andThen (b : Bool) (c : Option Bool) : Option Bool := if b then c else some false

namespace Checked
open Layout

def maxX (r : Rect) : Option Int := do
  let width ← checkI32 r.width
  return satI32 (r.x + width)

def maxY (r : Rect) : Option Int := do
  let height ← checkI32 r.height
  return satI32 (r.y + height)

def contains (r : Rect) (p : Point) : Option Bool :=
  andThen (p.x ≥ r.x) do
    andThen (p.x < (← maxX r)) <|
      andThen (p.y ≥ r.y) do
        return p.y < (← maxY r)

def clamp (r : Rect) (p : Point) : Option Point := do
  let hiX := max (satI32 ((← maxX r) - 1)) r.x
  let hiY := max (satI32 ((← maxY r) - 1)) r.y
  return ⟨Rect.clampTo r.x hiX p.x, Rect.clampTo r.y hiY p.y⟩

def union (r other : Rect) : Option Rect := do
  let x := min r.x other.x
  let y := min r.y other.y
  let maxX := max (← maxX r) (← maxX other)
  let maxY := max (← maxY r) (← maxY other)
  let width ← checkI32 (maxX - x)
  let height ← checkI32 (maxY - y)
  return ⟨x, y, (max width 0).toNat, (max height 0).toNat⟩

/-- `MachineRecord::bounds`. -/
def bounds (m : MachineRecord) : Option (Option Rect) :=
  match m.screens with
  | [] => some none
  | r :: rs => (rs.foldlM union r).map some

def directionOf (exit target : Point) : Option (Option Direction) := do
  let dx ← checkI32 (target.x - exit.x)
  let dy ← checkI32 (target.y - exit.y)
  if dx = 0 ∧ dy = 0 then return none
  if (← checkI32 |dx|) ≥ (← checkI32 |dy|) then return some (if dx > 0 then .right else .left)
  return some (if dy > 0 then .down else .up)

def distanceTo (bounds : Rect) (exit : Point) : Direction → Option (Option Int)
  | .right => do
    if ← andThen (exit.y ≥ bounds.y) do
      return exit.y < (← maxY bounds) && bounds.x > exit.x
    then return some (← checkI32 (bounds.x - exit.x)) else return none
  | .left => do
    if ← andThen (exit.y ≥ bounds.y) do
      andThen (exit.y < (← maxY bounds)) do return (← maxX bounds) ≤ exit.x
    then return some (← checkI32 (exit.x - (← maxX bounds))) else return none
  | .down => do
    if ← andThen (exit.x ≥ bounds.x) do
      return exit.x < (← maxX bounds) && bounds.y > exit.y
    then return some (← checkI32 (bounds.y - exit.y)) else return none
  | .up => do
    if ← andThen (exit.x ≥ bounds.x) do
      andThen (exit.x < (← maxX bounds)) do return (← maxY bounds) ≤ exit.y
    then return some (← checkI32 (exit.y - (← maxY bounds))) else return none

def candidate (exit : Point) (direction : Direction) (m : MachineRecord) :
    Option (Option Layout.Candidate) := do
  match ← bounds m with
  | none => return none
  | some b => return (← distanceTo b exit direction).map fun n => ⟨m.id, b, n⟩

def candidatesAlong (doc : WorkspaceDoc) (current : MachineId) (exit : Point)
    (direction : Direction) : Option (List Layout.Candidate) := do
  let others := doc.machinesPresent.filter fun m => m.id ≠ current
  let found ← others.mapM (candidate exit direction)
  return (found.filterMap id).insertionSort Layout.nearer

def entryPoint (bounds : Rect) (exit : Point) (direction : Direction) : Option Point := do
  let point ←
    match direction with
    | .right => pure ⟨bounds.x, exit.y⟩
    | .left => pure ⟨satI32 ((← maxX bounds) - 1), exit.y⟩
    | .down => pure ⟨exit.x, bounds.y⟩
    | .up => pure ⟨exit.x, satI32 ((← maxY bounds) - 1)⟩
  clamp bounds point

def resolveCursor (doc : WorkspaceDoc) (online : Finset MachineId) (current : MachineId)
    (target : Point) : Option Resolution := do
  let some m := doc.machine current | return .stay target
  let some bounds ← bounds m | return .stay target
  if ← contains bounds target then return .stay target
  let exit ← clamp bounds target
  let some direction ← directionOf exit target | return .stay exit
  match choose doc.settings.value.offlineEdge online
      (← candidatesAlong doc current exit direction) with
  | some c => return .move c.machine (← entryPoint c.bounds exit direction)
  | none => return .stay exit

/-- The new target of `on_motion`. -/
def newTarget (cursor : Point) (dx dy : Int) : Option Point := do
  return ⟨← checkI32 (cursor.x + dx), ← checkI32 (cursor.y + dy)⟩

end Checked

/-! The same geometry on integers. -/

/-- The edges of a rectangle; it ends before `right` and `bottom`. -/
structure Box where
  left : Int
  top : Int
  right : Int
  bottom : Int
deriving DecidableEq, Repr

def Rect.box (r : Rect) : Box := ⟨r.x, r.y, satI32 (r.x + r.width), satI32 (r.y + r.height)⟩

namespace Box

def join (a b : Box) : Box :=
  ⟨min a.left b.left, min a.top b.top, max a.right b.right, max a.bottom b.bottom⟩

def clamp (b : Box) (p : Point) : Point :=
  ⟨Rect.clampTo b.left (max (b.right - 1) b.left) p.x,
    Rect.clampTo b.top (max (b.bottom - 1) b.top) p.y⟩

def Small (b : Box) : Prop := b.right - b.left ≤ i32Max ∧ b.bottom - b.top ≤ i32Max

instance (b : Box) : Decidable b.Small := inferInstanceAs (Decidable (_ ∧ _))

def Ahead (b : Box) (exit : Point) : Direction → Prop
  | .right => (b.top ≤ exit.y ∧ exit.y < b.bottom) ∧ exit.x < b.left
  | .left => (b.top ≤ exit.y ∧ exit.y < b.bottom) ∧ b.right ≤ exit.x
  | .down => (b.left ≤ exit.x ∧ exit.x < b.right) ∧ exit.y < b.top
  | .up => (b.left ≤ exit.x ∧ exit.x < b.right) ∧ b.bottom ≤ exit.y

def gap (b : Box) (exit : Point) : Direction → Int
  | .right => b.left - exit.x
  | .left => exit.x - b.right
  | .down => b.top - exit.y
  | .up => exit.y - b.bottom

instance (b : Box) (exit : Point) (d : Direction) : Decidable (b.Ahead exit d) := by
  cases d <;> exact inferInstanceAs (Decidable ((_ ∧ _) ∧ _))

theorem Small.of_join {a b : Box} (h : (a.join b).Small) : a.Small ∧ b.Small := by
  unfold Small join at *
  simp only at h
  omega

theorem Small.of_foldl {a : Box} {rest : List Box} (h : (rest.foldl join a).Small) : a.Small := by
  induction rest generalizing a with
  | nil => exact h
  | cons b rest ih => exact (ih h).of_join.1

end Box

def MachineRecord.box (m : MachineRecord) : Option Box :=
  match m.screens.map Rect.box with
  | [] => none
  | b :: rest => some (rest.foldl Box.join b)

def heading (exit target : Point) : Option Direction :=
  if target = exit then none
  else if |target.x - exit.x| ≥ |target.y - exit.y| then
    some (if target.x > exit.x then .right else .left)
  else some (if target.y > exit.y then .down else .up)

/-- No cast of a screen's size changes its sign, and the box around the screens is small. -/
structure MachineRecord.Expressible (m : MachineRecord) : Prop where
  sizes : ∀ r ∈ m.screens, (r.width : Int) ≤ i32Max ∧ (r.height : Int) ≤ i32Max
  extent : ∀ b ∈ m.box, b.Small

instance (m : MachineRecord) : Decidable m.Expressible :=
  decidable_of_iff ((∀ r ∈ m.screens, (r.width : Int) ≤ i32Max ∧ (r.height : Int) ≤ i32Max) ∧
    ∀ b ∈ m.box, b.Small) ⟨fun ⟨a, b⟩ => ⟨a, b⟩, fun ⟨a, b⟩ => ⟨a, b⟩⟩

def WorkspaceDoc.GapsFit (doc : WorkspaceDoc) (current : MachineId) (exit : Point)
    (d : Direction) : Prop :=
  ∀ m ∈ doc.machinesPresent, m.id ≠ current → ∀ b ∈ m.box, b.Ahead exit d →
    b.gap exit d ≤ i32Max

instance (doc : WorkspaceDoc) (current : MachineId) (exit : Point) (d : Direction) :
    Decidable (doc.GapsFit current exit d) :=
  inferInstanceAs (Decidable (∀ m ∈ doc.machinesPresent, m.id ≠ current → ∀ b ∈ m.box,
    b.Ahead exit d → b.gap exit d ≤ i32Max))

/-- Every machine is expressible; and the way from the current machine to the target, and the gaps
along it, are too. -/
structure WorkspaceDoc.InReach (doc : WorkspaceDoc) (current : MachineId) (target : Point) :
    Prop where
  machines : ∀ m ∈ doc.machinesPresent, m.Expressible
  push : ∀ m b, doc.machine current = some m → m.box = some b →
    Layout.Reaches (b.clamp target) target
  gaps : ∀ m b d, doc.machine current = some m → m.box = some b →
    heading (b.clamp target) target = some d → doc.GapsFit current (b.clamp target) d

/-! Rectangles. -/

theorem checkI32_eq_some {n v : Int} :
    checkI32 n = some v ↔ (i32Min ≤ n ∧ n ≤ i32Max) ∧ n = v := by
  unfold checkI32
  split
  · simp [*]
  · simp [*]

theorem checkI32_eq {n : Int} (h : i32Min ≤ n) (k : n ≤ i32Max) : checkI32 n = some n :=
  checkI32_eq_some.mpr ⟨⟨h, k⟩, rfl⟩

theorem checkI32_eq_none {n : Int} : checkI32 n = none ↔ n < i32Min ∨ i32Max < n := by
  unfold checkI32
  split
  · simp
    omega
  · simp
    omega

namespace Checked
variable {r s : Rect}

theorem maxX_eq (h : (r.width : Int) ≤ i32Max) : maxX r = some r.maxX := by
  have hmin : i32Min ≤ (r.width : Int) := by
    unfold i32Min
    omega
  simp [maxX, checkI32_eq hmin h, Rect.maxX, wrapI32_eq hmin h]

theorem maxY_eq (h : (r.height : Int) ≤ i32Max) : maxY r = some r.maxY := by
  have hmin : i32Min ≤ (r.height : Int) := by
    unfold i32Min
    omega
  simp [maxY, checkI32_eq hmin h, Rect.maxY, wrapI32_eq hmin h]

theorem maxX_isSome : (maxX r).isSome ↔ (r.width : Int) ≤ i32Max := by
  constructor
  · intro h
    by_contra hwide
    simp [maxX, checkI32_eq_none.mpr (.inr (not_le.mp hwide))] at h
  · intro h
    rw [maxX_eq h]
    rfl

theorem maxY_isSome : (maxY r).isSome ↔ (r.height : Int) ≤ i32Max := by
  constructor
  · intro h
    by_contra hhigh
    simp [maxY, checkI32_eq_none.mpr (.inr (not_le.mp hhigh))] at h
  · intro h
    rw [maxY_eq h]
    rfl

end Checked

theorem Rect.Fits.box_eq {r : Rect} (h : r.Fits) : r.box = ⟨r.x, r.y, r.maxX, r.maxY⟩ := by
  rw [Rect.box, h.maxX_eq, h.maxY_eq]

theorem Rect.Fits.small {r : Rect} (h : r.Fits) : r.box.Small := by
  rw [h.box_eq]
  exact ⟨h.le_maxX.2.2, h.le_maxY.2.2⟩

theorem Rect.joins_iff {r s : Rect} (hr : r.Fits) (hs : s.Fits) :
    (r.box.join s.box).Small ↔ r.Joins s := by
  have := hr.small
  have := hs.small
  rw [hr.box_eq, hs.box_eq] at *
  unfold Box.Small Box.join Rect.Joins at *
  simp only at *
  omega

theorem Rect.union_box {r s : Rect} (hr : r.Fits) (hs : s.Fits) (h : r.Joins s) :
    (r.union s).box = r.box.join s.box := by
  obtain ⟨hx, hy, -⟩ := Rect.union_exact hr hs h
  obtain ⟨hmaxX, hmaxY⟩ := Rect.union_maxX hr hs h
  rw [(Rect.union_fits hr hs h).box_eq, hr.box_eq, hs.box_eq, hx, hy, hmaxX, hmaxY]
  rfl

namespace Checked
variable {r s : Rect}

theorem union_eq (hr : r.Fits) (hs : s.Fits) (h : r.Joins s) : union r s = some (r.union s) := by
  have := hr.le_maxX
  have := hs.le_maxX
  have := hr.le_maxY
  have := hs.le_maxY
  obtain ⟨hx, hy⟩ := h
  have hwide : i32Min ≤ max r.maxX s.maxX - min r.x s.x ∧
      max r.maxX s.maxX - min r.x s.x ≤ i32Max := by
    unfold i32Min
    omega
  have hhigh : i32Min ≤ max r.maxY s.maxY - min r.y s.y ∧
      max r.maxY s.maxY - min r.y s.y ≤ i32Max := by
    unfold i32Min
    omega
  simp [union, maxX_eq hr.wide, maxX_eq hs.wide, maxY_eq hr.high, maxY_eq hs.high,
    checkI32_eq hwide.1 hwide.2, checkI32_eq hhigh.1 hhigh.2, Rect.union,
    wrapI32_eq hwide.1 hwide.2, wrapI32_eq hhigh.1 hhigh.2]

theorem of_union {u : Rect} (hr : (⟨r.x, r.y⟩ : Point).InRange) (hs : (⟨s.x, s.y⟩ : Point).InRange)
    (h : union r s = some u) : r.Fits ∧ s.Fits ∧ r.Joins s := by
  simp only [union, Option.bind_eq_bind, Option.bind_eq_some_iff, pure, Option.some.injEq] at h
  obtain ⟨a, ha, b, hb, c, hc, d, hd, w, hw, v, hv, -⟩ := h
  have hrf : r.Fits :=
    ⟨hr, maxX_isSome.mp (by rw [ha]; rfl), maxY_isSome.mp (by rw [hc]; rfl)⟩
  have hsf : s.Fits :=
    ⟨hs, maxX_isSome.mp (by rw [hb]; rfl), maxY_isSome.mp (by rw [hd]; rfl)⟩
  rw [maxX_eq hrf.wide, Option.some.injEq] at ha
  rw [maxX_eq hsf.wide, Option.some.injEq] at hb
  rw [maxY_eq hrf.high, Option.some.injEq] at hc
  rw [maxY_eq hsf.high, Option.some.injEq] at hd
  have hwide := (checkI32_eq_some.mp hw).1.2
  have hhigh := (checkI32_eq_some.mp hv).1.2
  refine ⟨hrf, hsf, ?_⟩
  unfold Rect.Joins
  omega

theorem union_isSome (hr : (⟨r.x, r.y⟩ : Point).InRange) (hs : (⟨s.x, s.y⟩ : Point).InRange) :
    (union r s).isSome ↔ r.Fits ∧ s.Fits ∧ (r.box.join s.box).Small := by
  constructor
  · intro h
    obtain ⟨u, hu⟩ := Option.isSome_iff_exists.mp h
    obtain ⟨hrf, hsf, hjoins⟩ := of_union hr hs hu
    exact ⟨hrf, hsf, (Rect.joins_iff hrf hsf).mpr hjoins⟩
  · intro ⟨hrf, hsf, hsmall⟩
    rw [union_eq hrf hsf ((Rect.joins_iff hrf hsf).mp hsmall)]
    rfl

theorem foldlM_union {rest : List Rect} (hfits : ∀ s ∈ r :: rest, s.Fits)
    (hsmall : ((rest.map Rect.box).foldl Box.join r.box).Small) :
    rest.foldlM union r = some (rest.foldl Rect.union r) ∧ (rest.foldl Rect.union r).Fits ∧
      (rest.foldl Rect.union r).box = (rest.map Rect.box).foldl Box.join r.box := by
  induction rest generalizing r with
  | nil => exact ⟨rfl, hfits r List.mem_cons_self, rfl⟩
  | cons s rest ih =>
    obtain ⟨hr, hrest⟩ := List.forall_mem_cons.mp hfits
    obtain ⟨hs, hrest⟩ := List.forall_mem_cons.mp hrest
    simp only [List.map_cons, List.foldl_cons] at hsmall ⊢
    have hjoins := (Rect.joins_iff hr hs).mp hsmall.of_foldl
    rw [List.foldlM_cons, union_eq hr hs hjoins]
    rw [← Rect.union_box hr hs hjoins] at hsmall ⊢
    exact ih (List.forall_mem_cons.mpr ⟨Rect.union_fits hr hs hjoins, hrest⟩) hsmall

theorem of_foldlM {rest : List Rect} {b : Rect} (hcorners : ∀ s ∈ r :: rest,
      (⟨s.x, s.y⟩ : Point).InRange) (hb : rest.foldlM union r = some b)
    (hwide : (b.width : Int) ≤ i32Max) (hhigh : (b.height : Int) ≤ i32Max) :
    (∀ s ∈ r :: rest, s.Fits) ∧ ((rest.map Rect.box).foldl Box.join r.box).Small := by
  induction rest generalizing r with
  | nil =>
    obtain rfl := Option.some.inj hb
    have hfits : r.Fits := ⟨hcorners r List.mem_cons_self, hwide, hhigh⟩
    exact ⟨List.forall_mem_singleton.mpr hfits, hfits.small⟩
  | cons s rest ih =>
    obtain ⟨hr, hrest⟩ := List.forall_mem_cons.mp hcorners
    obtain ⟨hs, hrest⟩ := List.forall_mem_cons.mp hrest
    obtain ⟨u, hu, hb⟩ := Option.bind_eq_some_iff.mp hb
    obtain ⟨hrf, hsf, hjoins⟩ := of_union hr hs hu
    obtain rfl := Option.some.inj (hu.symm.trans (union_eq hrf hsf hjoins))
    obtain ⟨hfits, hsmall⟩ :=
      ih (List.forall_mem_cons.mpr ⟨(Rect.union_fits hrf hsf hjoins).corner, hrest⟩) hb
    rw [Rect.union_box hrf hsf hjoins] at hsmall
    obtain ⟨-, hfits⟩ := List.forall_mem_cons.mp hfits
    exact ⟨List.forall_mem_cons.mpr ⟨hrf, List.forall_mem_cons.mpr ⟨hsf, hfits⟩⟩, hsmall⟩

end Checked

/-! Machines. -/

namespace MachineRecord

theorem screens_corner {m : MachineRecord} {r : Rect} (h : r ∈ m.screens) :
    (⟨r.x, r.y⟩ : Point).InRange := by
  obtain ⟨d, -, rfl⟩ := List.mem_map.mp h
  unfold Point.InRange Rect.translate satI32 i32Min i32Max
  simp only
  omega

/-- The bounds are computed without an overflow, and they are the box around the screens. -/
theorem Expressible.bounds {m : MachineRecord} (h : m.Expressible) :
    Checked.bounds m = some m.bounds ∧ (∀ b, m.bounds = some b → b.Fits) ∧
      m.box = m.bounds.map Rect.box := by
  have hbounds : m.bounds = match m.screens with
    | [] => none
    | r :: rs => some (rs.foldl Rect.union r) := rfl
  rw [hbounds]
  unfold Checked.bounds MachineRecord.box
  cases hscreens : m.screens with
  | nil => simp
  | cons r rest =>
    have hfits : ∀ s ∈ r :: rest, s.Fits := fun s hs =>
      have hmem : s ∈ m.screens := hscreens ▸ hs
      ⟨screens_corner hmem, (h.sizes s hmem).1, (h.sizes s hmem).2⟩
    obtain ⟨hfold, hfit, hbox⟩ := Checked.foldlM_union hfits
      (h.extent _ (by simp [MachineRecord.box, hscreens]))
    refine ⟨by simp [hfold], fun b hb => ?_, by simp [hbox]⟩
    obtain rfl := Option.some.inj hb
    exact hfit

theorem expressible_of_bounds {m : MachineRecord} {b : Option Rect}
    (h : Checked.bounds m = some b)
    (hedges : ∀ r ∈ b, (Checked.maxX r).isSome ∧ (Checked.maxY r).isSome) : m.Expressible := by
  unfold Checked.bounds at h
  cases hscreens : m.screens with
  | nil =>
    exact ⟨by simp [hscreens], by simp [MachineRecord.box, hscreens]⟩
  | cons r rest =>
    rw [hscreens] at h
    obtain ⟨u, hu, rfl⟩ := Option.map_eq_some_iff.mp h
    obtain ⟨hwide, hhigh⟩ := hedges u rfl
    have hcorners : ∀ s ∈ r :: rest, (⟨s.x, s.y⟩ : Point).InRange :=
      fun s hs => screens_corner (hscreens ▸ hs)
    obtain ⟨hfits, hsmall⟩ := Checked.of_foldlM hcorners hu (Checked.maxX_isSome.mp hwide)
      (Checked.maxY_isSome.mp hhigh)
    refine ⟨fun s hs => ?_, fun b hb => ?_⟩
    · have hs := hfits s (hscreens ▸ hs)
      exact ⟨hs.wide, hs.high⟩
    · simp only [MachineRecord.box, hscreens, List.map_cons, Option.mem_some_iff] at hb
      exact hb ▸ hsmall

end MachineRecord

/-! The way out of a machine. -/

namespace Checked
variable {b : Rect}

theorem contains_eq (h : b.Fits) (p : Point) : contains b p = some (b.contains p) := by
  simp only [contains, maxX_eq h.wide, maxY_eq h.high, andThen, Option.bind_eq_bind,
    Option.bind_some, pure, Rect.contains]
  by_cases h₁ : p.x ≥ b.x
  · by_cases h₂ : p.x < b.maxX
    · by_cases h₃ : p.y ≥ b.y <;> simp [h₁, h₂, h₃]
    · simp [h₁, h₂]
  · simp [h₁]

theorem clamp_eq (h : b.Fits) (p : Point) : clamp b p = some (b.clamp p) := by
  simp [clamp, maxX_eq h.wide, maxY_eq h.high, Rect.clamp]

theorem entryPoint_eq (h : b.Fits) (exit : Point) (d : Direction) :
    entryPoint b exit d = some (Layout.entryPoint b exit d) := by
  cases d <;> simp [entryPoint, Layout.entryPoint, maxX_eq h.wide, maxY_eq h.high, clamp_eq h,
    Direction.isHorizontal]

end Checked

theorem Rect.Fits.clamp_box {b : Rect} (h : b.Fits) (p : Point) : b.box.clamp p = b.clamp p := by
  obtain ⟨⟨hl, -⟩, ht, -⟩ := h.corner
  have := h.le_maxX
  have := h.le_maxY
  simp only at hl ht
  have hx : max (satI32 (b.maxX - 1)) b.x = max (b.maxX - 1) b.x := by
    unfold satI32 i32Min i32Max at *
    omega
  have hy : max (satI32 (b.maxY - 1)) b.y = max (b.maxY - 1) b.y := by
    unfold satI32 i32Min i32Max at *
    omega
  rw [h.box_eq, Box.clamp, Rect.clamp, hx, hy]

/-! Directions and distances. -/

theorem heading_eq {exit target : Point} (h : Layout.Reaches exit target) :
    Layout.directionOf exit target = heading exit target := by
  obtain ⟨⟨hx, hx'⟩, hy, hy'⟩ := h
  have hwx := wrapI32_eq (n := target.x - exit.x) (by unfold i32Min i32Max at *; omega) hx'
  have hwy := wrapI32_eq (n := target.y - exit.y) (by unfold i32Min i32Max at *; omega) hy'
  have hsame : target = exit ↔ target.x - exit.x = 0 ∧ target.y - exit.y = 0 := by
    rw [Point.mk.injEq]
    omega
  simp only [Layout.directionOf, heading, hwx, hwy, Layout.absI32_eq hx hx',
    Layout.absI32_eq hy hy', hsame, gt_iff_lt, sub_pos]

namespace Checked
variable {exit target : Point} {d : Direction} {b : Rect}

theorem checkI32_abs {n : Int} (h : -i32Max ≤ n) (k : n ≤ i32Max) : checkI32 |n| = some |n| :=
  checkI32_eq ((abs_nonneg n).trans' (by decide)) (abs_le'.mpr ⟨k, by omega⟩)

theorem directionOf_eq (h : Layout.Reaches exit target) :
    directionOf exit target = some (heading exit target) := by
  rw [← heading_eq h]
  obtain ⟨⟨hx, hx'⟩, hy, hy'⟩ := h
  have hmin : i32Min ≤ target.x - exit.x ∧ i32Min ≤ target.y - exit.y := by
    unfold i32Min i32Max at *
    omega
  simp only [directionOf, Layout.directionOf, checkI32_eq hmin.1 hx', checkI32_eq hmin.2 hy',
    wrapI32_eq hmin.1 hx', wrapI32_eq hmin.2 hy', checkI32_abs hx hx', checkI32_abs hy hy',
    Layout.absI32_eq hx hx', Layout.absI32_eq hy hy', Option.bind_eq_bind, Option.bind_some, pure]
  split
  · rfl
  · split <;> rfl

theorem reaches_of_directionOf {o : Option Direction} (h : directionOf exit target = some o) :
    Layout.Reaches exit target := by
  simp only [directionOf, Option.bind_eq_bind, Option.bind_eq_some_iff] at h
  obtain ⟨dx, hdx, dy, hdy, h⟩ := h
  obtain ⟨⟨hx, hx'⟩, rfl⟩ := checkI32_eq_some.mp hdx
  obtain ⟨⟨hy, hy'⟩, rfl⟩ := checkI32_eq_some.mp hdy
  by_cases hzero : target.x - exit.x = 0 ∧ target.y - exit.y = 0
  · unfold Layout.Reaches i32Max
    omega
  · simp only [hzero, if_false, Option.bind_eq_some_iff] at h
    obtain ⟨a, ha, c, hc, -⟩ := h
    obtain ⟨hax, hax'⟩ := abs_le'.mp (checkI32_eq_some.mp ha).1.2
    obtain ⟨hay, hay'⟩ := abs_le'.mp (checkI32_eq_some.mp hc).1.2
    unfold Layout.Reaches
    omega

theorem distanceTo_eq (h : b.Fits) (exit : Point) (d : Direction) :
    distanceTo b exit d =
      if b.box.Ahead exit d then (checkI32 (b.box.gap exit d)).map some else some none := by
  rw [h.box_eq]
  cases d
  all_goals
    simp only [distanceTo, maxX_eq h.wide, maxY_eq h.high, andThen, Box.Ahead, Box.gap,
      Option.bind_eq_bind, Option.bind_some, pure]
    split_ifs <;> simp_all [Option.map_eq_bind]

theorem layout_distanceTo (h : b.Fits) (exit : Point) (d : Direction) :
    Layout.distanceTo b exit d =
      if b.box.Ahead exit d then some (wrapI32 (b.box.gap exit d)) else none := by
  rw [h.box_eq]
  cases d <;> simp only [Layout.distanceTo, Box.Ahead, Box.gap, ge_iff_le, gt_iff_lt, and_assoc]

theorem gap_nonneg {b : Box} {exit : Point} {d : Direction} (h : b.Ahead exit d) :
    0 ≤ b.gap exit d := by
  cases d <;> simp only [Box.Ahead, Box.gap] at h ⊢ <;> omega

def lookAt (exit : Point) (d : Direction) (m : MachineRecord) :
    Option Layout.Candidate :=
  m.bounds.bind fun b => (Layout.distanceTo b exit d).map fun n => ⟨m.id, b, n⟩

theorem candidatesAlong_eq_lookAt (doc : WorkspaceDoc) (current : MachineId) (exit : Point)
    (d : Direction) : Layout.candidatesAlong doc current exit d =
      ((doc.machinesPresent.filter fun m => m.id ≠ current).filterMap (lookAt exit d)).insertionSort
        Layout.nearer := by
  have hlook : (fun m : MachineRecord => do
      let bounds ← m.bounds
      let distance ← Layout.distanceTo bounds exit d
      return (⟨m.id, bounds, distance⟩ : Layout.Candidate)) = lookAt exit d := by
    funext m
    simp [lookAt, Option.map_eq_bind]
  rw [Layout.candidatesAlong, hlook]

theorem candidate_eq {m : MachineRecord} (h : m.Expressible) (exit : Point) (d : Direction)
    (hgap : ∀ b ∈ m.box, b.Ahead exit d → b.gap exit d ≤ i32Max) :
    candidate exit d m = some (lookAt exit d m) := by
  obtain ⟨hbounds, hfits, hbox⟩ := h.bounds
  cases hb : m.bounds with
  | none => simp [candidate, lookAt, hbounds, hb]
  | some b =>
    rw [hb] at hbox
    have hfit := hfits b hb
    have hmax := hgap b.box hbox
    simp only [candidate, hbounds, hb, distanceTo_eq hfit, lookAt, layout_distanceTo hfit,
      Option.bind_eq_bind, Option.bind_some, pure]
    split
    · rename_i hahead
      have hmin : i32Min ≤ b.box.gap exit d := (gap_nonneg hahead).trans' (by decide)
      rw [checkI32_eq hmin (hmax hahead), wrapI32_eq hmin (hmax hahead)]
      rfl
    · rfl

theorem gap_of_candidate {m : MachineRecord} (h : m.Expressible) {exit : Point} {d : Direction}
    {o : Option Layout.Candidate} (ho : candidate exit d m = some o) :
    ∀ b ∈ m.box, b.Ahead exit d → b.gap exit d ≤ i32Max := by
  obtain ⟨hbounds, hfits, hbox⟩ := h.bounds
  intro c hc hahead
  rw [hbox] at hc
  obtain ⟨b, hb, rfl⟩ := Option.map_eq_some_iff.mp hc
  simp only [candidate, hbounds, hb, distanceTo_eq (hfits b hb), hahead, if_true,
    Option.bind_eq_bind, Option.bind_some, Option.bind_eq_some_iff, Option.map_eq_some_iff] at ho
  obtain ⟨-, ⟨n, hn, -⟩, -⟩ := ho
  exact (checkI32_eq_some.mp hn).1.2

theorem mapM_eq_some {α β : Type*} {f : α → Option β} {g : α → β} {l : List α}
    (h : ∀ x ∈ l, f x = some (g x)) : l.mapM f = some (l.map g) := by
  induction l with
  | nil => rfl
  | cons x l ih =>
    obtain ⟨hx, hl⟩ := List.forall_mem_cons.mp h
    simp [hx, ih hl]

theorem of_mapM_eq_some {α β : Type*} {f : α → Option β} {l : List α} {ys : List β}
    (h : l.mapM f = some ys) : ∀ x ∈ l, ∃ y, f x = some y := by
  induction l generalizing ys with
  | nil => exact List.forall_mem_nil _
  | cons x l ih =>
    simp only [List.mapM_cons, Option.bind_eq_bind, Option.bind_eq_some_iff] at h
    obtain ⟨y, hy, zs, hzs, -⟩ := h
    exact List.forall_mem_cons.mpr ⟨⟨y, hy⟩, ih hzs⟩

variable {doc : WorkspaceDoc} {current : MachineId}

theorem candidatesAlong_eq (hdoc : ∀ m ∈ doc.machinesPresent, m.Expressible)
    (h : doc.GapsFit current exit d) :
    candidatesAlong doc current exit d = some (Layout.candidatesAlong doc current exit d) := by
  have hall : ∀ m ∈ doc.machinesPresent.filter fun m => m.id ≠ current,
      candidate exit d m = some (lookAt exit d m) := by
    intro m hm
    obtain ⟨hm, hne⟩ := List.mem_filter.mp hm
    exact candidate_eq (hdoc m hm) exit d (h m hm (of_decide_eq_true hne))
  rw [candidatesAlong, mapM_eq_some hall, candidatesAlong_eq_lookAt]
  simp [List.filterMap_map]

theorem gaps_of_candidatesAlong (hdoc : ∀ m ∈ doc.machinesPresent, m.Expressible)
    {cs : List Layout.Candidate} (h : candidatesAlong doc current exit d = some cs) :
    doc.GapsFit current exit d := by
  intro m hm hne
  simp only [candidatesAlong, Option.bind_eq_bind, Option.bind_eq_some_iff] at h
  obtain ⟨ys, hys, -⟩ := h
  obtain ⟨o, ho⟩ := of_mapM_eq_some hys m (List.mem_filter.mpr ⟨hm, decide_eq_true hne⟩)
  exact gap_of_candidate (hdoc m hm) ho

theorem box_clamp_of_contains {b : Rect} (h : b.Fits) {p : Point} (hp : b.contains p = true) :
    b.box.clamp p = p := by
  simp only [Rect.contains, Bool.and_eq_true, decide_eq_true_eq] at hp
  obtain ⟨⟨⟨hl, hr⟩, ht⟩, hbottom⟩ := hp
  have hx : Rect.clampTo b.x (max (b.maxX - 1) b.x) p.x = p.x := by
    unfold Rect.clampTo
    rw [if_neg (by omega), if_neg (by omega)]
  have hy : Rect.clampTo b.y (max (b.maxY - 1) b.y) p.y = p.y := by
    unfold Rect.clampTo
    rw [if_neg (by omega), if_neg (by omega)]
  rw [h.box_eq, Box.clamp, hx, hy]

/-- Within reach nothing overflows, and the code resolves the move as it stands. -/
theorem resolveCursor_eq (h : doc.InReach current target) (online : Finset MachineId) :
    resolveCursor doc online current target =
      some (Layout.resolveCursor doc online current target) := by
  unfold resolveCursor Layout.resolveCursor
  cases hm : doc.machine current with
  | none => rfl
  | some m =>
    obtain ⟨hbounds, hfits, hbox⟩ :=
      (h.machines m (WorkspaceDoc.mem_machinesPresent.mpr ⟨current, hm⟩)).bounds
    cases hb : m.bounds with
    | none => simp [hbounds, hb]
    | some b =>
      have hfit := hfits b hb
      rw [hb] at hbox
      have hpush := h.push m b.box hm hbox
      have hgaps := fun d => h.gaps m b.box d hm hbox
      rw [hfit.clamp_box] at hpush hgaps
      simp only [hbounds, hb, contains_eq hfit, clamp_eq hfit, directionOf_eq hpush,
        heading_eq hpush, Option.bind_eq_bind, Option.bind_some, pure]
      split
      · rfl
      · cases hd : heading (b.clamp target) target with
        | none => rfl
        | some d =>
          simp only [candidatesAlong_eq h.machines (hgaps d hd), Option.bind_some]
          cases hc : Layout.choose doc.settings.value.offlineEdge online
              (Layout.candidatesAlong doc current (b.clamp target) d) with
          | none => rfl
          | some c =>
            obtain ⟨n, hn, -, -, hcb, -⟩ :=
              Layout.mem_candidatesAlong.mp (Layout.choose_mem hc).1
            simp [entryPoint_eq ((h.machines n hn).bounds.2.1 c.bounds hcb)]

theorem inReach_of_resolveCursor (hdoc : ∀ m ∈ doc.machinesPresent, m.Expressible)
    {online : Finset MachineId} {v : Resolution}
    (h : resolveCursor doc online current target = some v) : doc.InReach current target := by
  have hkey : ∀ m b, doc.machine current = some m → m.box = some b →
      Layout.Reaches (b.clamp target) target ∧
        ∀ d, heading (b.clamp target) target = some d →
          doc.GapsFit current (b.clamp target) d := by
    intro m c hm hc
    obtain ⟨hbounds, hfits, hbox⟩ :=
      (hdoc m (WorkspaceDoc.mem_machinesPresent.mpr ⟨current, hm⟩)).bounds
    obtain ⟨b, hb, rfl⟩ := Option.map_eq_some_iff.mp (hbox.symm.trans hc)
    have hfit := hfits b hb
    simp only [resolveCursor, hm, hbounds, hb, contains_eq hfit, clamp_eq hfit,
      Option.bind_eq_bind, Option.bind_some] at h
    by_cases hin : b.contains target = true
    · -- a target inside is its own exit
      rw [box_clamp_of_contains hfit hin]
      refine ⟨by simp [Layout.Reaches, i32Max], fun d hd => ?_⟩
      simp [heading] at hd
    · rw [hfit.clamp_box]
      rw [if_neg hin] at h
      obtain ⟨o, ho, h⟩ := Option.bind_eq_some_iff.mp h
      have hreach := reaches_of_directionOf ho
      obtain rfl := Option.some.inj (ho.symm.trans (directionOf_eq hreach))
      refine ⟨hreach, fun d hd => ?_⟩
      rw [hd] at h
      obtain ⟨cs, hcs, -⟩ := Option.bind_eq_some_iff.mp h
      exact gaps_of_candidatesAlong hdoc hcs
  exact ⟨hdoc, fun m b hm hb => (hkey m b hm hb).1, fun m b d hm hb => (hkey m b hm hb).2 d⟩

end Checked

/-! Everything that is computed. -/

/-- Nothing overflows and no cast changes a sign: not in the bounds of the machines and their far
edges, not where the pointer goes, not in the new target of a motion, and not in the box around
two rectangles, which covers both. -/
structure NeverWraps (doc : WorkspaceDoc) (online : Finset MachineId) (current : MachineId)
    (target cursor : Point) (dx dy : Int) (r s : Rect) : Prop where
  bounds : ∀ m ∈ doc.machinesPresent, ∃ b, Checked.bounds m = some b ∧
    ∀ box ∈ b, (Checked.maxX box).isSome ∧ (Checked.maxY box).isSome
  resolves : (Checked.resolveCursor doc online current target).isSome
  moves : (Checked.newTarget cursor dx dy).isSome
  joins : (Checked.union r s).isSome
  covers : ∀ p, r.contains p = true ∨ s.contains p = true → (r.union s).contains p = true

/-- All of it is within the range of the coordinates. -/
structure Expressible (doc : WorkspaceDoc) (current : MachineId) (target cursor : Point)
    (dx dy : Int) (r s : Rect) : Prop where
  reach : doc.InReach current target
  motion : (⟨cursor.x + dx, cursor.y + dy⟩ : Point).InRange
  first : r.Fits
  second : s.Fits
  both : (r.box.join s.box).Small

theorem Checked.newTarget_isSome {cursor : Point} {dx dy : Int} :
    (Checked.newTarget cursor dx dy).isSome ↔
      (⟨cursor.x + dx, cursor.y + dy⟩ : Point).InRange := by
  unfold Checked.newTarget checkI32 Point.InRange
  by_cases hx : i32Min ≤ cursor.x + dx ∧ cursor.x + dx ≤ i32Max
  · by_cases hy : i32Min ≤ cursor.y + dy ∧ cursor.y + dy ≤ i32Max <;> simp [hx, hy]
  · simp [hx]

theorem Rect.covers_of_joins {r s : Rect} (hr : r.Fits) (hs : s.Fits) (h : r.Joins s) {p : Point}
    (hp : r.contains p = true ∨ s.contains p = true) : (r.union s).contains p = true := by
  obtain ⟨hx, hy, -⟩ := Rect.union_exact hr hs h
  obtain ⟨hmaxX, hmaxY⟩ := Rect.union_maxX hr hs h
  simp only [Rect.contains, Bool.and_eq_true, decide_eq_true_eq, hx, hy, hmaxX, hmaxY] at hp ⊢
  omega

/-- The geometry never wraps exactly where all of it can be expressed. -/
theorem geometry_never_wraps_iff {doc : WorkspaceDoc} {online : Finset MachineId}
    {current : MachineId} {target cursor : Point} {dx dy : Int} {r s : Rect}
    (hr : (⟨r.x, r.y⟩ : Point).InRange) (hs : (⟨s.x, s.y⟩ : Point).InRange) :
    NeverWraps doc online current target cursor dx dy r s ↔
      Expressible doc current target cursor dx dy r s := by
  constructor
  · intro h
    have hdoc : ∀ m ∈ doc.machinesPresent, m.Expressible := by
      intro m hm
      obtain ⟨b, hb, hedges⟩ := h.bounds m hm
      exact MachineRecord.expressible_of_bounds hb hedges
    obtain ⟨v, hv⟩ := Option.isSome_iff_exists.mp h.resolves
    obtain ⟨hrf, hsf, hsmall⟩ := (Checked.union_isSome hr hs).mp h.joins
    exact
      { reach := Checked.inReach_of_resolveCursor hdoc hv
        motion := Checked.newTarget_isSome.mp h.moves
        first := hrf
        second := hsf
        both := hsmall }
  · intro h
    have hjoins := (Rect.joins_iff h.first h.second).mp h.both
    exact
      { bounds := fun m hm => by
          obtain ⟨hbounds, hfits, -⟩ := (h.reach.machines m hm).bounds
          refine ⟨m.bounds, hbounds, fun b hb => ?_⟩
          have hfit := hfits b hb
          exact ⟨Checked.maxX_isSome.mpr hfit.wide, Checked.maxY_isSome.mpr hfit.high⟩
        resolves := by
          rw [Checked.resolveCursor_eq h.reach online]
          rfl
        moves := Checked.newTarget_isSome.mpr h.motion
        joins := (Checked.union_isSome hr hs).mpr ⟨h.first, h.second, h.both⟩
        covers := fun p => Rect.covers_of_joins h.first h.second hjoins }

/-- A push of thirty-one pixels to the right, off the first machine of the row. -/
theorem geometry_never_wraps_row :
    NeverWraps Layout.row {1, 3, 4} 1 ⟨130, 50⟩ ⟨99, 50⟩ 31 0 ⟨0, 0, 100, 100⟩
      ⟨100, 0, 100, 100⟩ := by
  refine (geometry_never_wraps_iff (by decide) (by decide)).mpr ?_
  have hbox : ∀ m b, Layout.row.machine 1 = some m → m.box = some b →
      b = (⟨0, 0, 100, 100⟩ : Box) := by
    have hown : (Layout.row.machine 1).bind MachineRecord.box = some ⟨0, 0, 100, 100⟩ := by
      decide +kernel
    intro m b hm hb
    rw [hm, Option.bind_some, hb] at hown
    exact Option.some.inj hown
  have hheading : heading ((⟨0, 0, 100, 100⟩ : Box).clamp ⟨130, 50⟩) ⟨130, 50⟩ = some .right := by
    decide
  refine ⟨⟨by decide +kernel, fun m b hm hb => ?_, fun m b d hm hb hd => ?_⟩, by decide, by decide,
    by decide, by decide⟩
  · obtain rfl := hbox m b hm hb
    unfold Layout.Reaches
    decide
  · obtain rfl := hbox m b hm hb
    obtain rfl := Option.some.inj (hheading.symm.trans hd)
    decide +kernel

/-- The longest motion overflows the target, and a push that far the way back; the widest display
changes the sign of its width; and the box around the two far corners covers neither. -/
theorem geometry_wraps :
    Checked.newTarget ⟨99, 50⟩ i32Max 0 = none ∧
      Checked.resolveCursor Layout.row {1, 2, 3, 4} 1 ⟨i32Min, 50⟩ = none ∧
      Checked.maxX ⟨0, 0, 4294967295, 100⟩ = none ∧
      (⟨i32Min, 0, 1, 1⟩ : Rect).contains ⟨i32Min, 0⟩ = true ∧
      ((⟨i32Min, 0, 1, 1⟩ : Rect).union ⟨i32Max - 1, 0, 1, 1⟩).contains ⟨i32Min, 0⟩ = false ∧
      ¬ NeverWraps Layout.row {1, 2, 3, 4} 1 ⟨130, 50⟩ ⟨99, 50⟩ 31 0 ⟨i32Min, 0, 1, 1⟩
        ⟨i32Max - 1, 0, 1, 1⟩ := by
  have huncovered : ((⟨i32Min, 0, 1, 1⟩ : Rect).union ⟨i32Max - 1, 0, 1, 1⟩).contains ⟨i32Min, 0⟩ =
      false := by decide
  refine ⟨by decide, by decide +kernel, by decide, by decide, huncovered, fun h => ?_⟩
  exact absurd (h.covers ⟨i32Min, 0⟩ (.inl (by decide))) (by rw [huncovered]; decide)

end InputShare

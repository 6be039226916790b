import InputShare.Core.Boxes
import InputShare.Core.Crossing

/-! The screens of a machine and their bounding box. Routing works on the box, so the pointer is
kept on real screens exactly when the screens of every machine fill its box. -/
namespace InputShare

def Rect.Near (r s : Rect) : Prop :=
  (r.x + r.width - s.x ≤ i32Max ∧ s.x + s.width - r.x ≤ i32Max) ∧
    r.y + r.height - s.y ≤ i32Max ∧ s.y + s.height - r.y ≤ i32Max

instance (r s : Rect) : Decidable (r.Near s) := inferInstanceAs (Decidable ((_ ∧ _) ∧ _ ∧ _))

theorem Rect.union_spec {r s : Rect} (hr : r.Plain) (hs : s.Plain) (h : r.Near s) :
    (r.union s).Plain ∧ (r.union s).x = min r.x s.x ∧ (r.union s).y = min r.y s.y ∧
      (r.union s).x + (r.union s).width = max (r.x + r.width) (s.x + s.width) ∧
      (r.union s).y + (r.union s).height = max (r.y + r.height) (s.y + s.height) := by
  have hjoins : r.Joins s := by
    unfold Rect.Joins
    rwa [hr.maxX, hr.maxY, hs.maxX, hs.maxY]
  obtain ⟨hx, hy, hwidth, hheight⟩ := Rect.union_exact hr.fits hs.fits hjoins
  rw [hr.maxX, hs.maxX] at hwidth
  rw [hr.maxY, hs.maxY] at hheight
  obtain ⟨hw, hh, hl, ht, hr', hb, hwide, hhigh⟩ := id hr
  obtain ⟨kw, kh, kl, kt, kr, kb, kwide, khigh⟩ := id hs
  obtain ⟨⟨h₁, h₂⟩, h₃, h₄⟩ := h
  refine ⟨⟨?_, ?_, ?_, ?_, ?_, ?_, ?_, ?_⟩, hx, hy, ?_, ?_⟩ <;> omega

def MachineRecord.screens (m : MachineRecord) : List Rect :=
  m.displays.map fun d => d.rect.translate m.position

def MachineRecord.OnScreen (m : MachineRecord) (p : Point) : Prop :=
  ∃ s ∈ m.screens, s.contains p = true

instance (m : MachineRecord) (p : Point) : Decidable (m.OnScreen p) :=
  inferInstanceAs (Decidable (∃ s ∈ m.screens, s.contains p = true))

/-- The screens are not empty, and they and the box around them are clear of the limits. -/
def MachineRecord.Clear (m : MachineRecord) : Prop :=
  ∀ s ∈ m.screens, s.Plain ∧ ∀ t ∈ m.screens, s.Near t

instance (m : MachineRecord) : Decidable m.Clear :=
  inferInstanceAs (Decidable (∀ s ∈ m.screens, s.Plain ∧ ∀ t ∈ m.screens, s.Near t))

/-- The screens leave no gap in their bounding box. -/
def MachineRecord.Fills (m : MachineRecord) : Prop :=
  ∀ b, m.bounds = some b → ∀ z, b.contains z = true → m.OnScreen z

theorem plain_foldl {rest : List Rect} {r : Rect} (hr : r.Plain) (hrest : ∀ s ∈ rest, s.Plain)
    (hnear : ∀ s ∈ rest, r.Near s) (hall : ∀ s ∈ rest, ∀ t ∈ rest, s.Near t) :
    (rest.foldl Rect.union r).Plain := by
  induction rest generalizing r with
  | nil => exact hr
  | cons s rest ih =>
    obtain ⟨hplain, hx, hy, hright, hbottom⟩ :=
      Rect.union_spec hr (hrest s List.mem_cons_self) (hnear s List.mem_cons_self)
    refine ih hplain (fun t ht => hrest t (List.mem_cons_of_mem _ ht)) (fun t ht => ?_)
      fun t ht u hu => hall t (List.mem_cons_of_mem _ ht) u (List.mem_cons_of_mem _ hu)
    obtain ⟨⟨h₁, h₂⟩, h₃, h₄⟩ := hnear t (List.mem_cons_of_mem _ ht)
    obtain ⟨⟨k₁, k₂⟩, k₃, k₄⟩ := hall s List.mem_cons_self t (List.mem_cons_of_mem _ ht)
    exact ⟨⟨by omega, by omega⟩, by omega, by omega⟩

theorem MachineRecord.bounds_eq (m : MachineRecord) :
    m.bounds = match m.screens with
      | [] => none
      | r :: rs => some (rs.foldl Rect.union r) := rfl

theorem MachineRecord.Clear.plain {m : MachineRecord} (h : m.Clear) {b : Rect}
    (hb : m.bounds = some b) : b.Plain := by
  rw [bounds_eq] at hb
  unfold Clear at h
  cases hs : m.screens with
  | nil => simp [hs] at hb
  | cons r rest =>
    rw [hs] at h
    simp only [hs, Option.some.injEq] at hb
    subst hb
    refine plain_foldl (h r List.mem_cons_self).1
      (fun s hs => (h s (List.mem_cons_of_mem _ hs)).1)
      (fun s hs => (h r List.mem_cons_self).2 s (List.mem_cons_of_mem _ hs))
      fun s hs t ht => (h s (List.mem_cons_of_mem _ hs)).2 t (List.mem_cons_of_mem _ ht)

theorem MachineRecord.bounds_of_displays {m : MachineRecord} (h : m.displays ≠ []) :
    ∃ b, m.bounds = some b := by
  rw [bounds_eq, screens]
  cases hd : m.displays with
  | nil => exact absurd hd h
  | cons d rest => exact ⟨_, rfl⟩

namespace Layout

/-- The pointer is placed on a screen of the machine it is then on, if that has any. -/
def OnRealScreen (doc : WorkspaceDoc) (current : MachineId) : Resolution → Prop
  | .move id p => ∃ m ∈ doc.machinesPresent, m.id = id ∧ m.OnScreen p
  | .stay p => ∀ m, doc.machine current = some m → m.displays ≠ [] → m.OnScreen p

/-- Every pointer is placed on a real screen exactly when the screens of every machine fill the
box around them. -/
theorem onRealScreen_iff {doc : WorkspaceDoc} (hclear : ∀ m ∈ doc.machinesPresent, m.Clear) :
    (∀ online current target,
        OnRealScreen doc current (resolveCursor doc online current target)) ↔
      ∀ m ∈ doc.machinesPresent, m.Fills := by
  constructor
  · intro h m hm b hb z hz
    obtain ⟨id, hid⟩ := WorkspaceDoc.mem_machinesPresent.mp hm
    -- a pointer already in the box stays where it is
    have hstay : resolveCursor doc ∅ id z = .stay z := by
      simp [resolveCursor, hid, hb, hz]
    have hplaced := h ∅ id z
    rw [hstay] at hplaced
    refine hplaced m hid fun hnone => ?_
    rw [MachineRecord.bounds_eq, MachineRecord.screens, hnone] at hb
    cases hb
  · intro h online current target
    cases hres : resolveCursor doc online current target with
    | stay p =>
      intro m hm hdisplays
      have hmem := WorkspaceDoc.mem_machinesPresent.mpr ⟨current, hm⟩
      obtain ⟨b, hb⟩ := MachineRecord.bounds_of_displays hdisplays
      have hown : doc.boundsOf current = some b := by rw [WorkspaceDoc.boundsOf, hm]; exact hb
      exact h m hmem b hb p (stay_contains ((hclear m hmem).plain hb) hown hres)
    | move id p =>
      obtain ⟨own, d, c, hcross⟩ := crosses_of_move hres
      obtain ⟨m, hm, -, hid, hb, hdistance⟩ := mem_candidatesAlong.mp (choose_mem hcross.chosen).1
      have hplain := (hclear m hm).plain hb
      obtain ⟨-, -, hin⟩ := entryPoint_spec hplain (spans_of_distanceTo hplain hdistance)
      rw [hcross.point] at hin
      exact ⟨m, hm, hid.symm.trans hcross.machine, h m hm _ hb p hin⟩

theorem fills_of_single {m : MachineRecord} {s : Rect} (h : m.screens = [s]) : m.Fills := by
  intro b hb z hz
  rw [MachineRecord.bounds_eq, h] at hb
  obtain rfl := Option.some.inj hb
  exact ⟨s, by rw [h]; exact List.mem_cons_self, hz⟩

theorem onRealScreen_row :
    resolveCursor row {1, 3, 4} 1 ⟨130, 50⟩ = .move 3 ⟨200, 50⟩ ∧
      OnRealScreen row 1 (resolveCursor row {1, 3, 4} 1 ⟨130, 50⟩) := by
  have hsingle : ∀ m ∈ row.machinesPresent,
      m.screens = [⟨m.position.x, m.position.y, 100, 100⟩] := by
    decide +kernel
  exact ⟨by decide +kernel, (onRealScreen_iff (by decide +kernel)).mpr
    (fun m hm => fills_of_single (hsingle m hm)) {1, 3, 4} 1 ⟨130, 50⟩⟩

/-- Two screens that meet at a corner, and another machine to their right. -/
def bench : WorkspaceDoc :=
  ((WorkspaceDoc.create 7 0 "Bench" { studio with
      displays := [⟨"a", "A", 0, 0, 100, 100, 1065353216, true⟩,
        ⟨"b", "B", 100, 100, 100, 100, 1065353216, false⟩] }).upsertMachine 1 0
    (screenAt 2 ⟨200, 0⟩)).1

/-- The gap beside the first screen is a place to stay, and where the pointer enters from the
right. -/
theorem pointer_in_gap :
    (∀ m ∈ bench.machinesPresent, m.Clear) ∧
      resolveCursor bench {1, 2} 1 ⟨150, 50⟩ = .stay ⟨150, 50⟩ ∧
      ¬ OnRealScreen bench 1 (resolveCursor bench {1, 2} 1 ⟨150, 50⟩) ∧
      resolveCursor bench {1, 2} 2 ⟨190, 50⟩ = .move 1 ⟨199, 50⟩ ∧
      ¬ OnRealScreen bench 2 (resolveCursor bench {1, 2} 2 ⟨190, 50⟩) := by
  have hstay : resolveCursor bench {1, 2} 1 ⟨150, 50⟩ = .stay ⟨150, 50⟩ := by decide +kernel
  have hmove : resolveCursor bench {1, 2} 2 ⟨190, 50⟩ = .move 1 ⟨199, 50⟩ := by decide +kernel
  have hgap : ∀ m ∈ bench.machinesPresent, m.id = 1 →
      ¬ m.OnScreen ⟨150, 50⟩ ∧ ¬ m.OnScreen ⟨199, 50⟩ := by decide +kernel
  refine ⟨by decide +kernel, hstay, fun h => ?_, hmove, fun h => ?_⟩
  · rw [hstay] at h
    obtain ⟨m, hm, hid, hdisplays⟩ : ∃ m ∈ bench.machinesPresent,
        bench.machine 1 = some m ∧ m.displays ≠ [] ∧ m.id = 1 := by decide +kernel
    exact (hgap m hm hdisplays.2).1 (h m hid hdisplays.1)
  · rw [hmove] at h
    obtain ⟨m, hm, hid, hon⟩ := h
    exact (hgap m hm hid).2 hon

end Layout
end InputShare

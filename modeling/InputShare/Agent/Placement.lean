import InputShare.Agent.Edits
import InputShare.Core.Boxes
import InputShare.Core.Crossing

/-! Where machines are put: by the person who drags one, and by the agent that admits one before
it knows its screens. -/
namespace InputShare
open Rect

namespace MachineRecord

/-- The record put where the corner of its box would be the given one, in exact numbers. -/
def landing (m : MachineRecord) (x y : Int) : MachineRecord :=
  match m.bounds with
  | some b => { m with position := ⟨x - (b.x - m.position.x), y - (b.y - m.position.y)⟩ }
  | none => m

/-- No coordinate of the screens, or of the box around them, leaves the range. -/
structure Fits (m : MachineRecord) : Prop where
  position : m.position.InRange
  displays : ∀ d ∈ m.displays, d.rect.Fits ∧ (d.rect.shift m.position).Inside
  joins : ∀ d ∈ m.displays, ∀ e ∈ m.displays,
    (d.rect.shift m.position).Joins (e.rect.shift m.position)

end MachineRecord

theorem Rect.translate_eq {r : Rect} {p : Point} (h : (r.shift p).Inside) :
    r.translate p = r.shift p := by
  obtain ⟨⟨h₁, h₂⟩, h₃, h₄⟩ := h.corner
  simp only [shift_x, shift_y] at h₁ h₂ h₃ h₄
  rw [translate, satI32_eq h₁ h₂, satI32_eq h₃ h₄]
  rfl

theorem Rect.hull_corner (r : Rect) (rest : List Rect) :
    (∃ s ∈ r :: rest, (hull r rest).x = s.x) ∧ ∃ s ∈ r :: rest, (hull r rest).y = s.y := by
  induction rest generalizing r with
  | nil => exact ⟨⟨r, by simp, rfl⟩, r, by simp, rfl⟩
  | cons s rest ih =>
    obtain ⟨⟨t, ht, hx⟩, u, hu, hy⟩ := ih (r.union s)
    have hmin : (r.union s).x = min r.x s.x ∧ (r.union s).y = min r.y s.y := ⟨rfl, rfl⟩
    constructor
    · obtain rfl | ht := List.mem_cons.mp ht
      · obtain h | h := min_choice r.x s.x
        · exact ⟨r, by simp, hx.trans (hmin.1.trans h)⟩
        · exact ⟨s, by simp, hx.trans (hmin.1.trans h)⟩
      · exact ⟨t, by simp [ht], hx⟩
    · obtain rfl | hu := List.mem_cons.mp hu
      · obtain h | h := min_choice r.y s.y
        · exact ⟨r, by simp, hy.trans (hmin.2.trans h)⟩
        · exact ⟨s, by simp, hy.trans (hmin.2.trans h)⟩
      · exact ⟨u, by simp [hu], hy⟩

namespace MachineRecord

theorem bounds_eq_hull {m : MachineRecord} {d : DisplayInfo} {ds : List DisplayInfo}
    (hds : m.displays = d :: ds) (h : m.Fits) :
    m.bounds =
      some (hull (d.rect.shift m.position) (ds.map fun e => e.rect.shift m.position)) := by
  have hmap : m.displays.map (fun e => e.rect.translate m.position) =
      m.displays.map fun e => e.rect.shift m.position :=
    List.map_congr_left fun e he => translate_eq (h.displays e he).2
  rw [bounds]
  simp only [hmap]
  rw [hds]
  rfl

theorem corner_of_fits {m : MachineRecord} {b : Rect} (hd : m.displays ≠ []) (h : m.Fits)
    (hb : m.bounds = some b) :
    (∃ d ∈ m.displays, b.x = m.position.x + d.x) ∧
      ∃ d ∈ m.displays, b.y = m.position.y + d.y := by
  obtain ⟨d, ds, hds⟩ := List.exists_cons_of_ne_nil hd
  obtain rfl := Option.some.inj (hb.symm.trans (bounds_eq_hull hds h))
  obtain ⟨⟨s, hs, hx⟩, t, ht, hy⟩ :=
    hull_corner (d.rect.shift m.position) (ds.map fun e => e.rect.shift m.position)
  have hmem : ∀ r ∈ d.rect.shift m.position :: ds.map (fun e => e.rect.shift m.position),
      ∃ e ∈ m.displays, r = e.rect.shift m.position := by
    intro r hr
    rw [← List.map_cons (f := fun e : DisplayInfo => e.rect.shift m.position), ← hds] at hr
    obtain ⟨e, he, rfl⟩ := List.mem_map.mp hr
    exact ⟨e, he, rfl⟩
  constructor
  · obtain ⟨e, he, rfl⟩ := hmem s hs
    exact ⟨e, he, by rw [hx, shift_x, add_comm]; rfl⟩
  · obtain ⟨e, he, rfl⟩ := hmem t ht
    exact ⟨e, he, by rw [hy, shift_y, add_comm]; rfl⟩

theorem bounds_moved {m : MachineRecord} {d : DisplayInfo} {ds : List DisplayInfo} {p : Point}
    (hds : m.displays = d :: ds) (h : m.Fits)
    (hp : ({ m with position := p } : MachineRecord).Fits) :
    ({ m with position := p } : MachineRecord).bounds =
      some ((hull (d.rect.shift m.position) (ds.map fun e => e.rect.shift m.position)).shift
        ⟨p.x - m.position.x, p.y - m.position.y⟩) := by
  have hmove : ∀ e : DisplayInfo, e.rect.shift p =
      (e.rect.shift m.position).shift ⟨p.x - m.position.x, p.y - m.position.y⟩ := fun e =>
    ext_int (by simp only [shift_x]; omega) (by simp only [shift_y]; omega) rfl rfl
  have hin : ∀ e ∈ m.displays, (e.rect.shift m.position).Inside ∧
      ((e.rect.shift m.position).shift ⟨p.x - m.position.x, p.y - m.position.y⟩).Inside :=
    fun e he => ⟨(h.displays e he).2, by rw [← hmove]; exact (hp.displays e he).2⟩
  have htail : ∀ e ∈ ds, e ∈ m.displays := fun e he => hds ▸ List.mem_cons_of_mem _ he
  have hhead : d ∈ m.displays := by rw [hds]; exact List.mem_cons_self
  have hthere : ({ m with position := p } : MachineRecord).displays = d :: ds := hds
  rw [bounds_eq_hull hthere hp, ← hull_shift _ (hin d hhead).1 (hin d hhead).2, List.map_map,
    hmove d]
  · refine congrArg (fun l => some (hull _ l)) (List.map_congr_left fun e _ => hmove e)
  · intro s hs
    obtain ⟨e, he, rfl⟩ := List.mem_map.mp hs
    exact hin e (htail e he)
  · intro s hs
    obtain ⟨e, he, rfl⟩ := List.mem_map.mp hs
    exact h.joins d hhead e (htail e he)
  · intro s hs t ht
    obtain ⟨e, he, rfl⟩ := List.mem_map.mp hs
    obtain ⟨f, hf, rfl⟩ := List.mem_map.mp ht
    exact h.joins e (htail e he) f (htail f hf)

theorem bounds_of_fits {m : MachineRecord} (hd : m.displays ≠ []) (h : m.Fits) :
    ∃ b, m.bounds = some b ∧
      (∀ p : Point, ({ m with position := p } : MachineRecord).Fits →
        ({ m with position := p } : MachineRecord).bounds =
          some (b.shift ⟨p.x - m.position.x, p.y - m.position.y⟩)) ∧
      (∃ d ∈ m.displays, b.x = m.position.x + d.x) ∧
      ∃ d ∈ m.displays, b.y = m.position.y + d.y := by
  obtain ⟨d, ds, hds⟩ := List.exists_cons_of_ne_nil hd
  have hown := bounds_eq_hull hds h
  exact ⟨_, hown, fun p hp => bounds_moved hds h hp, corner_of_fits hd h hown⟩

variable {m : MachineRecord} {x y : Int}

theorem landing_eq {b : Rect} (hb : m.bounds = some b) (x y : Int) :
    m.landing x y =
      { m with position := ⟨x - (b.x - m.position.x), y - (b.y - m.position.y)⟩ } := by
  rw [landing, hb]

theorem moveTo_eq (hd : m.displays ≠ []) (hfit : m.Fits) (hland : (m.landing x y).Fits) :
    m.moveTo x y = m.landing x y := by
  obtain ⟨b, hb, -, ⟨d, hdm, hx⟩, e, hem, hy⟩ := bounds_of_fits hd hfit
  obtain ⟨⟨h₁, h₂⟩, -⟩ := (hfit.displays d hdm).1.corner
  obtain ⟨-, h₃, h₄⟩ := (hfit.displays e hem).1.corner
  have hxd : b.x - m.position.x = d.x := by rw [hx]; omega
  have hye : b.y - m.position.y = e.y := by rw [hy]; omega
  have hposition := hland.position
  rw [landing_eq hb] at hposition ⊢
  obtain ⟨⟨k₁, k₂⟩, k₃, k₄⟩ := hposition
  simp only [hxd, hye] at k₁ k₂ k₃ k₄ ⊢
  rw [moveTo, hb]
  simp only [hxd, hye]
  rw [wrapI32_eq (n := d.x) h₁ h₂, wrapI32_eq (n := e.y) h₃ h₄, wrapI32_eq k₁ k₂,
    wrapI32_eq k₃ k₄]

theorem landing_displays (m : MachineRecord) (x y : Int) :
    (m.landing x y).displays = m.displays ∧ (m.landing x y).id = m.id ∧
      m.landing x y = { m with position := (m.landing x y).position } := by
  unfold landing
  cases m.bounds <;> exact ⟨rfl, rfl, rfl⟩

theorem landing_bounds (hd : m.displays ≠ []) (hfit : m.Fits) (hland : (m.landing x y).Fits) :
    ∃ b, m.bounds = some b ∧ (m.landing x y).bounds = some ⟨x, y, b.width, b.height⟩ := by
  obtain ⟨b, hb, hmove, -⟩ := bounds_of_fits hd hfit
  refine ⟨b, hb, ?_⟩
  rw [landing_eq hb] at hland ⊢
  rw [hmove _ hland]
  exact congrArg some (ext_int (by simp only [shift_x]; omega) (by simp only [shift_y]; omega)
    rfl rfl)

theorem landing_landing (hd : m.displays ≠ []) (hfit : m.Fits) (hland : (m.landing x y).Fits) :
    (m.landing x y).landing x y = m.landing x y := by
  obtain ⟨b, -, hb⟩ := landing_bounds hd hfit hland
  have hcorner : (⟨x - (x - (m.landing x y).position.x),
      y - (y - (m.landing x y).position.y)⟩ : Point) = (m.landing x y).position := by
    rw [sub_sub_cancel, sub_sub_cancel]
  rw [landing_eq hb, hcorner]

end MachineRecord

theorem State.run_move {s : State} {id : MachineId} {m : MachineRecord} (me : MachineId) (now : ℕ)
    (hm : s.machine id = some m) (x y : Int) :
    ∃ t, s.run me now (.editMachine id (.move x y)) = .ok t ∧
      t.machine m.id = some (m.moveTo x y) := by
  obtain ⟨d, hd⟩ : ∃ d, s.doc = some d := by
    cases hd : s.doc with
    | none => simp [State.machine, hd] at hm
    | some d => exact ⟨d, rfl⟩
  refine ⟨{ s with doc := some (d.upsertMachine me now (m.moveTo x y)).1 }, ?_, ?_⟩
  · simp only [State.run, Command.read, hm, State.upsertMachine, State.mutate, hd]
    rfl
  · simp [State.machine, WorkspaceDoc.machine, WorkspaceDoc.upsertMachine, MachineRecord.moveTo]

theorem MachineRecord.landing_screens {m : MachineRecord} {x y : Int} (hfit : m.Fits)
    (hland : (m.landing x y).Fits) :
    ∃ v : Point, (m.landing x y).displays.map (fun d => d.rect.translate (m.landing x y).position) =
      (m.displays.map fun d => d.rect.translate m.position).map (shift v) := by
  obtain ⟨hdisplays, -, -⟩ := m.landing_displays x y
  refine ⟨⟨(m.landing x y).position.x - m.position.x, (m.landing x y).position.y - m.position.y⟩,
    ?_⟩
  rw [hdisplays, List.map_map]
  refine List.map_congr_left fun d hd => ?_
  rw [Function.comp_apply, translate_eq (hfit.displays d hd).2,
    translate_eq (hland.displays d (by rwa [hdisplays])).2]
  exact ext_int (by simp only [shift_x]; omega) (by simp only [shift_y]; omega) rfl rfl

/-- Dropped somewhere, a machine is there: the corner of its box is that point, the box is as
large and the screens lie as before, and to drop it there again changes nothing. -/
theorem move_machine_lands {s : State} {id : MachineId} {m : MachineRecord} {x y : Int}
    (hm : s.machine id = some m) (hd : m.displays ≠ []) (hfit : m.Fits)
    (hland : (m.landing x y).Fits) (me : MachineId) (now : ℕ) :
    ∃ t r b v, s.run me now (.editMachine id (.move x y)) = .ok t ∧ t.machine m.id = some r ∧
      m.bounds = some b ∧ r.bounds = some ⟨x, y, b.width, b.height⟩ ∧
      r = { m with position := r.position } ∧
      r.displays.map (fun d => d.rect.translate r.position) =
        (m.displays.map fun d => d.rect.translate m.position).map (shift v) ∧
      ∀ later, ∃ u, t.run me later (.editMachine m.id (.move x y)) = .ok u ∧
        u.machine m.id = some r := by
  obtain ⟨t, ht, htm⟩ := State.run_move me now hm x y
  obtain ⟨b, hb, hbounds⟩ := MachineRecord.landing_bounds hd hfit hland
  obtain ⟨v, hv⟩ := MachineRecord.landing_screens hfit hland
  obtain ⟨hdisplays, hid, hrest⟩ := m.landing_displays x y
  rw [MachineRecord.moveTo_eq hd hfit hland] at htm
  refine ⟨t, m.landing x y, b, v, ht, htm, hb, hbounds, hrest, hv, fun later => ?_⟩
  obtain ⟨u, hu, hum⟩ := State.run_move me later htm x y
  have hagain := MachineRecord.landing_landing hd hfit hland
  rw [hid, MachineRecord.moveTo_eq (by rwa [hdisplays]) hland (by rwa [hagain]), hagain] at hum
  exact ⟨u, hu, hum⟩

/-- A machine with a screen left of its own origin. -/
def desktop : MachineRecord :=
  { studio with
    displays := [⟨"a", "A", 0, 0, 1920, 1080, 1065353216, true⟩,
      ⟨"b", "B", -1280, 56, 1280, 1024, 1065353216, false⟩] }

theorem move_machine_lands_desktop : ∃ t r,
    (State.ofDoc (.create 7 0 "Workspace" desktop)).run 1 0 (.editMachine 1 (.move 100 (-200))) =
      .ok t ∧ t.machine 1 = some r ∧ r.displays = desktop.displays ∧
      r.bounds = some ⟨100, -200, 3200, 1080⟩ := by
  have hm : (State.ofDoc (.create 7 0 "Workspace" desktop)).machine 1 = some desktop := by
    decide +kernel
  have hb : desktop.bounds = some ⟨-1280, 0, 3200, 1080⟩ := by decide
  obtain ⟨t, r, b, v, ht, hr, hb', hbounds, hrest, -⟩ := move_machine_lands (x := 100) (y := -200)
    hm (by decide) ⟨by decide, by decide, by decide⟩ ⟨by decide, by decide, by decide⟩ 1 0
  obtain rfl := Option.some.inj (hb'.symm.trans hb)
  exact ⟨t, r, ht, hr, by rw [hrest], hbounds⟩

namespace Placement
open Runs

def placed (s : State) : List (MachineId × Rect) :=
  match s.doc with
  | none => []
  | some d => d.machines.toList.filterMap fun (id, slot) =>
    (slot.state.record.bind MachineRecord.bounds).map fun b => (id, b)

def Apart (r s : Rect) : Prop := ∀ p, r.contains p = true → s.contains p = true → False

def Disjoint (s : State) : Prop := ∀ x ∈ placed s, ∀ y ∈ placed s, x.1 ≠ y.1 → Apart x.2 y.2

def Within (r s : Rect) : Prop :=
  (s.x ≤ r.x ∧ r.maxX ≤ s.maxX) ∧ s.y ≤ r.y ∧ r.maxY ≤ s.maxY

instance (r s : Rect) : Decidable (Within r s) := inferInstanceAs (Decidable ((_ ∧ _) ∧ _ ∧ _))

/-- What happens while nothing is dragged: machines are discovered, admitted, and publish their
screens. -/
inductive Action where
  | discover (now : ℕ) (c : Candidate)
  | pair (now : ℕ) (id : MachineId)
  | publish (now : ℕ) (id : MachineId) (displays : List DisplayInfo) (platform : Platform)

variable (me : MachineId)

def step (s : State) : Action → Option State
  | .discover now c =>
    some (s.onNetEvent now
      (.candidate c.machineId c.displayName c.identityKey none c.addr c.invitedUs))
  | .pair now id =>
    match s.pair me now id with
    | .ok (t, _) => some t
    | .error _ => some s
  | .publish now id displays platform =>
    match s.run id now (.publishLocalFacts displays platform) with
    | .ok t => some t
    | .error _ => some s

/-- Keeps a record of the machine that was admitted last. -/
def note (x : State × Option MachineId) : Action → Option MachineId
  | .pair _ id =>
    match x.1.doc, x.1.candidates[id]? with
    | some _, some c => some c.machineId
    | _, _ => x.2
  | _ => x.2

/-- A machine publishes screens only as long as none is admitted after it, and none of them left of
its origin; unless they take no space that it did not have before. -/
def TakesTurns (x : State × Option MachineId) : Action → Prop
  | .publish _ id displays platform => ∀ r ∈ x.1.machine id, r.id = id ∧
      ∀ b ∈ ((Edit.publish displays platform).apply r).bounds,
        (x.2 = some id ∧ ∀ d ∈ ((Edit.publish displays platform).apply r).displays, 0 ≤ d.x) ∨
          ∃ o ∈ r.bounds, Within b o
  | _ => True

instance (x : State × Option MachineId) : DecidablePred (TakesTurns x)
  | .discover .. | .pair .. => .isTrue trivial
  | .publish .. => inferInstanceAs (Decidable (∀ _ ∈ _, _ ∧ ∀ _ ∈ _, _ ∨ _))

theorem mem_placed {s : State} {id : MachineId} {b : Rect} :
    (id, b) ∈ placed s ↔ ∃ m, s.machine id = some m ∧ m.bounds = some b := by
  cases hd : s.doc with
  | none => simp [placed, hd, State.machine]
  | some d =>
    have hslot : s.machine id = (d.machines[id]?).bind fun slot => slot.state.record := by
      rw [State.machine_eq, State.slot, hd]
      rfl
    simp only [placed, hd, List.mem_filterMap, Prod.exists, Option.map_eq_some_iff,
      Option.bind_eq_some_iff, hslot]
    constructor
    · rintro ⟨id', slot, hmem, b', ⟨m, hm, hb⟩, he⟩
      obtain ⟨rfl, rfl⟩ := Prod.mk.inj he
      exact ⟨m, ⟨slot, Std.ExtTreeMap.mem_toList_iff_getElem?_eq_some.mp hmem, hm⟩, hb⟩
    · rintro ⟨m, ⟨slot, hslot, hm⟩, hb⟩
      exact ⟨id, slot, Std.ExtTreeMap.mem_toList_iff_getElem?_eq_some.mpr hslot, b, ⟨m, hm, hb⟩,
        rfl⟩

theorem Apart.symm {r s : Rect} (h : Apart r s) : Apart s r := fun p hs hr => h p hr hs

theorem apart_of_le {r s : Rect} (h : r.maxX ≤ s.x ∨ r.maxY ≤ s.y) : Apart r s := by
  intro p hr hs
  simp only [contains, Bool.and_eq_true, decide_eq_true_eq] at hr hs
  omega

theorem Within.contains {r s : Rect} (h : Within r s) {p : Point} (hp : r.contains p = true) :
    s.contains p = true := by
  obtain ⟨⟨h₁, h₂⟩, h₃, h₄⟩ := h
  simp only [Rect.contains, Bool.and_eq_true, decide_eq_true_eq] at hp ⊢
  omega

theorem bounds_left {m : MachineRecord} {b : Rect} (hb : m.bounds = some b) :
    ∃ d ∈ m.displays, b.x = satI32 (d.x + m.position.x) := by
  unfold MachineRecord.bounds at hb
  cases hs : m.displays.map (fun d => d.rect.translate m.position) with
  | nil => simp [hs] at hb
  | cons r rest =>
    simp only [hs, Option.some.injEq] at hb
    obtain ⟨⟨t, ht, hx⟩, -⟩ := hull_corner r rest
    rw [← hs] at ht
    obtain ⟨d, hd, rfl⟩ := List.mem_map.mp ht
    rw [← hb]
    exact ⟨d, hd, hx⟩

theorem le_satI32_origin {n o k : Int} (hn : n ≤ o) (hmax : n ≤ i32Max) (hk : 0 ≤ k) :
    n ≤ satI32 (k + o) := by
  unfold satI32
  omega

theorem mem_placed_upsert {s t : State} {by' : MachineId} {now : ℕ} {q : MachineRecord}
    {u : WorkspaceUpdate} (h : s.upsertMachine by' now q = .ok (t, u)) {x : MachineId × Rect}
    (hx : x ∈ placed t) : (x.1 = q.id ∧ q.bounds = some x.2) ∨ x.1 ≠ q.id ∧ x ∈ placed s := by
  obtain ⟨id, b⟩ := x
  obtain ⟨m, hm, hb⟩ := mem_placed.mp hx
  by_cases hid : id = q.id
  · subst hid
    obtain ⟨hnone, -⟩ | ⟨st, hst, hslot⟩ := Edits.slot_of_mutate by' h q.id
    · simp [Edits.replaces] at hnone
    · simp only [Edits.replaces, if_true, Option.some.injEq] at hst
      rw [State.machine_eq, hslot, ← hst] at hm
      obtain rfl := Option.some.inj hm
      exact .inl ⟨rfl, hb⟩
  · obtain ⟨-, hslot⟩ | ⟨st, hst, -⟩ := Edits.slot_of_mutate by' h id
    · refine .inr ⟨hid, mem_placed.mpr ⟨m, ?_, hb⟩⟩
      rwa [State.machine_eq, ← hslot, ← State.machine_eq]
    · simp [Edits.replaces, Ne.symm hid] at hst

theorem Disjoint.upsert {s t : State} {by' : MachineId} {now : ℕ} {q : MachineRecord}
    {u : WorkspaceUpdate} (h : Disjoint s) (hm : s.upsertMachine by' now q = .ok (t, u))
    (hq : ∀ b, q.bounds = some b → ∀ x ∈ placed s, x.1 ≠ q.id → Apart b x.2) : Disjoint t := by
  intro x hx y hy hne
  obtain ⟨hxq, hxb⟩ | ⟨hxq, hxs⟩ := mem_placed_upsert hm hx
  · obtain ⟨hyq, -⟩ | ⟨hyq, hys⟩ := mem_placed_upsert hm hy
    · exact absurd (hxq.trans hyq.symm) hne
    · exact hq x.2 hxb y hys hyq
  · obtain ⟨hyq, hyb⟩ | ⟨-, hys⟩ := mem_placed_upsert hm hy
    · exact (hq y.2 hyb x hxs hxq).symm
    · exact h x hxs y hys hne

theorem pair_unplaced {s t : State} {now : ℕ} {id : MachineId} {o : Option WorkspaceUpdate}
    (h : s.pair me now id = .ok (t, o)) :
    (s.doc = none ∧ t.doc = s.doc) ∨ ∃ d c q v u, s.doc = some d ∧ s.candidates[id]? = some c ∧
      q.id = c.machineId ∧ q.displays = [] ∧ q.position = s.freePosition ∧
      s.upsertMachine me now q = .ok (v, u) ∧ t.doc = v.doc := by
  unfold State.pair at h
  cases hc : s.candidates[id]? with
  | none => simp [hc] at h
  | some c =>
    cases hd : s.doc with
    | none =>
      simp only [hc, hd, Except.ok.injEq, Prod.mk.injEq] at h
      obtain ⟨rfl, rfl⟩ := h
      exact .inl ⟨rfl, rfl⟩
    | some doc =>
      simp only [hc, hd, bind, Except.bind, pure, Except.pure] at h
      split at h
      · cases h
      · rename_i p hp
        obtain ⟨v, u⟩ := p
        obtain ⟨rfl, rfl⟩ := Prod.mk.inj (Except.ok.inj h)
        exact .inr ⟨doc, c, _, v, u, rfl, rfl, rfl, rfl, rfl, hp, rfl⟩

theorem note_of_pair_error {s : State} {last : Option MachineId} {now : ℕ} {id : MachineId}
    {e : AgentError} (h : s.pair me now id = .error e) :
    note (s, last) (.pair now id) = last := by
  cases hc : s.candidates[id]? with
  | none => cases hd : s.doc <;> simp [note, hc, hd]
  | some c =>
    cases hd : s.doc with
    | none => simp [note, hd]
    | some d =>
      simp [State.pair, State.mutate, hc, hd, bind, Except.bind, pure, Except.pure] at h

theorem placed_congr {s t : State} (h : t.doc = s.doc) : placed t = placed s := by
  rw [placed, placed, h]

theorem Disjoint.congr {s t : State} (h : Disjoint s) (hdoc : t.doc = s.doc) : Disjoint t := by
  rwa [Disjoint, placed_congr hdoc]

theorem run_publish {s t : State} {id : MachineId} {now : ℕ} {displays : List DisplayInfo}
    {platform : Platform} (h : s.run id now (.publishLocalFacts displays platform) = .ok t) :
    t = s ∨ ∃ r u, s.machine id = some r ∧
      s.upsertMachine id now ((Edit.publish displays platform).apply r) = .ok (t, u) := by
  unfold State.run at h
  split at h
  · cases h
  · exact .inl (Except.ok.inj h).symm
  · rename_i p hp
    have hread := Command.read_some hp
    have hedit : p.edit = .publish displays platform := by
      simp only [Command.read] at hp
      split at hp
      · split at hp
        · cases hp
        · obtain rfl := Option.some.inj (Except.ok.inj hp)
          rfl
      · cases hp
    split at h
    · cases h
    · rename_i v u hm
      obtain rfl := Except.ok.inj h
      rw [PendingEdit.edited, hedit] at hm
      exact .inr ⟨p.record, u, hread, hm⟩

/-- The free position is right of everything that is placed. -/
theorem maxX_le_freePosition {s : State} {x : MachineId × Rect} (hx : x ∈ placed s) :
    x.2.maxX ≤ s.freePosition.x := by
  obtain ⟨id, b⟩ := x
  obtain ⟨m, hm, hb⟩ := mem_placed.mp hx
  cases hd : s.doc with
  | none => simp [State.machine, hd] at hm
  | some d =>
    have hmem : b.maxX ∈ (d.machinesPresent.filterMap MachineRecord.bounds).map Rect.maxX := by
      refine List.mem_map_of_mem (List.mem_filterMap.mpr ⟨m, ?_, hb⟩)
      exact WorkspaceDoc.mem_machinesPresent.mpr ⟨id, by rwa [State.machine, hd] at hm⟩
    simp only [State.freePosition, hd, Option.map_some, Option.getD_some]
    cases hmax : ((d.machinesPresent.filterMap MachineRecord.bounds).map Rect.maxX).max? with
    | none =>
      rw [List.max?_eq_none_iff] at hmax
      rw [hmax] at hmem
      cases hmem
    | some n => exact (List.max?_eq_some_iff.mp hmax).2 _ hmem

/-- Every other machine ends where machine `id` begins, or before. -/
def Rightmost (s : State) (id : MachineId) : Prop :=
  ∀ m, s.machine id = some m → ∀ x ∈ placed s, x.1 ≠ id → x.2.maxX ≤ m.position.x

/-- No two machines overlap, and the one admitted last is to the right of all others. -/
structure InRow (x : State × Option MachineId) : Prop where
  disjoint : Disjoint x.1
  last : ∀ id ∈ x.2, Rightmost x.1 id

theorem InRow.congr {s t : State} {last : Option MachineId} (h : InRow (s, last))
    (hdoc : t.doc = s.doc) : InRow (t, last) := by
  refine ⟨h.disjoint.congr hdoc, fun id hid m hm x hx hne => h.last id hid m ?_ x ?_ hne⟩
  · rwa [State.machine, hdoc] at hm
  · rwa [placed_congr hdoc] at hx

theorem machine_upsert {s t : State} {by' : MachineId} {now : ℕ} {q : MachineRecord}
    {u : WorkspaceUpdate} (h : s.upsertMachine by' now q = .ok (t, u)) (id : MachineId) :
    t.machine id = if id = q.id then some q else s.machine id := by
  obtain ⟨hnone, hslot⟩ | ⟨st, hst, hslot⟩ := Edits.slot_of_mutate by' h id
  · have hne : id ≠ q.id := fun he => by simp [Edits.replaces, he] at hnone
    rw [if_neg hne, State.machine_eq, hslot, ← State.machine_eq]
  · have he : q.id = id := by
      by_contra hne
      simp [Edits.replaces, hne] at hst
    simp only [Edits.replaces, he, if_true, Option.some.injEq] at hst
    rw [if_pos he.symm, State.machine_eq, hslot, ← hst]
    rfl

/-- The machine that is admitted goes to the right end. -/
theorem InRow.pair {s t : State} {last : Option MachineId} {now : ℕ} {q : MachineRecord}
    {u : WorkspaceUpdate} (h : InRow (s, last)) (hm : s.upsertMachine me now q = .ok (t, u))
    (hq : q.displays = []) (hposition : q.position = s.freePosition) : InRow (t, some q.id) := by
  have hnone : q.bounds = none := by rw [MachineRecord.bounds, hq]; rfl
  refine ⟨h.disjoint.upsert hm fun b hb => ?_, fun id hid m hid' => ?_⟩
  · rw [hnone] at hb
    cases hb
  obtain rfl := Option.some.inj hid
  rw [machine_upsert hm, if_pos rfl] at hid'
  obtain rfl := Option.some.inj hid'
  intro x hx hne
  obtain ⟨hsame, -⟩ | ⟨-, hold⟩ := mem_placed_upsert hm hx
  · exact absurd hsame hne
  · rw [hposition]
    exact maxX_le_freePosition hold

theorem InRow.publish {s t : State} {last : Option MachineId} {now : ℕ} {r q : MachineRecord}
    {by' : MachineId} {u : WorkspaceUpdate} (h : InRow (s, last))
    (hm : s.upsertMachine by' now q = .ok (t, u)) (hr : s.machine q.id = some r)
    (hposition : q.position = r.position)
    (hok : ∀ b ∈ q.bounds, (last = some q.id ∧ ∀ d ∈ q.displays, 0 ≤ d.x) ∨
      ∃ o ∈ r.bounds, Within b o) : InRow (t, last) := by
  constructor
  · refine h.disjoint.upsert hm fun b hb x hx hne => ?_
    obtain ⟨hlast, hd⟩ | ⟨o, ho, hin⟩ := hok b hb
    · obtain ⟨d, hdm, hbx⟩ := bounds_left hb
      refine (apart_of_le (.inl ?_)).symm
      rw [hbx, hposition]
      exact le_satI32_origin (h.last q.id hlast r hr x hx hne) (satI32_le _) (hd d hdm)
    · exact fun p hp => h.disjoint (q.id, o) (mem_placed.mpr ⟨r, hr, ho⟩) x hx (Ne.symm hne) p
        (hin.contains hp)
  · intro id hid m hmach x hx hne
    have hplace : ∃ m', s.machine id = some m' ∧ m'.position = m.position := by
      rw [machine_upsert hm] at hmach
      split_ifs at hmach with he
      · obtain rfl := Option.some.inj hmach
        exact ⟨r, he ▸ hr, hposition.symm⟩
      · exact ⟨m, hmach, rfl⟩
    obtain ⟨m', hm', hp⟩ := hplace
    rw [← hp]
    obtain ⟨hq, hb⟩ | ⟨-, hold⟩ := mem_placed_upsert hm hx
    · -- only the last machine may take more space than it had
      obtain ⟨hlast, -⟩ | ⟨o, ho, hin⟩ := hok x.2 hb
      · exact absurd (hq.trans (Option.some.inj (hlast.symm.trans hid))) hne
      · exact hin.1.2.trans (h.last id hid m' hm' (q.id, o) (mem_placed.mpr ⟨r, hr, ho⟩)
          fun he => hne (hq.trans he))
    · exact h.last id hid m' hm' x hold hne

theorem InRow.step {x y : State × Option MachineId} {a : Action} (h : InRow x)
    (hok : TakesTurns x a) (hs : recording (step me) note x a = some y) : InRow y := by
  obtain ⟨s, last⟩ := x
  obtain ⟨hs, hy⟩ := recording_eq_some.mp hs
  rw [← Prod.mk.eta (p := y), ← hy]
  cases a with
  | discover now c =>
    rw [← Option.some.inj hs]
    exact h.congr rfl
  | pair now id =>
    simp only [Placement.step] at hs
    split at hs
    · rename_i v o hp
      rw [← Option.some.inj hs]
      obtain ⟨hnone, hdoc⟩ | ⟨d, c, q, w, u, hd, hc, hid, hq, hposition, hm, hdoc⟩ :=
        pair_unplaced me hp
      · have hlast : note (s, last) (.pair now id) = last := by simp [note, hnone]
        rw [hlast]
        exact h.congr hdoc
      · have hlast : note (s, last) (.pair now id) = some q.id := by simp [note, hd, hc, hid]
        rw [hlast]
        exact (h.pair me hm hq hposition).congr hdoc
    · rename_i hp
      rw [← Option.some.inj hs, note_of_pair_error me hp]
      exact h
  | publish now id displays platform =>
    simp only [Placement.step] at hs
    split at hs
    · rename_i v hr
      rw [← Option.some.inj hs]
      obtain rfl | ⟨r, u, hread, hm⟩ := run_publish hr
      · exact h
      · obtain ⟨hid, hroom⟩ := hok r hread
        exact h.publish (r := r) hm (hid.symm ▸ hread) rfl (hid.symm ▸ hroom)
    · rw [← Option.some.inj hs]
      exact h

/-- As long as each machine publishes its screens before the next one is admitted, none of them left
of its origin, and takes no more space later on, no two machines ever cover the same point. -/
theorem machines_stay_disjoint {s t : State} {as : List Action} {last : Option MachineId}
    (h : Run (recording (step me) note) TakesTurns (s, none) as (t, last)) (hs : Disjoint s) :
    Disjoint t :=
  (h.invariant (I := InRow) (fun _ _ _ hi hok hst => hi.step me hok hst) ⟨hs, nofun⟩).disjoint

/-- A machine with one screen, and how others are discovered and report theirs. -/
def screenOf (x : Int) (width : ℕ) : List DisplayInfo :=
  [⟨"a", "A", x, 0, width, 100, 1065353216, true⟩]

def alone : State := .ofDoc (.create 7 0 "Workspace" { studio with displays := screenOf 0 100 })

def discovered (id : MachineId) : Action :=
  .discover 0 ⟨id, "Laptop", 10 + id, false, "", 0, false⟩

/-- Each of two machines publishes its screens before the next one is admitted, and one of them
loses a part of them later on. -/
theorem machines_stay_disjoint_row : ∃ t last,
    Run (recording (step 1) note) TakesTurns (alone, none)
      [discovered 2, .pair 0 2, .publish 0 2 (screenOf 0 300) .linux, discovered 3, .pair 0 3,
        .publish 0 3 (screenOf 10 200) .windows, .publish 0 2 (screenOf 50 200) .linux] (t, last) ∧
    placed t = [(1, ⟨0, 0, 100, 100⟩), (2, ⟨150, 0, 200, 100⟩), (3, ⟨410, 0, 200, 100⟩)] ∧
    Disjoint t := by
  obtain ⟨⟨t, last⟩, hrun, ht⟩ := run_of_replay (recording (step 1) note) TakesTurns (alone, none)
    [discovered 2, .pair 0 2, .publish 0 2 (screenOf 0 300) .linux, discovered 3, .pair 0 3,
      .publish 0 3 (screenOf 10 200) .windows, .publish 0 2 (screenOf 50 200) .linux]
    (fun x => placed x.1)
    (b := [(1, ⟨0, 0, 100, 100⟩), (2, ⟨150, 0, 200, 100⟩), (3, ⟨410, 0, 200, 100⟩)])
    (by decide +kernel)
  refine ⟨t, last, hrun, ht, machines_stay_disjoint 1 hrun ?_⟩
  have hone : placed alone = [(1, ⟨0, 0, 100, 100⟩)] := by decide +kernel
  intro x hx y hy hne
  rw [hone, List.mem_singleton] at hx hy
  exact absurd (by rw [hx, hy]) hne

/-- Two machines admitted before either has published are put on top of each other; and one with
a screen left of its origin covers the machine it was put beside. -/
theorem machines_overlap :
    Disjoint alone ∧
    (∃ t, Run (step 1) Any alone
      [discovered 2, .pair 0 2, discovered 3, .pair 0 3, .publish 0 2 (screenOf 0 300) .linux,
        .publish 0 3 (screenOf 0 200) .windows] t ∧ ¬ Disjoint t) ∧
    ∃ t, Run (step 1) Any alone
      [discovered 2, .pair 0 2, .publish 0 2 (screenOf (-50) 300) .linux] t ∧ ¬ Disjoint t := by
  have hone : placed alone = [(1, ⟨0, 0, 100, 100⟩)] := by decide +kernel
  refine ⟨?_, ?_, ?_⟩
  · intro x hx y hy hne
    rw [hone, List.mem_singleton] at hx hy
    exact absurd (by rw [hx, hy]) hne
  · obtain ⟨t, hrun, ht⟩ := run_of_replay (step 1) Any alone
      [discovered 2, .pair 0 2, discovered 3, .pair 0 3, .publish 0 2 (screenOf 0 300) .linux,
        .publish 0 3 (screenOf 0 200) .windows] placed
      (b := [(1, ⟨0, 0, 100, 100⟩), (2, ⟨100, 0, 300, 100⟩), (3, ⟨100, 0, 200, 100⟩)])
      (by decide +kernel)
    refine ⟨t, hrun, fun h => ?_⟩
    rw [Disjoint, ht] at h
    exact h (2, ⟨100, 0, 300, 100⟩) (by simp) (3, ⟨100, 0, 200, 100⟩) (by simp) (by decide)
      ⟨150, 50⟩ (by decide) (by decide)
  · obtain ⟨t, hrun, ht⟩ := run_of_replay (step 1) Any alone
      [discovered 2, .pair 0 2, .publish 0 2 (screenOf (-50) 300) .linux] placed
      (b := [(1, ⟨0, 0, 100, 100⟩), (2, ⟨50, 0, 300, 100⟩)]) (by decide +kernel)
    refine ⟨t, hrun, fun h => ?_⟩
    rw [Disjoint, ht] at h
    exact h (1, ⟨0, 0, 100, 100⟩) (by simp) (2, ⟨50, 0, 300, 100⟩) (by simp) (by decide)
      ⟨60, 50⟩ (by decide) (by decide)

end Placement
end InputShare

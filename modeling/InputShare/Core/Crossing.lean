import InputShare.Core.Directions
import InputShare.Core.Registers

/-! Where a pointer goes that leaves its machine, on an arrangement no edge or distance of which
leaves the range of the coordinates: to the first machine in the way, and back to where it
left. -/
namespace InputShare
open Direction

namespace WorkspaceDoc

/-- The bounds of a machine, once it has reported displays. -/
def boundsOf (d : WorkspaceDoc) (id : MachineId) : Option Rect :=
  (d.machine id).bind MachineRecord.bounds

theorem mem_machinesPresent {d : WorkspaceDoc} {r : MachineRecord} :
    r ∈ d.machinesPresent ↔ ∃ id, d.machine id = some r := by
  unfold machinesPresent machine
  simp only [List.mem_filterMap, Std.ExtTreeMap.mem_toList_iff_getElem?_eq_some, Prod.exists]
  constructor
  · intro h
    obtain ⟨id, slot, hslot, hr⟩ := h
    obtain ⟨stamp, state⟩ := slot
    cases state with
    | present record =>
      obtain rfl := Option.some.inj hr
      exact ⟨id, by simp [hslot]⟩
    | removed => cases hr
  · intro h
    obtain ⟨id, hid⟩ := h
    split at hid
    · rename_i stamp record hslot
      obtain rfl := Option.some.inj hid
      exact ⟨id, _, hslot, rfl⟩
    · cases hid

/-- The bounds of the machines are not empty, and none of their edges, and no distance between
two of them, is past the range of a coordinate. -/
structure Roomy (d : WorkspaceDoc) : Prop where
  plain : ∀ m ∈ d.machinesPresent, ∀ b, m.bounds = some b → b.Plain
  distance : ∀ m ∈ d.machinesPresent, ∀ n ∈ d.machinesPresent, ∀ b c, m.bounds = some b →
    n.bounds = some c → b.x + b.width - c.x ≤ i32Max ∧ b.y + b.height - c.y ≤ i32Max

theorem roomy_of_forall {d : WorkspaceDoc}
    (h : ∀ b ∈ d.machinesPresent.filterMap MachineRecord.bounds, b.Plain ∧
      ∀ c ∈ d.machinesPresent.filterMap MachineRecord.bounds,
        b.x + b.width - c.x ≤ i32Max ∧ b.y + b.height - c.y ≤ i32Max) : d.Roomy where
  plain m hm b hb := (h b (List.mem_filterMap.mpr ⟨m, hm, hb⟩)).1
  distance m hm n hn b c hb hc :=
    (h b (List.mem_filterMap.mpr ⟨m, hm, hb⟩)).2 c (List.mem_filterMap.mpr ⟨n, hn, hc⟩)

/-- Every slot holds the record of the machine it is for, as every edit makes them. -/
def Keyed (d : WorkspaceDoc) : Prop := ∀ id r, d.machine id = some r → r.id = id

theorem keyed_iff {d : WorkspaceDoc} : d.Keyed ↔ ∀ (id : MachineId) (s : MachineSlot),
    d.machines[id]? = some s → ∀ r, s.state = .present r → r.id = id := by
  unfold Keyed machine
  constructor
  · intro h id s hs r hr
    exact h id r (by rw [hs]; cases s; simp_all)
  · intro h id r hr
    split at hr
    · rename_i stamp record hslot
      obtain rfl := Option.some.inj hr
      exact h id _ hslot _ rfl
    · cases hr

theorem Keyed.of_adopts {d e : WorkspaceDoc} {slots : MachineId → Option MachineSlot}
    (hd : d.Keyed) (ha : ∀ id : MachineId, Adopts d.machines[id]? (slots id) e.machines[id]?)
    (hin : ∀ id s, slots id = some s → ∀ r, s.state = .present r → r.id = id) : e.Keyed := by
  rw [keyed_iff] at hd ⊢
  intro id s hs r hr
  obtain hsame | ⟨slot, hslot, htaken, -⟩ := ha id
  · exact hd id s (hsame ▸ hs) r hr
  · obtain rfl := Option.some.inj (htaken.symm.trans hs)
    exact hin id _ hslot r hr

theorem Keyed.apply {d e : WorkspaceDoc} {u : WorkspaceUpdate} {c : Bool} (hd : d.Keyed)
    (h : d.apply u = .ok (e, c)) : e.Keyed := by
  refine hd.of_adopts (apply_slot h) fun id s hs r hr => ?_
  obtain ⟨record, -, hid, hstate⟩ | ⟨-, hstate⟩ := WorkspaceUpdate.slot_eq_some hs
  · rw [hstate] at hr
    cases hr
    exact hid
  · rw [hstate] at hr
    cases hr

theorem Keyed.merge {d other e : WorkspaceDoc} {c : Bool} (hd : d.Keyed) (ho : other.Keyed)
    (h : d.merge other = .ok (e, c)) : e.Keyed :=
  hd.of_adopts (merge_slot h) (keyed_iff.mp ho)

theorem keyed_insert {d : WorkspaceDoc} (hd : d.Keyed) {id : MachineId} {s : MachineSlot}
    (hs : ∀ r, s.state = .present r → r.id = id) :
    ({ d with machines := d.machines.insert id s } : WorkspaceDoc).Keyed := by
  rw [keyed_iff] at hd ⊢
  intro k t ht r hr
  rw [Std.ExtTreeMap.getElem?_insert] at ht
  split at ht
  · rename_i hk
    obtain rfl := Option.some.inj ht
    rw [hs r hr]
    exact Nat.compare_eq_eq.mp hk
  · exact hd k t ht r hr

theorem Keyed.edit {d : WorkspaceDoc} (hd : d.Keyed) (origin : MachineId) (now : ℕ) (op : Op) :
    (d.edit origin now op).1.Keyed := by
  cases op with
  | setName name | setSettings settings => exact hd
  | upsertMachine record =>
    refine keyed_insert (d := (d.tick origin now).1) hd fun r hr => ?_
    cases hr
    rfl
  | removeMachine id => exact keyed_insert (d := (d.tick origin now).1) hd nofun

theorem keyed_create (ws : WorkspaceId) (now : ℕ) (name : String) (founder : MachineRecord) :
    (create ws now name founder).Keyed := by
  have hempty : ({ create ws now name founder with machines := ∅ } : WorkspaceDoc).Keyed := by
    rw [keyed_iff]
    intro id s hs
    simp at hs
  refine keyed_insert hempty fun r hr => ?_
  cases hr
  rfl

def Apart (d : WorkspaceDoc) : Prop :=
  ∀ m ∈ d.machinesPresent, ∀ n ∈ d.machinesPresent, m.id ≠ n.id → ∀ b c, m.bounds = some b →
    n.bounds = some c → ∀ z, b.contains z = true → c.contains z = false

def Beside (b c : Rect) : Prop :=
  b.maxX ≤ c.x ∨ c.maxX ≤ b.x ∨ b.maxY ≤ c.y ∨ c.maxY ≤ b.y

instance (b c : Rect) : Decidable (Beside b c) :=
  inferInstanceAs (Decidable (_ ∨ _ ∨ _ ∨ _))

theorem Beside.contains {b c : Rect} (h : Beside b c) {z : Point} (hz : b.contains z = true) :
    c.contains z = false := by
  rw [← Bool.not_eq_true]
  unfold Beside at h
  simp only [Rect.contains, Bool.and_eq_true, decide_eq_true_eq] at hz ⊢
  omega

theorem apart_of_forall {d : WorkspaceDoc}
    (h : ∀ m ∈ d.machinesPresent, ∀ n ∈ d.machinesPresent, m.id ≠ n.id →
      ∀ b ∈ m.bounds.toList, ∀ c ∈ n.bounds.toList, Beside b c) : d.Apart :=
  fun m hm n hn hne b c hb hc _ hz =>
    (h m hm n hn hne b (by simp [hb]) c (by simp [hc])).contains hz

end WorkspaceDoc

namespace Layout

def Candidate.key (c : Candidate) : Int ×ₗ MachineId := toLex (c.distance, c.machine)

theorem nearer_iff {a b : Candidate} : nearer a b ↔ a.key ≤ b.key := by
  unfold nearer Candidate.key
  rw [Prod.Lex.toLex_le_toLex]

instance : Std.Total nearer :=
  ⟨fun a b => by simpa only [nearer_iff] using le_total a.key b.key⟩

instance : IsTrans Candidate nearer :=
  ⟨fun a b c => by simpa only [nearer_iff] using le_trans⟩

theorem candidatesAlong_pairwise (doc : WorkspaceDoc) (current : MachineId) (exit : Point)
    (d : Direction) : (candidatesAlong doc current exit d).Pairwise nearer :=
  List.pairwise_insertionSort nearer _

/-- Whether the policy takes a machine into account. -/
def Counts (policy : OfflineEdgeBehavior) (online : Finset MachineId) (id : MachineId) : Prop :=
  policy = .skipOver → id ∈ online

theorem choose_some {policy : OfflineEdgeBehavior} {online : Finset MachineId}
    {candidates : List Candidate} {c : Candidate} (hs : candidates.Pairwise nearer)
    (h : choose policy online candidates = some c) :
    ∀ e ∈ candidates, Counts policy online e.machine → nearer c e := by
  have hrefl : nearer c c := .inr ⟨rfl, le_rfl⟩
  intro e he hcounts
  cases policy with
  | block =>
    cases candidates with
    | nil => cases he
    | cons first rest =>
      by_cases hfirst : first.machine ∈ online
      · simp only [choose, hfirst, if_true, Option.some.injEq] at h
        subst h
        obtain rfl | he := List.mem_cons.mp he
        · exact hrefl
        · exact (List.pairwise_cons.mp hs).1 e he
      · simp [choose, hfirst] at h
  | skipOver =>
    obtain ⟨-, before, after, rfl, hbefore⟩ := List.find?_eq_some_iff_append.mp h
    obtain he | he := List.mem_append.mp he
    · exact absurd (hcounts rfl) (by simpa using hbefore e he)
    · obtain rfl | he := List.mem_cons.mp he
      · exact hrefl
      · exact (List.pairwise_cons.mp (List.pairwise_append.mp hs).2.1).1 e he

theorem choose_of_nearest {policy : OfflineEdgeBehavior} {online : Finset MachineId}
    {candidates : List Candidate} {c : Candidate} (hs : candidates.Pairwise nearer)
    (hc : c ∈ candidates) (honline : c.machine ∈ online)
    (hnearest : ∀ e ∈ candidates, Counts policy online e.machine → e = c ∨ ¬ nearer e c) :
    choose policy online candidates = some c := by
  induction candidates with
  | nil => cases hc
  | cons first rest ih =>
    obtain ⟨hfirst, hrest⟩ := List.pairwise_cons.mp hs
    have hskip : first = c ∨ ¬ Counts policy online first.machine := by
      by_contra hboth
      obtain ⟨hne, hcounts⟩ := not_or.mp hboth
      obtain rfl | hc := List.mem_cons.mp hc
      · exact hne rfl
      · obtain he | he := hnearest first List.mem_cons_self (not_not.mp hcounts)
        · exact hne he
        · exact he (hfirst c hc)
    obtain rfl | hskip := hskip
    · cases policy <;> simp [choose, honline]
    · cases policy with
      | block => exact absurd (fun hpolicy => by cases hpolicy) hskip
      | skipOver =>
        have hoff : first.machine ∉ online := fun hon => hskip fun _ => hon
        obtain rfl | hc := List.mem_cons.mp hc
        · exact absurd honline hoff
        · have := ih hrest hc fun e he => hnearest e (List.mem_cons_of_mem _ he)
          simpa [choose, List.find?_cons, hoff] using this

theorem nearer_distance_le {a b : Candidate} (h : nearer a b) : a.distance ≤ b.distance := by
  obtain h | h := h
  · exact h.le
  · exact h.1.le

/-- Everything `resolveCursor` does: it stays inside, or takes the choice along its direction. -/
theorem resolveCursor_cases {doc : WorkspaceDoc} {current : MachineId} {own : Rect}
    (hown : doc.boundsOf current = some own) (online : Finset MachineId) (target : Point) :
    (own.contains target = true ∧ resolveCursor doc online current target = .stay target) ∨
      own.contains target = false ∧
        match directionOf (own.clamp target) target with
        | none => resolveCursor doc online current target = .stay (own.clamp target)
        | some d =>
          resolveCursor doc online current target =
            match choose doc.settings.value.offlineEdge online
              (candidatesAlong doc current (own.clamp target) d) with
            | some c => .move c.machine (entryPoint c.bounds (own.clamp target) d)
            | none => .stay (own.clamp target) := by
  unfold resolveCursor
  rw [show (doc.machine current).bind MachineRecord.bounds = some own from hown]
  cases hin : own.contains target with
  | true => simp [hin]
  | false =>
    cases hd : directionOf (own.clamp target) target with
    | none => simp [hin, hd]
    | some d =>
      simp only [hin, hd]
      exact .inr ⟨trivial, rfl⟩

section Roomy
variable {doc : WorkspaceDoc} {online : Finset MachineId} {current m : MachineId}
  {target p : Point}

/-- A crossing from some rectangle in some direction to the machine that was chosen. -/
structure Crosses (doc : WorkspaceDoc) (online : Finset MachineId) (current : MachineId)
    (target : Point) (m : MachineId) (p : Point) (own : Rect) (d : Direction) (c : Candidate) :
    Prop where
  bounds : doc.boundsOf current = some own
  direction : directionOf (own.clamp target) target = some d
  chosen : choose doc.settings.value.offlineEdge online
    (candidatesAlong doc current (own.clamp target) d) = some c
  machine : c.machine = m
  point : entryPoint c.bounds (own.clamp target) d = p

theorem crosses_of_move (h : resolveCursor doc online current target = .move m p) :
    ∃ own d c, Crosses doc online current target m p own d c := by
  cases hown : doc.boundsOf current with
  | none =>
    unfold resolveCursor at h
    rw [show (doc.machine current).bind MachineRecord.bounds = none from hown] at h
    cases h
  | some own =>
    obtain ⟨-, hs⟩ | ⟨-, hs⟩ := resolveCursor_cases hown online target
    · rw [hs] at h
      cases h
    · cases hd : directionOf (own.clamp target) target with
      | none =>
        simp only [hd] at hs
        rw [hs] at h
        cases h
      | some d =>
        simp only [hd] at hs
        rw [hs] at h
        split at h
        · rename_i c hc
          obtain ⟨hm, hp⟩ := Resolution.move.inj h
          exact ⟨own, d, c, hown, hd, hc, hm, hp⟩
        · cases h

theorem boundsOf_mem {id : MachineId} {b : Rect} (h : doc.boundsOf id = some b) :
    ∃ r ∈ doc.machinesPresent, doc.machine id = some r ∧ r.bounds = some b := by
  obtain ⟨r, hr, hb⟩ := Option.bind_eq_some_iff.mp h
  exact ⟨r, WorkspaceDoc.mem_machinesPresent.mpr ⟨id, hr⟩, hr, hb⟩

theorem plain_of_boundsOf (hroom : doc.Roomy) {id : MachineId} {b : Rect}
    (h : doc.boundsOf id = some b) : b.Plain := by
  obtain ⟨r, hr, -, hb⟩ := boundsOf_mem h
  exact hroom.plain r hr b hb

theorem gap_le (hroom : doc.Roomy) {own b : Rect} {r : MachineRecord} {exit : Point}
    (hown : doc.boundsOf current = some own) (hr : r ∈ doc.machinesPresent)
    (hb : r.bounds = some b) (hin : own.contains exit = true) (d : Direction) :
    d.near b - d.along exit ≤ i32Max := by
  obtain ⟨o, ho, -, hob⟩ := boundsOf_mem hown
  have h₁ := hroom.distance r hr o ho b own hb hob
  have h₂ := hroom.distance o ho r hr own b hob hb
  have hplain := hroom.plain r hr b hb
  have := hplain.width
  have := hplain.height
  rw [Rect.contains_iff .right (hroom.plain o ho own hob)] at hin
  simp only [near, far, along, Spans, across] at hin
  cases d <;> simp only [near, along] <;> omega

theorem mem_candidatesAlong_iff (hroom : doc.Roomy) {own : Rect} {exit : Point}
    (hown : doc.boundsOf current = some own) (hin : own.contains exit = true) {d : Direction}
    {c : Candidate} : c ∈ candidatesAlong doc current exit d ↔
      ∃ r ∈ doc.machinesPresent, r.id ≠ current ∧ c.machine = r.id ∧ r.bounds = some c.bounds ∧
        d.Spans c.bounds (d.across exit) ∧ d.along exit < d.near c.bounds ∧
          c.distance = d.near c.bounds - d.along exit - d.slack := by
  rw [mem_candidatesAlong]
  refine exists_congr fun r => and_congr_right fun hr => and_congr_right fun _ =>
    and_congr_right fun _ => and_congr_right fun hb => ?_
  exact distanceTo_eq_some (hroom.plain r hr _ hb) (gap_le hroom hown hr hb hin d)

/-- Strictly between two points of one line along an axis. -/
def OpenSegment (a b z : Point) : Prop :=
  (z.y = a.y ∧ a.y = b.y ∧ (a.x < z.x ∧ z.x < b.x ∨ b.x < z.x ∧ z.x < a.x)) ∨
    z.x = a.x ∧ a.x = b.x ∧ (a.y < z.y ∧ z.y < b.y ∨ b.y < z.y ∧ z.y < a.y)

theorem OpenSegment.along {a b z : Point} (h : OpenSegment a b z) (d : Direction)
    (hacross : d.across b = d.across a) (hlt : d.along a < d.along b) :
    d.across z = d.across a ∧ d.along a < d.along z ∧ d.along z < d.along b := by
  unfold OpenSegment at h
  cases d <;> simp only [across, Direction.along] at hacross hlt ⊢ <;> omega

theorem Crosses.entry {own : Rect} {d : Direction} {c : Candidate} (hroom : doc.Roomy)
    (h : Crosses doc online current target m p own d c) :
    c.bounds.Plain ∧ d.Spans c.bounds (d.across (own.clamp target)) ∧
      d.along (own.clamp target) < d.near c.bounds ∧ d.along p = d.near c.bounds ∧
      d.across p = d.across (own.clamp target) ∧ c.bounds.contains p = true := by
  have hexit := Rect.contains_clamp (plain_of_boundsOf hroom h.bounds) target
  obtain ⟨r, hr, -, -, hb, hspans, hlt, -⟩ :=
    (mem_candidatesAlong_iff hroom h.bounds hexit).mp (choose_mem h.chosen).1
  have hplain := hroom.plain r hr _ hb
  obtain ⟨halong, hacross, hin⟩ := entryPoint_spec hplain hspans
  rw [h.point] at halong hacross hin
  exact ⟨hplain, hspans, hlt, halong, hacross, hin⟩

/-- A machine that begins before the one entered either is not taken into account or begins
before the exit point. -/
theorem Crosses.nearest {own b : Rect} {d : Direction} {c : Candidate} {r : MachineRecord}
    (hroom : doc.Roomy) (h : Crosses doc online current target m p own d c)
    (hr : r ∈ doc.machinesPresent) (hne : r.id ≠ current) (hb : r.bounds = some b)
    (hcounts : Counts doc.settings.value.offlineEdge online r.id)
    (hspans : d.Spans b (d.across (own.clamp target))) (hlt : d.near b < d.near c.bounds) :
    d.near b ≤ d.along (own.clamp target) := by
  by_contra hbeyond
  have hexit := Rect.contains_clamp (plain_of_boundsOf hroom h.bounds) target
  obtain ⟨-, -, -, -, -, -, -, hdistance⟩ :=
    (mem_candidatesAlong_iff hroom h.bounds hexit).mp (choose_mem h.chosen).1
  have hmem := (mem_candidatesAlong_iff (d := d)
    (c := ⟨r.id, b, d.near b - d.along (own.clamp target) - d.slack⟩) hroom h.bounds hexit).mpr
      ⟨r, hr, hne, rfl, hb, hspans, not_le.mp hbeyond, rfl⟩
  have hle := nearer_distance_le
    (choose_some (candidatesAlong_pairwise ..) h.chosen _ hmem hcounts)
  rw [hdistance] at hle
  simp only at hle
  omega

theorem stay_contains {own : Rect} (hplain : own.Plain) (hown : doc.boundsOf current = some own)
    (h : resolveCursor doc online current target = .stay p) : own.contains p = true := by
  have hexit := Rect.contains_clamp hplain target
  obtain ⟨hin, hs⟩ | ⟨-, hs⟩ := resolveCursor_cases hown online target
  · obtain rfl := Resolution.stay.inj (hs.symm.trans h)
    exact hin
  · cases hd : directionOf (own.clamp target) target with
    | none =>
      simp only [hd] at hs
      obtain rfl := Resolution.stay.inj (hs.symm.trans h)
      exact hexit
    | some d =>
      simp only [hd] at hs
      rw [hs] at h
      split at h
      · cases h
      · obtain rfl := Resolution.stay.inj h
        exact hexit

/-- A crossing enters a present, online machine on the line it left on, and no machine the policy
takes into account is in between, unless it is under the pointer already; a pointer that stays
is on its machine. -/
theorem crossings_unobstructed (hroom : doc.Roomy) (online : Finset MachineId)
    (current : MachineId) (target : Point) :
    (∀ m p, resolveCursor doc online current target = .move m p →
      ∃ own d, doc.boundsOf current = some own ∧
        directionOf (own.clamp target) target = some d ∧
        (∃ r ∈ doc.machinesPresent, r.id = m ∧ ∃ b, r.bounds = some b ∧ b.contains p = true) ∧
        m ∈ online ∧ m ≠ current ∧
        (if d.isHorizontal then p.y = (own.clamp target).y else p.x = (own.clamp target).x) ∧
        ∀ q ∈ doc.machinesPresent, q.id ≠ current ∨ doc.machine current = some q →
          Counts doc.settings.value.offlineEdge online q.id → ∀ b, q.bounds = some b →
          ∀ z, OpenSegment (own.clamp target) p z → b.contains z = true →
            b.contains (own.clamp target) = true) ∧
      ∀ p, resolveCursor doc online current target = .stay p →
        ∀ own, doc.boundsOf current = some own → own.contains p = true := by
  refine ⟨fun m p h => ?_, fun p h own hown => stay_contains (plain_of_boundsOf hroom hown) hown h⟩
  obtain ⟨own, d, c, hcross⟩ := crosses_of_move h
  obtain ⟨hne, honline⟩ := resolveCursor_move h
  have hexit := Rect.contains_clamp (plain_of_boundsOf hroom hcross.bounds) target
  obtain ⟨r, hr, -, hid, hb, -⟩ :=
    (mem_candidatesAlong_iff hroom hcross.bounds hexit).mp (choose_mem hcross.chosen).1
  obtain ⟨-, -, hbefore, halong, hacross, hin⟩ := hcross.entry hroom
  refine ⟨own, d, hcross.bounds, hcross.direction,
    ⟨r, hr, hid.symm.trans hcross.machine, c.bounds, hb, hin⟩, honline, hne, ?_, ?_⟩
  · cases d <;> simpa [isHorizontal, across] using hacross
  · intro q hq hother hcounts b hqb z hz hzin
    obtain hother | hcurrent := hother
    · have hplain := hroom.plain q hq b hqb
      obtain ⟨hline, hafter, hearly⟩ := hz.along d hacross (halong ▸ hbefore)
      obtain ⟨hnear, hfar, hspans⟩ := (Rect.contains_iff d hplain).mp hzin
      rw [hline] at hspans
      have hle := hcross.nearest hroom hq hother hqb hcounts hspans (by omega)
      exact (Rect.contains_iff d hplain).mpr ⟨hle, by omega, hspans⟩
    · have hbounds : doc.boundsOf current = some b := by
        rw [WorkspaceDoc.boundsOf, hcurrent]
        exact hqb
      obtain rfl := Option.some.inj (hbounds.symm.trans hcross.bounds)
      exact hexit

theorem boundsOf_id (hkeyed : doc.Keyed) {r : MachineRecord} {b : Rect}
    (hr : r ∈ doc.machinesPresent) (hb : r.bounds = some b) : doc.boundsOf r.id = some b := by
  obtain ⟨id, hid⟩ := WorkspaceDoc.mem_machinesPresent.mp hr
  rw [WorkspaceDoc.boundsOf, hkeyed id r hid, hid]
  exact hb

theorem bounds_of_id (hkeyed : doc.Keyed) {r : MachineRecord} {own b : Rect}
    (hown : doc.boundsOf current = some own) (hr : r ∈ doc.machinesPresent) (hid : r.id = current)
    (hb : r.bounds = some b) : b = own := by
  have := boundsOf_id hkeyed hr hb
  rw [hid] at this
  exact Option.some.inj (this.symm.trans hown)

theorem Crosses.far_lt {own : Rect} {d : Direction} {c : Candidate} (hroom : doc.Roomy)
    (hkeyed : doc.Keyed) (hapart : doc.Apart)
    (h : Crosses doc online current target m p own d c) : d.far own < d.near c.bounds := by
  by_contra hover
  have hplain := plain_of_boundsOf hroom h.bounds
  have hexit := Rect.contains_clamp hplain target
  obtain ⟨o, ho, hoid, hob⟩ := boundsOf_mem h.bounds
  obtain ⟨r, hr, hne, -, hb, -⟩ :=
    (mem_candidatesAlong_iff hroom h.bounds hexit).mp (choose_mem h.chosen).1
  obtain ⟨-, -, hlt, halong, hacross, hin⟩ := h.entry hroom
  have hboth : own.contains p = true := by
    obtain ⟨hnear, hfar, hs⟩ := (Rect.contains_iff d hplain).mp hexit
    exact (Rect.contains_iff d hplain).mpr ⟨by omega, by omega, hacross ▸ hs⟩
  have := hapart r hr o ho (by rwa [hkeyed _ o hoid]) _ _ hb hob p hin
  rw [hboth] at this
  cases this

theorem Crosses.choose_back {own : Rect} {d : Direction} {c : Candidate} (hroom : doc.Roomy)
    (hkeyed : doc.Keyed) (hapart : doc.Apart) (honline : current ∈ online)
    (h : Crosses doc online current target m p own d c) :
    ∃ e, choose doc.settings.value.offlineEdge online
        (candidatesAlong doc m p d.opposite) = some e ∧ e.machine = current ∧ e.bounds = own := by
  have hplain := plain_of_boundsOf hroom h.bounds
  have hexit := Rect.contains_clamp hplain target
  obtain ⟨o, ho, hoid, hob⟩ := boundsOf_mem h.bounds
  have hocurrent : o.id = current := hkeyed current o hoid
  obtain ⟨r, hr, hne, hid, hb, -⟩ :=
    (mem_candidatesAlong_iff hroom h.bounds hexit).mp (choose_mem h.chosen).1
  have hrm : r.id = m := hid.symm.trans h.machine
  obtain ⟨hcplain, -, hlt, halong, hacross, hin⟩ := h.entry hroom
  have hbounds : doc.boundsOf m = some c.bounds := hrm ▸ boundsOf_id hkeyed hr hb
  obtain ⟨hnear, hfar, hs⟩ := (Rect.contains_iff d hplain).mp hexit
  have hfarlt := h.far_lt hroom hkeyed hapart
  refine ⟨⟨current, own, d.opposite.near own - d.opposite.along p - d.opposite.slack⟩,
    choose_of_nearest (candidatesAlong_pairwise ..) ?_ honline ?_, rfl, rfl⟩
  · rw [mem_candidatesAlong_iff hroom hbounds hin]
    refine ⟨o, ho, ?_, hocurrent.symm, hob, ?_, ?_, rfl⟩
    · rw [hocurrent, ← hrm]
      exact hne.symm
    · rw [spans_opposite, across_opposite, hacross]
      exact hs
    · rw [along_opposite, near_opposite]
      exact neg_lt_neg (halong ▸ hfarlt)
  · intro e he hcounts
    obtain ⟨q, hq, hqm, heid, hqb, heline, hebehind, hedistance⟩ :=
      (mem_candidatesAlong_iff hroom hbounds hin).mp he
    rw [spans_opposite, across_opposite, hacross] at heline
    rw [along_opposite, near_opposite] at hebehind
    have heplain := hroom.plain q hq _ hqb
    by_cases hqcurrent : q.id = current
    · left
      have hsame : e.bounds = own := bounds_of_id hkeyed h.bounds hq hqcurrent hqb
      obtain ⟨machine, bounds, distance⟩ := e
      simp only at heid hsame hedistance
      rw [heid, hqcurrent, hsame, hedistance, hsame]
    · right
      intro hnearer
      have hle := nearer_distance_le hnearer
      simp only [hedistance, near_opposite, along_opposite] at hle
      -- it would be met on the way out as well, or lie over the machine left
      have hbefore : d.near e.bounds ≤ d.along (own.clamp target) :=
        h.nearest hroom hq hqcurrent hqb (heid ▸ hcounts) heline
          (lt_of_le_of_lt (d.near_le_far heplain) (by omega))
      have hover : e.bounds.contains (own.clamp target) = true :=
        (Rect.contains_iff d heplain).mpr ⟨hbefore, by omega, heline⟩
      have := hapart q hq o ho (by rwa [hocurrent]) _ _ hqb hob _ hover
      rw [hexit] at this
      cases this

/-- A crossing is undone by a push the other way exactly when it left over the edge that its
direction leads out of, as it does when the first push fits in a coordinate, and the push back
fits as well. -/
theorem crossing_back_iff {doc : WorkspaceDoc} {online : Finset MachineId} {a b : MachineId}
    {target p : Point} {own : Rect} {d : Direction} {k : ℕ} (hroom : doc.Roomy)
    (hkeyed : doc.Keyed) (hapart : doc.Apart) (ha : a ∈ online)
    (hown : doc.boundsOf a = some own) (hd : directionOf (own.clamp target) target = some d)
    (h : resolveCursor doc online a target = .move b p) (hk : 1 ≤ k)
    (hback : (d.back p k).InRange) :
    (resolveCursor doc online b (d.back p k) = .move a (own.clamp target) ↔
        d.along (own.clamp target) = d.far own ∧ k < 2147483648) ∧
      (Reaches (own.clamp target) target → d.along (own.clamp target) = d.far own) := by
  refine ⟨?_, fun hfit => leaves_over_edge (plain_of_boundsOf hroom hown) hfit hd⟩
  obtain ⟨own', d', c, hcross⟩ := crosses_of_move h
  obtain rfl := Option.some.inj (hcross.bounds.symm.trans hown)
  obtain rfl := Option.some.inj (hcross.direction.symm.trans hd)
  have hplain := plain_of_boundsOf hroom hown
  have hexit := Rect.contains_clamp hplain target
  obtain ⟨-, -, hs⟩ := (Rect.contains_iff d' hplain).mp hexit
  obtain ⟨hcplain, hspans, hlt, halong, hacross, hin⟩ := hcross.entry hroom
  obtain ⟨r, hr, -, hid, hb, -⟩ :=
    (mem_candidatesAlong_iff hroom hown hexit).mp (choose_mem hcross.chosen).1
  have hbounds : doc.boundsOf b = some c.bounds := by
    rw [← hcross.machine, hid]
    exact boundsOf_id hkeyed hr hb
  -- pushed back, the pointer leaves over the edge it came in by, where it stood
  have hnear := d'.near_le_far hcplain
  have hout : c.bounds.contains (d'.back p k) = false := by
    rw [← Bool.not_eq_true, Rect.contains_iff d' hcplain, along_back]
    omega
  have hclamp : c.bounds.clamp (d'.back p k) = p := by
    refine d'.point_eq ?_ ?_
    · rw [Rect.along_clamp d' hcplain, along_back]
      omega
    · rw [Rect.across_clamp d' hcplain (by rwa [across_back, hacross]), across_back]
  have hrange := Rect.inRange_of_contains hcplain hin
  by_cases hfit : k < 2147483648
  · have hway := (directionOf_back hrange hk hback).mpr hfit
    obtain ⟨e, he, hea, heown⟩ := hcross.choose_back hroom hkeyed hapart ha
    obtain ⟨hinside, -⟩ | ⟨-, hres⟩ := resolveCursor_cases hbounds online (d'.back p k)
    · rw [hout] at hinside
      cases hinside
    · rw [hclamp, hway] at hres
      simp only [he, hea, heown] at hres
      have hmeets : d'.opposite.Spans own' (d'.opposite.across p) := by
        rwa [spans_opposite, across_opposite, hacross]
      obtain ⟨hentry, hline, -⟩ := entryPoint_spec hplain hmeets
      rw [along_opposite, near_opposite, neg_inj] at hentry
      rw [across_opposite, across_opposite, hacross] at hline
      rw [hres]
      constructor
      · intro hmove
        rw [(Resolution.move.inj hmove).2] at hentry
        exact ⟨hentry, hfit⟩
      · intro hedge
        rw [d'.point_eq (hentry.trans hedge.1.symm) hline]
  · refine ⟨fun hmove => ?_, fun hboth => absurd hboth.2 hfit⟩
    obtain ⟨own', way, e, hreturn⟩ := crosses_of_move hmove
    obtain rfl := Option.some.inj (hreturn.bounds.symm.trans hbounds)
    have hway := hreturn.direction
    have hmem := (choose_mem hreturn.chosen).1
    rw [hclamp] at hway hmem
    obtain ⟨q, hq, -, hqid, hqb, hqline, hqmet, -⟩ :=
      (mem_candidatesAlong_iff hroom hbounds hin).mp hmem
    rw [bounds_of_id hkeyed hown hq (hqid.symm.trans hreturn.machine) hqb] at hqline hqmet
    rw [opposite_of_met hplain hexit hacross (halong ▸ hlt) hqline hqmet,
      directionOf_back hrange hk hback] at hway
    exact absurd hway hfit

end Roomy

def screenAt (id : MachineId) (position : Point) : MachineRecord :=
  { studio with
    id := id
    position := position
    displays := [⟨"main", "Main", 0, 0, 100, 100, 1065353216, true⟩] }

/-- Three such machines side by side and one above the first; an offline machine is skipped. -/
def row : WorkspaceDoc :=
  [.upsertMachine (screenAt 2 ⟨100, 0⟩), .upsertMachine (screenAt 3 ⟨200, 0⟩),
    .upsertMachine (screenAt 4 ⟨0, -100⟩),
    .setSettings { WorkspaceSettings.default with offlineEdge := .skipOver }].foldl
    (fun d op => (d.edit 1 0 op).1) (.create 7 0 "Row" (screenAt 1 ⟨0, 0⟩))

theorem roomy_row : row.Roomy := WorkspaceDoc.roomy_of_forall (by decide +kernel)

theorem keyed_row : row.Keyed :=
  ((((WorkspaceDoc.keyed_create _ _ _ _).edit _ _ _).edit _ _ _).edit _ _ _).edit _ _ _

theorem apart_row : row.Apart := WorkspaceDoc.apart_of_forall (by decide +kernel)

/-- The second machine is offline and passed over. -/
theorem crossings_unobstructed_row :
    resolveCursor row {1, 3, 4} 1 ⟨130, 50⟩ = .move 3 ⟨200, 50⟩ ∧
      ∀ q ∈ row.machinesPresent, q.id ≠ 1 → q.id ∈ ({1, 3, 4} : Finset MachineId) →
        ∀ b, q.bounds = some b → ∀ z, OpenSegment ⟨99, 50⟩ ⟨200, 50⟩ z → b.contains z = true →
          b.contains ⟨99, 50⟩ = true := by
  have hmove : resolveCursor row {1, 3, 4} 1 ⟨130, 50⟩ = .move 3 ⟨200, 50⟩ := by decide +kernel
  refine ⟨hmove, fun q hq hne honline b hb z hz hin => ?_⟩
  obtain ⟨own, d, hown, -, -, -, -, -, hclear⟩ :=
    (crossings_unobstructed roomy_row {1, 3, 4} 1 ⟨130, 50⟩).1 3 ⟨200, 50⟩ hmove
  obtain rfl : own = ⟨0, 0, 100, 100⟩ :=
    Option.some.inj (hown.symm.trans (by decide +kernel))
  exact hclear q hq (.inl hne) (fun _ => honline) b hb z hz hin

/-- Pushed far enough to the left the pointer goes up, and comes back somewhere else; and from the
second machine a push to the left that is too long leads nowhere. -/
theorem pushes_too_long :
    row.Roomy ∧ row.Keyed ∧ row.Apart ∧ row.boundsOf 1 = some ⟨0, 0, 100, 100⟩ ∧
      (⟨0, 0, 100, 100⟩ : Rect).clamp ⟨i32Min, 50⟩ = ⟨0, 50⟩ ∧
      resolveCursor row {1, 2, 3, 4} 1 ⟨i32Min, 50⟩ = .move 4 ⟨0, -1⟩ ∧
      directionOf ⟨0, 50⟩ ⟨i32Min, 50⟩ = some .up ∧
      resolveCursor row {1, 2, 3, 4} 4 (up.back ⟨0, -1⟩ 1) = .move 1 ⟨0, 0⟩ ∧
      resolveCursor row {1, 2, 3, 4} 1 ⟨110, 50⟩ = .move 2 ⟨100, 50⟩ ∧
      resolveCursor row {1, 2, 3, 4} 2 (right.back ⟨100, 50⟩ 2147483648) = .stay ⟨100, 50⟩ :=
  ⟨roomy_row, keyed_row, apart_row, by decide +kernel⟩

theorem crossing_back_iff_row :
    resolveCursor row {1, 2, 3, 4} 1 ⟨110, 50⟩ = .move 2 ⟨100, 50⟩ ∧
      resolveCursor row {1, 2, 3, 4} 2 ⟨93, 50⟩ = .move 1 ⟨99, 50⟩ := by
  have hmove : resolveCursor row {1, 2, 3, 4} 1 ⟨110, 50⟩ = .move 2 ⟨100, 50⟩ := by decide +kernel
  have hown : row.boundsOf 1 = some ⟨0, 0, 100, 100⟩ := by decide +kernel
  have hway : directionOf ((⟨0, 0, 100, 100⟩ : Rect).clamp ⟨110, 50⟩) ⟨110, 50⟩ = some .right := by
    decide
  have hrange : (right.back ⟨100, 50⟩ 7).InRange := by
    unfold Point.InRange
    decide
  exact ⟨hmove, (crossing_back_iff roomy_row keyed_row apart_row (by decide) hown hway hmove
    (by decide) hrange).1.mpr (by decide)⟩

end Layout
end InputShare

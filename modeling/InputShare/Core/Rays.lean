import InputShare.Core.Crossing

/-! What a pointer that leaves its machine would run into if it looked at one pixel after the
other: measuring the distances and sorting by them comes to the same. And on machines that touch a
pointer goes wherever it is pushed, pixel by pixel, as on one desktop. -/
namespace InputShare
namespace Direction

def ahead (p : Point) (k : ℕ) (d : Direction) : Point := d.opposite.back p k

variable (d : Direction)

theorem along_ahead (p : Point) (k : ℕ) : d.along (d.ahead p k) = d.along p + k := by
  cases d <;> simp only [ahead, opposite, back, along] <;> omega

theorem across_ahead (p : Point) (k : ℕ) : d.across (d.ahead p k) = d.across p := by
  cases d <;> rfl

theorem ahead_eq {p q : Point} {k : ℕ} (ha : d.along q = d.along p + k)
    (hc : d.across q = d.across p) : d.ahead p k = q :=
  d.point_eq (by rw [along_ahead, ha]) (by rw [across_ahead, hc])

end Direction

open Direction

namespace Layout

theorem directionOf_ne_none {exit target : Point} (he : exit.InRange) (ht : target.InRange)
    (hne : exit ≠ target) : directionOf exit target ≠ none := by
  intro h
  have hzero : wrapI32 (target.x - exit.x) = 0 ∧ wrapI32 (target.y - exit.y) = 0 := by
    by_contra hzero
    simp only [directionOf, hzero, if_false] at h
    split at h <;> cases h
  refine hne ?_
  obtain ⟨x, y⟩ := exit
  obtain ⟨x', y'⟩ := target
  simp only [Point.InRange, wrapI32, i32Min, i32Max, Point.mk.injEq] at *
  omega

theorem directionOf_ahead {d : Direction} {p : Point} (hp : p.InRange)
    (hq : (d.ahead p 1).InRange) : directionOf p (d.ahead p 1) = some d := by
  have h := (directionOf_back (d := d.opposite) hp le_rfl hq).mpr (by decide)
  cases d <;> exact h

theorem choose_first (policy : OfflineEdgeBehavior) (online : Finset MachineId)
    {candidates : List Candidate} (hs : candidates.Pairwise nearer) :
    (choose policy online candidates = none ∧
        ∀ e ∈ candidates, ¬ Counts policy online e.machine) ∨
      ∃ c ∈ candidates, Counts policy online c.machine ∧
        (∀ e ∈ candidates, Counts policy online e.machine → nearer c e) ∧
        choose policy online candidates = if c.machine ∈ online then some c else none := by
  cases policy with
  | block =>
    cases candidates with
    | nil => exact .inl ⟨rfl, fun e he => by cases he⟩
    | cons first rest =>
      refine .inr ⟨first, List.mem_cons_self, fun h => (by cases h), fun e he _ => ?_, rfl⟩
      obtain rfl | he := List.mem_cons.mp he
      · exact .inr ⟨rfl, le_rfl⟩
      · exact (List.pairwise_cons.mp hs).1 e he
  | skipOver =>
    cases hc : choose .skipOver online candidates with
    | none =>
      refine .inl ⟨rfl, fun e he hcounts => ?_⟩
      simpa [hcounts rfl] using List.find?_eq_none.mp hc e he
    | some c =>
      obtain ⟨hmem, honline⟩ := choose_mem hc
      refine .inr ⟨c, hmem, fun _ => honline, choose_some hs hc, ?_⟩
      rw [if_pos honline]

variable (doc : WorkspaceDoc) (online : Finset MachineId) (current : MachineId)

def Taken (id : MachineId) (z : Point) : Prop :=
  id ≠ current ∧ Counts doc.settings.value.offlineEdge online id ∧
    ∃ b, doc.boundsOf id = some b ∧ b.contains z = true

/-- So many pixels on is the first one that is taken. -/
structure Meets (exit : Point) (d : Direction) (k : ℕ) (id : MachineId) : Prop where
  taken : Taken doc online current id (d.ahead exit k)
  free : ∀ i < k, ∀ other, ¬ Taken doc online current other (d.ahead exit i)

/-- Where the pointer goes that looks at one pixel after the other. -/
inductive Casts (own : Rect) (target : Point) : Resolution → Prop where
  | inside (hin : own.contains target = true) : Casts own target (.stay target)
  | enters {d : Direction} {k : ℕ} {id : MachineId} (hout : own.contains target = false)
      (hd : directionOf (own.clamp target) target = some d)
      (hmeets : Meets doc online current (own.clamp target) d k id) (honline : id ∈ online) :
      Casts own target (.move id (d.ahead (own.clamp target) k))
  | shut {d : Direction} {k : ℕ} {id : MachineId} (hout : own.contains target = false)
      (hd : directionOf (own.clamp target) target = some d)
      (hmeets : Meets doc online current (own.clamp target) d k id) (hoffline : id ∉ online) :
      Casts own target (.stay (own.clamp target))
  | clear {d : Direction} (hout : own.contains target = false)
      (hd : directionOf (own.clamp target) target = some d)
      (hclear : ∀ k id, ¬ Taken doc online current id (d.ahead (own.clamp target) k)) :
      Casts own target (.stay (own.clamp target))

variable {doc online current} {own : Rect} {exit target p : Point} {d : Direction}
  {id m n : MachineId} {k : ℕ}

theorem eq_of_contains (hkeyed : doc.Keyed) (hapart : doc.Apart) {b c : Rect}
    (hb : doc.boundsOf m = some b) (hc : doc.boundsOf n = some c) {z : Point}
    (hzb : b.contains z = true) (hzc : c.contains z = true) : m = n := by
  by_contra hne
  obtain ⟨r, hr, hrm, hrb⟩ := boundsOf_mem hb
  obtain ⟨s, hs, hsn, hsc⟩ := boundsOf_mem hc
  have := hapart r hr s hs (by rwa [hkeyed m r hrm, hkeyed n s hsn]) b c hrb hsc z hzb
  rw [hzc] at this
  cases this

theorem Meets.unique {j : ℕ} (hkeyed : doc.Keyed) (hapart : doc.Apart)
    (h : Meets doc online current exit d k m) (h' : Meets doc online current exit d j n) :
    k = j ∧ m = n := by
  obtain rfl : k = j := by
    obtain hlt | heq | hlt := lt_trichotomy k j
    · exact absurd h.taken (h'.free k hlt m)
    · exact heq
    · exact absurd h'.taken (h.free j hlt n)
  obtain ⟨-, -, b, hb, hin⟩ := h.taken
  obtain ⟨-, -, c, hc, hin'⟩ := h'.taken
  exact ⟨rfl, eq_of_contains hkeyed hapart hb hc hin hin'⟩

theorem Casts.unique {r s : Resolution} (hkeyed : doc.Keyed) (hapart : doc.Apart)
    (h : Casts doc online current own target r) (h' : Casts doc online current own target s) :
    r = s := by
  have hway {d e : Direction} (hd : directionOf (own.clamp target) target = some d)
      (he : directionOf (own.clamp target) target = some e) : d = e :=
    Option.some.inj (hd.symm.trans he)
  cases h with
  | inside hin =>
    cases h' with
    | inside => rfl
    | enters hout | shut hout | clear hout => rw [hin] at hout; cases hout
  | enters hout hd hmeets honline =>
    cases h' with
    | inside hin => rw [hin] at hout; cases hout
    | enters _ hd' hmeets' =>
      obtain rfl := hway hd hd'
      obtain ⟨rfl, rfl⟩ := hmeets.unique hkeyed hapart hmeets'
      rfl
    | shut _ hd' hmeets' hoffline =>
      obtain rfl := hway hd hd'
      obtain ⟨-, rfl⟩ := hmeets.unique hkeyed hapart hmeets'
      exact absurd honline hoffline
    | clear _ hd' hclear =>
      obtain rfl := hway hd hd'
      exact absurd hmeets.taken (hclear _ _)
  | shut hout hd hmeets hoffline =>
    cases h' with
    | inside hin => rw [hin] at hout; cases hout
    | enters _ hd' hmeets' honline =>
      obtain rfl := hway hd hd'
      obtain ⟨-, rfl⟩ := hmeets.unique hkeyed hapart hmeets'
      exact absurd honline hoffline
    | shut | clear => rfl
  | clear hout hd hclear =>
    cases h' with
    | inside hin => rw [hin] at hout; cases hout
    | enters _ hd' hmeets =>
      obtain rfl := hway hd hd'
      exact absurd hmeets.taken (hclear _ _)
    | shut | clear => rfl

theorem taken_ahead_iff (hroom : doc.Roomy) (hkeyed : doc.Keyed) (hapart : doc.Apart)
    (hown : doc.boundsOf current = some own) (hin : own.contains exit = true) :
    Taken doc online current id (d.ahead exit k) ↔
      ∃ c ∈ candidatesAlong doc current exit d, c.machine = id ∧
        Counts doc.settings.value.offlineEdge online c.machine ∧
        d.near c.bounds ≤ d.along exit + k ∧ d.along exit + k ≤ d.far c.bounds := by
  constructor
  · intro h
    obtain ⟨hne, hcounts, b, hb, hcontains⟩ := h
    obtain ⟨r, hr, hid, hrb⟩ := boundsOf_mem hb
    have hplain := plain_of_boundsOf hroom hb
    have hrid : r.id = id := hkeyed id r hid
    obtain ⟨hnear, hfar, hspans⟩ := (Rect.contains_iff d hplain).mp hcontains
    rw [along_ahead] at hnear hfar
    rw [across_ahead] at hspans
    -- it begins beyond the exit point, which is on the machine left
    have hbeyond : d.along exit < d.near b := by
      by_contra hle
      exact hne (eq_of_contains hkeyed hapart hb hown
        ((Rect.contains_iff d hplain).mpr ⟨by omega, by omega, hspans⟩) hin)
    refine ⟨⟨id, b, d.near b - d.along exit - d.slack⟩, ?_, rfl, hcounts, hnear, hfar⟩
    exact (mem_candidatesAlong_iff hroom hown hin).mpr
      ⟨r, hr, by rwa [hrid], hrid.symm, hrb, hspans, hbeyond, rfl⟩
  · rintro ⟨c, hc, rfl, hcounts, hnear, hfar⟩
    obtain ⟨r, hr, hne, hid, hb, hspans, -, -⟩ := (mem_candidatesAlong_iff hroom hown hin).mp hc
    refine ⟨hid ▸ hne, hcounts, c.bounds, hid ▸ boundsOf_id hkeyed hr hb, ?_⟩
    exact (Rect.contains_iff d (hroom.plain r hr _ hb)).mpr
      ⟨by rwa [along_ahead], by rwa [along_ahead], by rwa [across_ahead]⟩

theorem meets_of_first (hroom : doc.Roomy) (hkeyed : doc.Keyed) (hapart : doc.Apart)
    (hown : doc.boundsOf current = some own) (hin : own.contains exit = true) {c : Candidate}
    (hc : c ∈ candidatesAlong doc current exit d)
    (hcounts : Counts doc.settings.value.offlineEdge online c.machine)
    (hfirst : ∀ e ∈ candidatesAlong doc current exit d,
      Counts doc.settings.value.offlineEdge online e.machine → nearer c e) :
    ∃ k, Meets doc online current exit d k c.machine ∧
      d.ahead exit k = entryPoint c.bounds exit d := by
  obtain ⟨r, hr, -, -, hb, hspans, hbeyond, hdistance⟩ :=
    (mem_candidatesAlong_iff hroom hown hin).mp hc
  have hplain := hroom.plain r hr _ hb
  obtain ⟨k, hk⟩ : ∃ k : ℕ, d.near c.bounds = d.along exit + k :=
    ⟨(d.near c.bounds - d.along exit).toNat, by omega⟩
  obtain ⟨halong, hacross, -⟩ := entryPoint_spec hplain hspans
  refine ⟨k, ⟨?_, fun i hi other htaken => ?_⟩, d.ahead_eq (halong.trans hk) hacross⟩
  · exact (taken_ahead_iff hroom hkeyed hapart hown hin).mpr
      ⟨c, hc, rfl, hcounts, hk.le, hk ▸ d.near_le_far hplain⟩
  · obtain ⟨e, he, -, hecounts, hnear, -⟩ :=
      (taken_ahead_iff hroom hkeyed hapart hown hin).mp htaken
    obtain ⟨-, -, -, -, -, -, -, hedistance⟩ := (mem_candidatesAlong_iff hroom hown hin).mp he
    have hle := nearer_distance_le (hfirst e he hecounts)
    rw [hdistance, hedistance] at hle
    omega

theorem casts_resolveCursor (hroom : doc.Roomy) (hkeyed : doc.Keyed) (hapart : doc.Apart)
    (hown : doc.boundsOf current = some own) (ht : target.InRange) :
    Casts doc online current own target (resolveCursor doc online current target) := by
  have hplain := plain_of_boundsOf hroom hown
  have hexit := Rect.contains_clamp hplain target
  obtain ⟨hin, hs⟩ | ⟨hout, hs⟩ := resolveCursor_cases hown online target
  · rw [hs]
    exact .inside hin
  · cases hd : directionOf (own.clamp target) target with
    | none =>
      refine absurd hd (directionOf_ne_none (Rect.inRange_of_contains hplain hexit) ht ?_)
      intro heq
      rw [heq, hout] at hexit
      cases hexit
    | some d =>
      simp only [hd] at hs
      rw [hs]
      have hsorted := candidatesAlong_pairwise doc current (own.clamp target) d
      obtain ⟨hnone, hskip⟩ | ⟨c, hc, hcounts, hfirst, hchoose⟩ :=
        choose_first doc.settings.value.offlineEdge online hsorted
      · rw [hnone]
        refine .clear hout hd fun k id htaken => ?_
        obtain ⟨e, he, -, hecounts, -⟩ :=
          (taken_ahead_iff hroom hkeyed hapart hown hexit).mp htaken
        exact hskip e he hecounts
      · obtain ⟨k, hmeets, hentry⟩ :=
          meets_of_first hroom hkeyed hapart hown hexit hc hcounts hfirst
        rw [hchoose]
        by_cases honline : c.machine ∈ online
        · simp only [if_pos honline, ← hentry]
          exact .enters hout hd hmeets honline
        · simp only [if_neg honline]
          exact .shut hout hd hmeets honline

/-- The pointer goes where it would go if it looked at one pixel after the other, in the direction
it left in, until it finds one of a machine that the policy takes into account: it enters that
machine there if it is online, and stays at the edge if it is not or there is none. -/
theorem resolveCursor_casts (hroom : doc.Roomy) (hkeyed : doc.Keyed) (hapart : doc.Apart)
    (hown : doc.boundsOf current = some own) (ht : target.InRange) {r : Resolution} :
    resolveCursor doc online current target = r ↔ Casts doc online current own target r := by
  have hcasts : Casts doc online current own target (resolveCursor doc online current target) :=
    casts_resolveCursor hroom hkeyed hapart hown ht
  constructor
  · rintro rfl
    exact hcasts
  · exact hcasts.unique hkeyed hapart

/-- The machine in between is offline and looked past. -/
theorem resolveCursor_casts_row :
    Casts row {1, 3, 4} 1 ⟨0, 0, 100, 100⟩ ⟨130, 50⟩ (.move 3 ⟨200, 50⟩) :=
  (resolveCursor_casts roomy_row keyed_row apart_row (by decide +kernel)
    ⟨by decide, by decide⟩).mp (by decide +kernel)

/-! A pointer pushed about. -/

variable (doc online) in
/-- Where a pointer is, and on which machine, after a push by a pixel. -/
def nudged (spot : MachineId × Point) (d : Direction) : MachineId × Point :=
  match resolveCursor doc online spot.1 (d.ahead spot.2 1) with
  | .stay p => (spot.1, p)
  | .move machine p => (machine, p)

variable (doc online) in
def OnOne (spot : MachineId × Point) : Prop :=
  spot.1 ∈ online ∧ ∃ b ∈ doc.boundsOf spot.1, b.contains spot.2 = true

instance : DecidablePred (OnOne doc online) := fun _ => inferInstanceAs (Decidable (_ ∧ _))

theorem clamp_ahead (h : own.Plain) (hin : own.contains p = true)
    (hout : own.contains (d.ahead p 1) = false) : own.clamp (d.ahead p 1) = p := by
  obtain ⟨hnear, hfar, hspans⟩ := (Rect.contains_iff d h).mp hin
  have hpast : d.far own < d.along p + 1 := by
    by_contra hle
    have hstill : own.contains (d.ahead p 1) = true := by
      rw [Rect.contains_iff d h, along_ahead, across_ahead]
      exact ⟨by omega, by omega, hspans⟩
    rw [hstill] at hout
    cases hout
  refine d.point_eq ?_ ?_
  · rw [Rect.along_clamp d h, along_ahead]
    omega
  · rw [Rect.across_clamp d h (by rwa [across_ahead]), across_ahead]

theorem meets_next (hkeyed : doc.Keyed) (hapart : doc.Apart)
    (hown : doc.boundsOf current = some own) (hin : own.contains p = true)
    (htaken : Taken doc online current id (d.ahead p 1)) : Meets doc online current p d 1 id := by
  refine ⟨htaken, fun i hi other hother => ?_⟩
  obtain rfl : i = 0 := Nat.lt_one_iff.mp hi
  obtain ⟨hne, -, b, hb, hinb⟩ := hother
  have hhere : d.ahead p 0 = p := d.ahead_eq (by simp) rfl
  rw [hhere] at hinb
  exact hne (eq_of_contains hkeyed hapart hb hown hinb hin)

/-- Onto a pixel of an online machine a pointer goes, whether it is on that machine already or
not. -/
theorem nudged_of_onOne (hroom : doc.Roomy) (hkeyed : doc.Keyed) (hapart : doc.Apart)
    (hp : OnOne doc online (m, p)) (hq : OnOne doc online (n, d.ahead p 1)) :
    nudged doc online (m, p) d = (n, d.ahead p 1) := by
  obtain ⟨-, own, hown, hin⟩ : m ∈ online ∧ ∃ b ∈ doc.boundsOf m, b.contains p = true := hp
  obtain ⟨honline, b, hb, hinb⟩ := hq
  have hplain := plain_of_boundsOf hroom hown
  have hrange := Rect.inRange_of_contains (plain_of_boundsOf hroom hb) hinb
  cases hinside : own.contains (d.ahead p 1) with
  | true =>
    obtain rfl := eq_of_contains hkeyed hapart hown hb hinside hinb
    have hstay : resolveCursor doc online m (d.ahead p 1) = .stay (d.ahead p 1) :=
      (casts_resolveCursor hroom hkeyed hapart hown hrange).unique hkeyed hapart (.inside hinside)
    simp only [nudged, hstay]
  | false =>
    have hclamp := clamp_ahead hplain hin hinside
    have hne : n ≠ m := by
      rintro rfl
      obtain rfl := Option.some.inj (hown.symm.trans hb)
      rw [hinb] at hinside
      cases hinside
    have hmeets := meets_next hkeyed hapart hown hin ⟨hne, fun _ => honline, b, hb, hinb⟩
    have hway := directionOf_ahead (Rect.inRange_of_contains hplain hin) hrange
    have hmove : resolveCursor doc online m (d.ahead p 1) = .move n (d.ahead _ 1) :=
      (casts_resolveCursor hroom hkeyed hapart hown hrange).unique hkeyed hapart
        (.enters hinside (hclamp.symm ▸ hway) (hclamp.symm ▸ hmeets) honline)
    rw [hclamp] at hmove
    simp only [nudged, hmove]

def wayFrom (p : Point) (ds : List Direction) : Point := ds.foldl (fun q d => d.ahead q 1) p

/-- A pointer follows any way on online machines pixel by pixel, whichever edges that crosses, and
is always on the machine that it is shown on. -/
theorem nudges_follow (hroom : doc.Roomy) (hkeyed : doc.Keyed) (hapart : doc.Apart)
    {ds : List Direction} (hp : OnOne doc online (m, p))
    (hway : ∀ l, l <+: ds → ∃ n, OnOne doc online (n, wayFrom p l)) :
    ∃ n, OnOne doc online (n, wayFrom p ds) ∧
      ds.foldl (nudged doc online) (m, p) = (n, wayFrom p ds) := by
  induction ds generalizing m p with
  | nil => exact ⟨m, hp, rfl⟩
  | cons d ds ih =>
    obtain ⟨n, hn⟩ := hway [d] (List.prefix_append [d] ds)
    have hstep : nudged doc online (m, p) d = (n, d.ahead p 1) :=
      nudged_of_onOne hroom hkeyed hapart hp hn
    obtain ⟨q, hq, hfold⟩ := ih hn fun l hl => hway (d :: l) (List.cons_prefix_cons.mpr ⟨rfl, hl⟩)
    refine ⟨q, hq, ?_⟩
    rw [List.foldl_cons, hstep]
    exact hfold

/-- To the machine on the right, back one line lower and up to the machine above. -/
theorem nudges_follow_row :
    [right, down, left, up, up].foldl (nudged row {1, 2, 3, 4}) (1, ⟨99, 0⟩) = (4, ⟨99, -1⟩) := by
  have hways : ∀ l ∈ [right, down, left, up, up].inits,
      ∃ n ∈ [1, 2, 4], OnOne row {1, 2, 3, 4} (n, wayFrom ⟨99, 0⟩ l) := by decide +kernel
  have hstart : OnOne row {1, 2, 3, 4} (1, ⟨99, 0⟩) := by decide +kernel
  have hend : OnOne row {1, 2, 3, 4} (4, wayFrom ⟨99, 0⟩ [right, down, left, up, up]) := by
    decide +kernel
  obtain ⟨n, hn, hfold⟩ := nudges_follow roomy_row keyed_row apart_row hstart
    fun l hl => (hways l ((List.mem_inits l _).mpr hl)).imp fun _ h => h.2
  obtain ⟨-, b, hb, hin⟩ := hn
  obtain ⟨-, c, hc, hin'⟩ := hend
  obtain rfl : n = 4 := eq_of_contains keyed_row apart_row hb hc hin hin'
  exact hfold

end Layout
end InputShare

import Mathlib.Data.Prod.Lex
import Mathlib.Data.Set.Function
import Mathlib.Order.Bounds.Basic
import Mathlib.Logic.Function.Basic
import Mathlib.Order.Interval.Set.Defs

/-! Last-writer-wins registers over a Lamport clock: a replica is a clock and one register for
each name, a write is stamped `(time, origin)`, and merging keeps the greater stamp. The ideal
a replica is compared with is a set of writes: what it holds are the greatest writes of the
set, and its clock is the greatest time in it. -/
namespace LastWriter
variable {ι ρ ν : Type*}

structure Write (ι ρ ν : Type*) where
  time : ℕ
  origin : ι
  register : ρ
  value : ν
deriving DecidableEq

def Write.key (w : Write ι ρ ν) : ℕ ×ₗ ι := toLex (w.time, w.origin)

def writesTo (W : Set (Write ι ρ ν)) (r : ρ) : Set (Write ι ρ ν) := {w | w ∈ W ∧ w.register = r}

theorem mem_writesTo {W : Set (Write ι ρ ν)} {r : ρ} {w : Write ι ρ ν} :
    w ∈ writesTo W r ↔ w ∈ W ∧ w.register = r := Iff.rfl

theorem writesTo_union (V W : Set (Write ι ρ ν)) (r : ρ) :
    writesTo (V ∪ W) r = writesTo V r ∪ writesTo W r := by
  ext w
  simp only [mem_writesTo, Set.mem_union]
  tauto

theorem writesTo_singleton_self (w : Write ι ρ ν) : writesTo {w} w.register = {w} := by
  ext v
  simp only [mem_writesTo, Set.mem_singleton_iff]
  exact ⟨And.left, fun h => ⟨h, by rw [h]⟩⟩

theorem writesTo_singleton_of_ne {w : Write ι ρ ν} {r : ρ} (h : w.register ≠ r) :
    writesTo {w} r = ∅ := by
  ext v
  simp only [mem_writesTo, Set.mem_singleton_iff, Set.mem_empty_iff_false, iff_false]
  rintro ⟨rfl, hv⟩
  exact h hv

theorem isGreatest_time_union {V W : Set (Write ι ρ ν)} {c d : ℕ}
    (hc : IsGreatest (Write.time '' V) c) (hd : IsGreatest (Write.time '' W) d) :
    IsGreatest (Write.time '' (V ∪ W)) (max c d) := by
  rw [Set.image_union]
  exact hc.union hd

/-- No two writes to one register carry the same stamp. -/
def Distinct (W : Set (Write ι ρ ν)) : Prop := ∀ r, Set.InjOn Write.key (writesTo W r)

theorem Distinct.mono {V W : Set (Write ι ρ ν)} (h : Distinct W) (hs : V ⊆ W) : Distinct V :=
  fun r => (h r).mono fun _ hw => mem_writesTo.mpr ⟨hs hw.1, hw.2⟩

theorem Distinct.eq {W : Set (Write ι ρ ν)} (h : Distinct W) {a b : Write ι ρ ν} (ha : a ∈ W)
    (hb : b ∈ W) (hr : a.register = b.register) (hk : a.key = b.key) : a = b :=
  h b.register (mem_writesTo.mpr ⟨ha, hr⟩) (mem_writesTo.mpr ⟨hb, rfl⟩) hk

theorem Distinct.insert {W : Set (Write ι ρ ν)} {w : Write ι ρ ν} (h : Distinct W)
    (hw : ∀ v ∈ W, v.origin = w.origin → v.time < w.time) : Distinct (W ∪ {w}) := by
  have hne : ∀ v ∈ W, v.key ≠ w.key := by
    intro v hv he
    have he' : (v.time, v.origin) = (w.time, w.origin) := he
    have ho : v.origin = w.origin := congrArg Prod.snd he'
    have ht : v.time = w.time := congrArg Prod.fst he'
    exact absurd (hw v hv ho) (by omega)
  rintro r a ⟨ha | rfl, har⟩ b ⟨hb | rfl, hbr⟩ he
  · exact h r ⟨ha, har⟩ ⟨hb, hbr⟩ he
  · exact absurd he (hne a ha)
  · exact absurd he.symm (hne b hb)
  · rfl

section Register
variable [LinearOrder ι]

theorem Write.time_le_of_key_le {a b : Write ι ρ ν} (h : a.key ≤ b.key) : a.time ≤ b.time := by
  obtain h | ⟨h, _⟩ := Prod.Lex.toLex_le_toLex.mp h
  · exact h.le
  · exact h.le

theorem Write.key_lt_of_time_lt {a b : Write ι ρ ν} (h : a.time < b.time) : a.key < b.key :=
  Prod.Lex.toLex_lt_toLex.mpr (Or.inl h)

/-- The incoming write replaces the held one only when its stamp is strictly greater. -/
def newer : Option (Write ι ρ ν) → Option (Write ι ρ ν) → Option (Write ι ρ ν)
  | none, b => b
  | some a, none => some a
  | some a, some b => if a.key < b.key then some b else some a

/-- The register is at least as recent as `w`. -/
def Covers (held : Option (Write ι ρ ν)) (w : Write ι ρ ν) : Prop :=
  ∃ a, held = some a ∧ w.key ≤ a.key

/-- The register holds the write with the greatest stamp of the set, or nothing when the set
is empty. -/
def IsLatest (held : Option (Write ι ρ ν)) (W : Set (Write ι ρ ν)) : Prop :=
  (∀ a, held = some a → a ∈ W) ∧ ∀ w ∈ W, Covers held w

@[simp] theorem newer_none (a : Option (Write ι ρ ν)) : newer a none = a := by cases a <;> rfl
@[simp] theorem none_newer (a : Option (Write ι ρ ν)) : newer none a = a := rfl

theorem covers_self (w : Write ι ρ ν) : Covers (some w) w := ⟨w, rfl, le_rfl⟩

theorem Covers.trans_le {held : Option (Write ι ρ ν)} {v w : Write ι ρ ν}
    (h : Covers held w) (hv : v.key ≤ w.key) : Covers held v := by
  obtain ⟨a, ha, hw⟩ := h
  exact ⟨a, ha, hv.trans hw⟩

theorem newer_choice (a b : Option (Write ι ρ ν)) : newer a b = a ∨ newer a b = b := by
  cases a with
  | none => exact .inr rfl
  | some a =>
    cases b with
    | none => exact .inl rfl
    | some b => by_cases h : a.key < b.key <;> simp [newer, h]

theorem Covers.newer_left {a : Option (Write ι ρ ν)} {w : Write ι ρ ν} (h : Covers a w)
    (b : Option (Write ι ρ ν)) : Covers (newer a b) w := by
  obtain ⟨x, rfl, hx⟩ := h
  cases b with
  | none => exact ⟨x, rfl, hx⟩
  | some b =>
    by_cases hlt : x.key < b.key
    · exact ⟨b, by simp [newer, hlt], hx.trans hlt.le⟩
    · exact ⟨x, by simp [newer, hlt], hx⟩

theorem Covers.newer_right {b : Option (Write ι ρ ν)} {w : Write ι ρ ν} (h : Covers b w)
    (a : Option (Write ι ρ ν)) : Covers (newer a b) w := by
  obtain ⟨x, rfl, hx⟩ := h
  cases a with
  | none => exact ⟨x, rfl, hx⟩
  | some a =>
    by_cases hlt : a.key < x.key
    · exact ⟨x, by simp [newer, hlt], hx⟩
    · exact ⟨a, by simp [newer, hlt], hx.trans (not_lt.mp hlt)⟩

/-- The register holds `w`, or a write with a greater stamp. -/
def Retains (held : Option (Write ι ρ ν)) (w : Write ι ρ ν) : Prop :=
  ∃ a, held = some a ∧ (a = w ∨ w.key < a.key)

theorem retains_self (w : Write ι ρ ν) : Retains (some w) w := ⟨w, rfl, .inl rfl⟩

theorem Retains.newer {a : Option (Write ι ρ ν)} {w : Write ι ρ ν} (h : Retains a w)
    (b : Option (Write ι ρ ν)) : Retains (newer a b) w := by
  obtain ⟨x, rfl, hx⟩ := h
  cases b with
  | none => exact ⟨x, rfl, hx⟩
  | some b =>
    by_cases hlt : x.key < b.key
    · refine ⟨b, by simp [LastWriter.newer, hlt], .inr ?_⟩
      obtain rfl | hx := hx
      · exact hlt
      · exact hx.trans hlt
    · exact ⟨x, by simp [LastWriter.newer, hlt], hx⟩

theorem IsLatest.unique {a b : Option (Write ι ρ ν)} {W : Set (Write ι ρ ν)}
    (hinj : Set.InjOn Write.key W) (ha : IsLatest a W) (hb : IsLatest b W) : a = b := by
  cases a with
  | none =>
    cases b with
    | none => rfl
    | some y =>
      obtain ⟨x, hx, _⟩ := ha.2 y (hb.1 y rfl)
      cases hx
  | some x =>
    obtain ⟨y, rfl, hxy⟩ := hb.2 x (ha.1 x rfl)
    obtain ⟨x', hx', hyx⟩ := ha.2 y (hb.1 y rfl)
    cases hx'
    exact congrArg some (hinj (ha.1 x rfl) (hb.1 y rfl) (le_antisymm hxy hyx))

theorem IsLatest.union {a b : Option (Write ι ρ ν)} {V W : Set (Write ι ρ ν)}
    (ha : IsLatest a V) (hb : IsLatest b W) : IsLatest (newer a b) (V ∪ W) := by
  constructor
  · intro x hx
    obtain he | he := newer_choice a b <;> rw [he] at hx
    · exact .inl (ha.1 x hx)
    · exact .inr (hb.1 x hx)
  · rintro w (hw | hw)
    · exact (ha.2 w hw).newer_left b
    · exact (hb.2 w hw).newer_right a

theorem isLatest_singleton (w : Write ι ρ ν) : IsLatest (some w) {w} := by
  constructor
  · rintro a ⟨⟩
    rfl
  · rintro v rfl
    exact covers_self v

theorem newer_comm {W : Set (Write ι ρ ν)} (hinj : Set.InjOn Write.key W)
    {a b : Option (Write ι ρ ν)} (ha : ∀ x, a = some x → x ∈ W) (hb : ∀ x, b = some x → x ∈ W) :
    newer a b = newer b a := by
  cases a with
  | none => simp
  | some x =>
    cases b with
    | none => simp
    | some y =>
      obtain h | h | h := lt_trichotomy x.key y.key
      · simp [newer, h, h.le]
      · have hxy : x = y := hinj (ha x rfl) (hb y rfl) h
        simp [hxy]
      · simp [newer, h, h.le]

def Beats (held incoming : Option (Write ι ρ ν)) : Prop :=
  ∃ y, incoming = some y ∧ ∀ x, held = some x → x.key < y.key

instance : (a b : Option (Write ι ρ ν)) → Decidable (Beats a b)
  | _, none => .isFalse (by simp [Beats])
  | none, some y => .isTrue ⟨y, rfl, by simp⟩
  | some x, some y => decidable_of_iff (x.key < y.key) (by simp [Beats])

theorem newer_ne_left_iff {a b : Option (Write ι ρ ν)} : newer a b ≠ a ↔ Beats a b := by
  cases a with
  | none => cases b <;> simp [Beats]
  | some x =>
    cases b with
    | none => simp [Beats]
    | some y =>
      by_cases h : x.key < y.key
      · have hne : y ≠ x := fun he => lt_irrefl _ (he ▸ h)
        simp [newer, Beats, h, hne]
      · simp [newer, Beats, h]

theorem newer_eq_right_of_beats {a b : Option (Write ι ρ ν)} (h : Beats a b) : newer a b = b :=
  (newer_choice a b).resolve_left (newer_ne_left_iff.mpr h)

theorem newer_newer_right (a b : Option (Write ι ρ ν)) : newer (newer a b) b = newer a b := by
  cases b with
  | none => simp
  | some y =>
    obtain h | h := newer_choice a (some y)
    · rw [h, h]
    · rw [h]
      simp [newer]

theorem newer_assoc (a b c : Option (Write ι ρ ν)) :
    newer (newer a b) c = newer a (newer b c) := by
  cases a with
  | none => rfl
  | some x =>
    cases b with
    | none => rfl
    | some y =>
      cases c with
      | none => simp
      | some z =>
        obtain hxy | hxy := lt_or_ge x.key y.key
        · obtain hyz | hyz := lt_or_ge y.key z.key
          · simp [newer, hxy, hyz, hxy.trans hyz]
          · simp [newer, hxy, not_lt.mpr hyz]
        · obtain hyz | hyz := lt_or_ge y.key z.key
          · simp [newer, not_lt.mpr hxy, hyz]
          · simp [newer, not_lt.mpr hxy, not_lt.mpr hyz, not_lt.mpr (hyz.trans hxy)]

end Register

/-- A clock and the write each register holds. -/
@[ext] structure Replica (ι ρ ν : Type*) where
  clock : ℕ
  held : ρ → Option (Write ι ρ ν)

namespace Replica

/-- A local edit: the write takes its register whatever is there, and sets the clock. -/
def edit [DecidableEq ρ] (R : Replica ι ρ ν) (w : Write ι ρ ν) : Replica ι ρ ν where
  clock := w.time
  held := Function.update R.held w.register (some w)

def take [LinearOrder ι] [DecidableEq ρ] (R : Replica ι ρ ν) (w : Write ι ρ ν) : Replica ι ρ ν where
  clock := max R.clock w.time
  held := Function.update R.held w.register (newer (R.held w.register) (some w))

def join [LinearOrder ι] (R S : Replica ι ρ ν) : Replica ι ρ ν where
  clock := max R.clock S.clock
  held r := newer (R.held r) (S.held r)

def writes (R : Replica ι ρ ν) : Set (Write ι ρ ν) := {w | R.held w.register = some w}

def Filed (R : Replica ι ρ ν) : Prop := ∀ r w, R.held r = some w → w.register = r

theorem Filed.mem_writes {R : Replica ι ρ ν} (h : R.Filed) {r : ρ} {w : Write ι ρ ν}
    (hw : R.held r = some w) : w ∈ R.writes := by
  rw [← h r w hw] at hw
  exact hw

theorem distinct_writes (R : Replica ι ρ ν) : Distinct R.writes := by
  rintro r a ⟨ha, har⟩ b ⟨hb, hbr⟩ _
  have ha' : R.held a.register = some a := ha
  have hb' : R.held b.register = some b := hb
  rw [har] at ha'
  rw [hbr, ha'] at hb'
  exact Option.some.inj hb'

/-- The clock is past every write the replica holds. -/
def Clocked (R : Replica ι ρ ν) : Prop := ∀ r w, R.held r = some w → w.time ≤ R.clock

/-- Where two replicas hold writes of one stamp, they hold the same write. -/
def Agree (R S : Replica ι ρ ν) : Prop :=
  ∀ r x y, R.held r = some x → S.held r = some y → x.key = y.key → x = y

section Lattice
variable [LinearOrder ι]

theorem Clocked.join {R S : Replica ι ρ ν} (hR : R.Clocked) (hS : S.Clocked) :
    (R.join S).Clocked := by
  intro r w hw
  obtain h | h := newer_choice (R.held r) (S.held r)
  · exact (hR r w (h.symm.trans hw)).trans (le_max_left ..)
  · exact (hS r w (h.symm.trans hw)).trans (le_max_right ..)

theorem clocked_iff_of_newer {R T : Replica ι ρ ν} {o : ρ → Option (Write ι ρ ν)}
    (hheld : ∀ r, T.held r = newer (R.held r) (o r)) (hclock : R.clock ≤ T.clock)
    (hR : R.Clocked) : T.Clocked ↔ ∀ r w, o r = some w → w.time ≤ T.clock := by
  constructor
  · intro h r w hw
    have hcovers : Covers (T.held r) w := by
      rw [hheld r, hw]
      exact (covers_self w).newer_right (R.held r)
    obtain ⟨a, ha, hle⟩ := hcovers
    exact (Write.time_le_of_key_le hle).trans (h r a ha)
  · intro h r w hw
    rw [hheld r] at hw
    obtain hc | hc := newer_choice (R.held r) (o r)
    · exact (hR r w (hc.symm.trans hw)).trans hclock
    · exact h r w (hc.symm.trans hw)

theorem Clocked.take [DecidableEq ρ] {R : Replica ι ρ ν} (hR : R.Clocked) (w : Write ι ρ ν) :
    (R.take w).Clocked := by
  refine (clocked_iff_of_newer (o := fun r => if r = w.register then some w else none)
    (fun r => ?_) (le_max_left ..) hR).mpr fun r v hv => ?_
  · by_cases hr : r = w.register
    · subst hr
      simp [Replica.take]
    · simp [Replica.take, hr]
  · by_cases hr : r = w.register
    · obtain rfl : w = v := by simpa [hr] using hv
      exact le_max_right ..
    · simp [hr] at hv

theorem take_changes_iff [DecidableEq ρ] (R : Replica ι ρ ν) (w : Write ι ρ ν) :
    (∃ r, (R.take w).held r ≠ R.held r) ↔ Beats (R.held w.register) (some w) := by
  rw [← newer_ne_left_iff]
  constructor
  · intro h hsame
    obtain ⟨r, hr⟩ := h
    by_cases he : r = w.register
    · subst he
      exact hr (by simpa [take] using hsame)
    · exact hr (by simp [take, he])
  · intro h
    exact ⟨w.register, by simpa [take] using h⟩

theorem join_assoc (R S T : Replica ι ρ ν) : (R.join S).join T = R.join (S.join T) :=
  Replica.ext (max_assoc ..) (funext fun r => newer_assoc (R.held r) (S.held r) (T.held r))

theorem join_join_right (R S : Replica ι ρ ν) : (R.join S).join S = R.join S :=
  Replica.ext (by simp [join]) (funext fun r => newer_newer_right (R.held r) (S.held r))

theorem join_comm {R S : Replica ι ρ ν} (h : Agree R S) : R.join S = S.join R := by
  refine Replica.ext (max_comm ..) (funext fun r => ?_)
  change newer (R.held r) (S.held r) = newer (S.held r) (R.held r)
  cases hx : R.held r with
  | none => simp
  | some x =>
    cases hy : S.held r with
    | none => simp
    | some y =>
      obtain hlt | heq | hlt := lt_trichotomy x.key y.key
      · simp [newer, hlt, hlt.le]
      · rw [h r x y hx hy heq]
      · simp [newer, hlt, hlt.le]

end Lattice

section Ideal
variable [LinearOrder ι]

/-- The replica is what the set of writes `W` amounts to. -/
structure Knows (R : Replica ι ρ ν) (W : Set (Write ι ρ ν)) : Prop where
  latest : ∀ r, IsLatest (R.held r) (writesTo W r)
  clock : IsGreatest (Write.time '' W) R.clock

theorem Knows.filed {R : Replica ι ρ ν} {W : Set (Write ι ρ ν)} (h : R.Knows W) : R.Filed :=
  fun r w hw => ((h.latest r).1 w hw).2

theorem Knows.mem {R : Replica ι ρ ν} {W : Set (Write ι ρ ν)} (h : R.Knows W) {r : ρ}
    {w : Write ι ρ ν} (hw : R.held r = some w) : w ∈ W :=
  ((h.latest r).1 w hw).1

theorem Knows.time_le {R : Replica ι ρ ν} {W : Set (Write ι ρ ν)} (h : R.Knows W)
    {w : Write ι ρ ν} (hw : w ∈ W) : w.time ≤ R.clock :=
  h.clock.2 ⟨w, hw, rfl⟩

theorem Knows.clocked {R : Replica ι ρ ν} {W : Set (Write ι ρ ν)} (h : R.Knows W) : R.Clocked :=
  fun _ _ hw => h.time_le (h.mem hw)

theorem take_eq_self [DecidableEq ρ] {R : Replica ι ρ ν} {w : Write ι ρ ν} (hR : R.Clocked)
    (h : ∀ r, (R.take w).held r = R.held r) : R.take w = R := by
  refine Replica.ext (max_eq_left ?_) (funext h)
  have hkept : newer (R.held w.register) (some w) = R.held w.register := by
    simpa [take] using h w.register
  obtain ⟨a, ha, hle⟩ := hkept ▸ (covers_self w).newer_right (R.held w.register)
  exact (Write.time_le_of_key_le hle).trans (hR w.register a ha)

theorem join_eq_left {R S : Replica ι ρ ν} {W : Set (Write ι ρ ν)} (hR : R.Clocked)
    (hS : S.Knows W) (h : ∀ r, (R.join S).held r = R.held r) : R.join S = R := by
  refine Replica.ext (max_eq_left ?_) (funext h)
  obtain ⟨w, hw, htime⟩ := hS.clock.1
  obtain ⟨a, ha, hwa⟩ := (hS.latest w.register).2 w ⟨hw, rfl⟩
  have hkept : newer (R.held w.register) (some a) = R.held w.register := by
    rw [← ha]
    exact h w.register
  obtain ⟨b, hb, hab⟩ := hkept ▸ (covers_self a).newer_right (R.held w.register)
  rw [← htime]
  exact (Write.time_le_of_key_le (hwa.trans hab)).trans (hR w.register b hb)

/-- A register map over the union of what two maps know, one register at a time. -/
theorem isLatest_update [DecidableEq ρ] {held : ρ → Option (Write ι ρ ν)} {W : Set (Write ι ρ ν)}
    {w : Write ι ρ ν} {x : Option (Write ι ρ ν)} (h : ∀ r, IsLatest (held r) (writesTo W r))
    (hx : IsLatest x (writesTo (W ∪ {w}) w.register)) (r : ρ) :
    IsLatest (Function.update held w.register x r) (writesTo (W ∪ {w}) r) := by
  by_cases hr : r = w.register
  · subst hr
    simpa using hx
  · rw [Function.update_of_ne hr, writesTo_union, writesTo_singleton_of_ne (Ne.symm hr),
      Set.union_empty]
    exact h r

theorem Knows.edit [DecidableEq ρ] {R : Replica ι ρ ν} {W : Set (Write ι ρ ν)} (h : R.Knows W)
    {w : Write ι ρ ν} (hw : R.clock < w.time) : (R.edit w).Knows (W ∪ {w}) := by
  have hlt : ∀ v ∈ W, v.time < w.time := fun v hv => lt_of_le_of_lt (h.time_le hv) hw
  refine ⟨isLatest_update h.latest ⟨?_, ?_⟩, ?_⟩
  · rintro a ⟨⟩
    exact ⟨.inr rfl, rfl⟩
  · rintro v ⟨hv, _⟩
    obtain hv | rfl := hv
    · exact (covers_self w).trans_le (Write.key_lt_of_time_lt (hlt v hv)).le
    · exact covers_self v
  · refine ⟨⟨w, .inr rfl, rfl⟩, ?_⟩
    rintro _ ⟨v, hv | rfl, rfl⟩
    · exact (hlt v hv).le
    · exact le_rfl

theorem Knows.take [DecidableEq ρ] {R : Replica ι ρ ν} {W : Set (Write ι ρ ν)} (h : R.Knows W)
    (w : Write ι ρ ν) : (R.take w).Knows (W ∪ {w}) := by
  refine ⟨isLatest_update h.latest ?_, ?_⟩
  · rw [writesTo_union, writesTo_singleton_self]
    exact (h.latest _).union (isLatest_singleton w)
  · refine isGreatest_time_union h.clock ?_
    rw [Set.image_singleton]
    exact isGreatest_singleton

theorem Knows.join {R S : Replica ι ρ ν} {V W : Set (Write ι ρ ν)} (h : R.Knows V)
    (k : S.Knows W) : (R.join S).Knows (V ∪ W) := by
  refine ⟨fun r => ?_, isGreatest_time_union h.clock k.clock⟩
  rw [writesTo_union]
  exact (h.latest r).union (k.latest r)

theorem Filed.knows_writes {R : Replica ι ρ ν} (h : R.Filed)
    (hc : IsGreatest (Write.time '' R.writes) R.clock) : R.Knows R.writes := by
  refine ⟨fun r => ⟨fun a ha => ⟨h.mem_writes ha, h r a ha⟩, fun w hw => ?_⟩, hc⟩
  obtain ⟨hw, rfl⟩ := hw
  exact ⟨w, hw, le_rfl⟩

/-- A replica knows what it holds: the clock is the time of a write it still has, since only a
write with a greater stamp replaces another. -/
theorem Knows.writes {R : Replica ι ρ ν} {W : Set (Write ι ρ ν)} (h : R.Knows W) :
    R.Knows R.writes := by
  refine h.filed.knows_writes ⟨?_, ?_⟩
  · obtain ⟨w, hw, ht⟩ := h.clock.1
    obtain ⟨a, ha, hwa⟩ := (h.latest w.register).2 w ⟨hw, rfl⟩
    refine ⟨a, h.filed.mem_writes ha, le_antisymm (h.time_le (h.mem ha)) ?_⟩
    rw [← ht]
    exact Write.time_le_of_key_le hwa
  · rintro _ ⟨w, hw, rfl⟩
    exact h.time_le (h.mem hw)

/-- Two replicas that amount to the same writes, with distinct stamps, are equal. -/
theorem Knows.unique {R S : Replica ι ρ ν} {W : Set (Write ι ρ ν)}
    (hd : Distinct W) (h : R.Knows W) (k : S.Knows W) : R = S := by
  refine Replica.ext (h.clock.unique k.clock) (funext fun r => ?_)
  exact (h.latest r).unique (hd r) (k.latest r)

end Ideal
end Replica

end LastWriter

import InputShare.Core.Registers
import InputShare.Lib.Runs

/-! Any number of replicas of one workspace: local edits, updates delivered in any order and any
number of times, and merges of any document a replica ever held. -/
namespace InputShare.Replicas
open LastWriter Runs

structure World where
  doc : MachineId → WorkspaceDoc
  /-- The writes that have reached a replica, directly or inside a merged document. -/
  reached : MachineId → Set DocWrite
  updates : List WorkspaceUpdate
  /-- Every document a replica has held. -/
  documents : List WorkspaceDoc
  edits : ℕ

inductive Action where
  | edit (m : MachineId) (now : ℕ) (op : Op)
  | deliver (m : MachineId) (i : ℕ)
  | merge (m : MachineId) (i : ℕ)

/-- Every replica starts as a copy of one document. -/
def start (d : WorkspaceDoc) : World where
  doc _ := d
  reached _ := d.replica.writes
  updates := []
  documents := [d]
  edits := 0

def World.hold (w : World) (m : MachineId) (d : WorkspaceDoc) (W : Set DocWrite) : World :=
  { w with
    doc := Function.update w.doc m d
    reached := Function.update w.reached m (w.reached m ∪ W)
    documents := w.documents ++ [d] }

def step (w : World) : Action → Option World
  | .edit m now op =>
    let (d, u) := (w.doc m).edit m now op
    some { w.hold m d {u.write} with updates := w.updates ++ [u], edits := w.edits + 1 }
  | .deliver m i =>
    w.updates[i]?.map fun u =>
      match (w.doc m).apply u with
      | .ok (d, _) => w.hold m d {u.write}
      | .error _ => w
  | .merge m i =>
    w.documents[i]?.map fun other =>
      match (w.doc m).merge other with
      | .ok (d, _) => w.hold m d other.replica.writes
      | .error _ => w

/-- The writes of the founding document and of the edits behind a list of updates. -/
def made (base : WorkspaceDoc) (updates : List WorkspaceUpdate) : Set DocWrite :=
  base.replica.writes ∪ {x | ∃ u ∈ updates, u.write = x}

theorem mem_made {base : WorkspaceDoc} {us : List WorkspaceUpdate} {u : WorkspaceUpdate}
    (h : u ∈ us) : u.write ∈ made base us := .inr ⟨u, h, rfl⟩

theorem made_append (base : WorkspaceDoc) (us : List WorkspaceUpdate) (u : WorkspaceUpdate) :
    made base (us ++ [u]) = made base us ∪ {u.write} := by
  have hlast : {x | ∃ v ∈ us ++ [u], v.write = x} =
      {x | ∃ v ∈ us, v.write = x} ∪ {u.write} := by
    ext x
    constructor
    · rintro ⟨v, hv, rfl⟩
      obtain hv | hv := List.mem_append.mp hv
      · exact .inl ⟨v, hv, rfl⟩
      · exact .inr (by rw [List.mem_singleton.mp hv]; rfl)
    · rintro (⟨v, hv, rfl⟩ | rfl)
      · exact ⟨v, List.mem_append_left _ hv, rfl⟩
      · exact ⟨u, by simp, rfl⟩
  rw [made, hlast, ← Set.union_assoc]
  rfl

structure Inv (base : WorkspaceDoc) (w : World) : Prop where
  knows : ∀ m, (w.doc m).replica.Knows (w.reached m)
  reached : ∀ m, w.reached m ⊆ made base w.updates
  distinct : Distinct (made base w.updates)
  /-- A replica's clock is never behind a stamp of its own. -/
  own : ∀ x ∈ made base w.updates, x.time ≤ (w.doc x.origin).lamport
  documents : ∀ d ∈ w.documents, d.workspaceId = base.workspaceId ∧
    d.replica.Knows d.replica.writes ∧ d.replica.writes ⊆ made base w.updates
  updates : ∀ u ∈ w.updates, u.workspaceId = base.workspaceId
  workspace : ∀ m, (w.doc m).workspaceId = base.workspaceId
  clock : ∀ m, (w.doc m).lamport ≤ w.edits + 1

theorem writes_subset {d : WorkspaceDoc} {W V : Set DocWrite} (h : d.replica.Knows W)
    (hV : W ⊆ V) : d.replica.writes ⊆ V :=
  fun _ hx => hV (h.mem hx)

/-- Replica `m` comes to hold `d`, which knows the writes `W` on top of what had reached `m`;
the writes made may grow by some of `m` itself, which the clock of `d` covers. -/
theorem Inv.hold {base : WorkspaceDoc} {w : World} (h : Inv base w) {m : MachineId}
    {d : WorkspaceDoc} {W : Set DocWrite} {us : List WorkspaceUpdate} {n : ℕ}
    (hk : d.replica.Knows (w.reached m ∪ W)) (hW : W ⊆ made base us)
    (hws : d.workspaceId = base.workspaceId) (hle : (w.doc m).lamport ≤ d.lamport)
    (hcl : d.lamport ≤ n + 1) (hn : w.edits ≤ n)
    (hmono : made base w.updates ⊆ made base us) (hdist : Distinct (made base us))
    (hnew : ∀ x ∈ made base us, x ∈ made base w.updates ∨ x.origin = m ∧ x.time ≤ d.lamport)
    (hus : ∀ u ∈ us, u.workspaceId = base.workspaceId) :
    Inv base { w.hold m d W with updates := us, edits := n } := by
  have hsub : w.reached m ∪ W ⊆ made base us :=
    Set.union_subset ((h.reached m).trans hmono) hW
  have hdoc : (w.hold m d W).doc = Function.update w.doc m d := rfl
  have hreach : (w.hold m d W).reached = Function.update w.reached m (w.reached m ∪ W) := rfl
  refine ⟨fun k => ?_, fun k => ?_, hdist, fun x hx => ?_, fun e he => ?_, hus, fun k => ?_,
    fun k => ?_⟩
  · by_cases hkm : k = m
    · subst hkm; simpa [hdoc, hreach] using hk
    · simpa [hdoc, hreach, hkm] using h.knows k
  · by_cases hkm : k = m
    · subst hkm; simpa [hreach] using ⟨(h.reached k).trans hmono, hW⟩
    · simpa [hreach, hkm] using (h.reached k).trans hmono
  · by_cases hxm : x.origin = m
    · rw [show (w.hold m d W).doc x.origin = d by simp [hdoc, hxm]]
      obtain hx | ⟨_, hx⟩ := hnew x hx
      · have := h.own x hx
        rw [hxm] at this
        exact this.trans hle
      · exact hx
    · obtain hx | ⟨hx, _⟩ := hnew x hx
      · simpa [hdoc, hxm] using h.own x hx
      · exact absurd hx hxm
  · obtain he | he := List.mem_append.mp he
    · obtain ⟨h₁, h₂, h₃⟩ := h.documents e he
      exact ⟨h₁, h₂, h₃.trans hmono⟩
    · obtain rfl := List.mem_singleton.mp he
      exact ⟨hws, hk.writes, writes_subset hk hsub⟩
  · by_cases hkm : k = m
    · subst hkm; simpa [hdoc] using hws
    · simpa [hdoc, hkm] using h.workspace k
  · by_cases hkm : k = m
    · subst hkm; simpa [hdoc] using hcl
    · have := h.clock k
      simp only [hdoc, Function.update_of_ne hkm]
      omega

theorem Inv.receive {base : WorkspaceDoc} {w : World} (h : Inv base w) {m : MachineId}
    {d : WorkspaceDoc} {W : Set DocWrite} (hk : d.replica.Knows (w.reached m ∪ W))
    (hW : W ⊆ made base w.updates) (hws : d.workspaceId = base.workspaceId)
    (hcl : d.lamport ≤ w.edits + 1) (hle : (w.doc m).lamport ≤ d.lamport) :
    Inv base (w.hold m d W) :=
  h.hold hk hW hws hle hcl le_rfl subset_rfl h.distinct (fun _ hx => .inl hx) h.updates

theorem Inv.edit {base : WorkspaceDoc} {w t : World} (h : Inv base w) {m : MachineId} {now : ℕ}
    {op : Op} (hlt : w.edits + 1 < u64Size - 1) (hs : step w (.edit m now op) = some t) :
    Inv base t := by
  rcases hdu : (w.doc m).edit m now op with ⟨d, u⟩
  have hd : d = ((w.doc m).edit m now op).1 := by rw [hdu]
  have hu : u = ⟨(w.doc m).workspaceId, (w.doc m).lamport, ((w.doc m).tick m now).2, op⟩ := by
    rw [← WorkspaceDoc.edit_update, hdu]
  have hcl := h.clock m
  have htime : u.write.time = (w.doc m).lamport + 1 := by
    rw [hu]
    exact Nat.mod_eq_of_lt (by unfold u64Size at *; omega)
  have horigin : u.write.origin = m := by rw [hu]; rfl
  have hrep : d.replica = (w.doc m).replica.edit u.write := by
    rw [hd, WorkspaceDoc.edit_replica, hdu]
  have hlam : d.lamport = (w.doc m).lamport + 1 := by
    rw [← WorkspaceDoc.replica_clock, hrep]
    exact htime
  have hk : d.replica.Knows (w.reached m ∪ {u.write}) := by
    rw [hrep]
    exact (h.knows m).edit (by rw [htime, WorkspaceDoc.replica_clock]; omega)
  have hsome : t = { w.hold m d {u.write} with
      updates := w.updates ++ [u], edits := w.edits + 1 } := by
    simp only [step, hdu, Option.some.injEq] at hs
    exact hs.symm
  subst hsome
  refine h.hold hk ?_ ?_ (by omega) (by omega) (by omega) ?_ ?_ ?_ ?_
  · rintro x rfl
    exact mem_made (by simp)
  · rw [hd, WorkspaceDoc.edit_workspaceId]
    exact h.workspace m
  · rw [made_append]
    exact Set.subset_union_left
  · -- the stamp is past every earlier one of this machine
    rw [made_append]
    refine h.distinct.insert fun v hv ho => ?_
    have := h.own v hv
    rw [ho, horigin] at this
    omega
  · intro x hx
    rw [made_append] at hx
    obtain hx | rfl := hx
    · exact .inl hx
    · exact .inr ⟨horigin, by omega⟩
  · intro v hv
    obtain hv | hv := List.mem_append.mp hv
    · exact h.updates v hv
    · rw [List.mem_singleton.mp hv, hu]
      exact h.workspace m

theorem Inv.deliver_eq {base : WorkspaceDoc} {w t : World} (h : Inv base w) {m : MachineId} {i : ℕ}
    (hs : step w (.deliver m i) = some t) :
    ∃ u d, w.updates[i]? = some u ∧ d.replica = (w.doc m).replica.take u.write ∧
      d.workspaceId = (w.doc m).workspaceId ∧ t = w.hold m d {u.write} := by
  obtain ⟨u, hu, ht⟩ := Option.map_eq_some_iff.mp hs
  obtain ⟨d, c, hdc⟩ := WorkspaceDoc.apply_ok_of_workspace (d := w.doc m) (u := u)
    ((h.updates u (List.mem_of_getElem? hu)).trans (h.workspace m).symm)
  obtain ⟨-, hrep, hws⟩ := WorkspaceDoc.apply_spec hdc
  simp only [hdc] at ht
  exact ⟨u, d, hu, hrep, hws, ht.symm⟩

theorem Inv.merge_eq {base : WorkspaceDoc} {w t : World} (h : Inv base w) {m : MachineId} {i : ℕ}
    (hs : step w (.merge m i) = some t) :
    ∃ other d, w.documents[i]? = some other ∧ d.replica = (w.doc m).replica.join other.replica ∧
      d.workspaceId = (w.doc m).workspaceId ∧ t = w.hold m d other.replica.writes := by
  obtain ⟨other, ho, ht⟩ := Option.map_eq_some_iff.mp hs
  obtain ⟨hows, hok, -⟩ := h.documents other (List.mem_of_getElem? ho)
  obtain ⟨d, c, hdc⟩ := WorkspaceDoc.merge_ok_of_workspace (d := w.doc m)
    (hows.trans (h.workspace m).symm)
  obtain ⟨-, hrep, hws⟩ := WorkspaceDoc.merge_spec hdc (WorkspaceDoc.clockBounds_of_knows hok)
  simp only [hdc] at ht
  exact ⟨other, d, ho, hrep, hws, ht.symm⟩

theorem Inv.deliver {base : WorkspaceDoc} {w t : World} (h : Inv base w) {m : MachineId} {i : ℕ}
    (hs : step w (.deliver m i) = some t) : Inv base t := by
  obtain ⟨u, d, hu, hrep, hws, rfl⟩ := h.deliver_eq hs
  have hmade : u.write ∈ made base w.updates := mem_made (List.mem_of_getElem? hu)
  have hclock : d.lamport = max (w.doc m).lamport u.write.time := congrArg Replica.clock hrep
  refine h.receive (by rw [hrep]; exact (h.knows m).take _) ?_ (hws.trans (h.workspace m)) ?_ ?_
  · rintro x rfl
    exact hmade
  · rw [hclock]
    exact max_le (h.clock m) ((h.own _ hmade).trans (h.clock _))
  · rw [hclock]
    exact le_max_left _ _

theorem Inv.merge {base : WorkspaceDoc} {w t : World} (h : Inv base w) {m : MachineId} {i : ℕ}
    (hs : step w (.merge m i) = some t) : Inv base t := by
  obtain ⟨other, d, ho, hrep, hws, rfl⟩ := h.merge_eq hs
  obtain ⟨-, hok, hosub⟩ := h.documents other (List.mem_of_getElem? ho)
  have hclock : d.lamport = max (w.doc m).lamport other.lamport := congrArg Replica.clock hrep
  refine h.receive (by rw [hrep]; exact (h.knows m).join hok) hosub (hws.trans (h.workspace m))
    ?_ ?_
  · -- the clock of the other document is the time of a write made before
    obtain ⟨x, hx, htime⟩ := hok.clock.1
    have := (h.own x (hosub hx)).trans (h.clock _)
    rw [htime] at this
    rw [hclock]
    exact max_le (h.clock m) this
  · rw [hclock]
    exact le_max_left _ _

/-- What a step adds to a world: nothing that was held, written or kept is lost. -/
structure Extends (w t : World) : Prop where
  documents : w.documents ⊆ t.documents
  updates : w.updates ⊆ t.updates
  covers : ∀ m r x, Covers ((w.doc m).held r) x → Covers ((t.doc m).held r) x

theorem Extends.refl (w : World) : Extends w w :=
  ⟨List.Subset.refl _, List.Subset.refl _, fun _ _ _ h => h⟩

theorem extends_hold {w : World} {m : MachineId} {d : WorkspaceDoc} {W : Set DocWrite}
    (h : ∀ r x, Covers ((w.doc m).held r) x → Covers (d.held r) x) : Extends w (w.hold m d W) := by
  refine ⟨List.subset_append_left _ _, List.Subset.refl _, fun k r x hx => ?_⟩
  by_cases hkm : k = m
  · subst hkm
    simpa [World.hold] using h r x hx
  · simpa [World.hold, hkm] using hx

theorem kept_hold {w : World} (h : ∀ k, w.doc k ∈ w.documents) (m : MachineId) (d : WorkspaceDoc)
    (W : Set DocWrite) (k : MachineId) : (w.hold m d W).doc k ∈ (w.hold m d W).documents := by
  by_cases hkm : k = m
  · subst hkm
    simp [World.hold]
  · simp [World.hold, hkm, h k]

theorem Inv.extends_edit {base : WorkspaceDoc} {w : World} (h : Inv base w) {m : MachineId}
    {now : ℕ} {op : Op} (hlt : w.edits + 1 < u64Size - 1) {t : World}
    (hs : step w (.edit m now op) = some t) : Extends w t := by
  have hcl := h.clock m
  have hextends : Extends w (w.hold m ((w.doc m).edit m now op).1
      {((w.doc m).edit m now op).2.write}) := by
    refine extends_hold fun r x hx => ?_
    rw [WorkspaceDoc.held_edit]
    by_cases hr : r = op.register
    · -- the stamp of the edit is past everything the machine has seen
      subst hr
      rw [Function.update_self]
      obtain ⟨a, ha, hle⟩ := hx
      have htime : a.time ≤ (w.doc m).lamport := (h.knows m).time_le ((h.knows m).mem ha)
      have hnew : ((w.doc m).edit m now op).2.write.time = (w.doc m).lamport + 1 := by
        rw [WorkspaceDoc.edit_update]
        exact Nat.mod_eq_of_lt (by unfold u64Size at *; omega)
      refine (covers_self _).trans_le (hle.trans (Write.key_lt_of_time_lt ?_).le)
      omega
    · rwa [Function.update_of_ne hr]
  simp only [step, Option.some.injEq] at hs
  subst hs
  exact ⟨hextends.documents, List.subset_append_left _ _, hextends.covers⟩

theorem Inv.extends_deliver {base : WorkspaceDoc} {w t : World} (h : Inv base w) {m : MachineId}
    {i : ℕ} (hs : step w (.deliver m i) = some t) : Extends w t := by
  obtain ⟨u, d, -, hrep, -, rfl⟩ := h.deliver_eq hs
  refine extends_hold fun r x hx => ?_
  rw [← WorkspaceDoc.replica_held, hrep]
  by_cases hr : r = u.write.register
  · subst hr
    simpa [Replica.take] using hx.newer_left _
  · simpa [Replica.take, hr] using hx

theorem Inv.extends_merge {base : WorkspaceDoc} {w t : World} (h : Inv base w) {m : MachineId}
    {i : ℕ} (hs : step w (.merge m i) = some t) : Extends w t := by
  obtain ⟨other, d, -, hrep, -, rfl⟩ := h.merge_eq hs
  refine extends_hold fun r x hx => ?_
  rw [← WorkspaceDoc.replica_held, hrep]
  exact hx.newer_left _

theorem Inv.agree {base : WorkspaceDoc} {w : World} (h : Inv base w) {m n : MachineId}
    (hmn : ∀ r x, (w.doc m).held r = some x → Covers ((w.doc n).held r) x)
    (hnm : ∀ r x, (w.doc n).held r = some x → Covers ((w.doc m).held r) x) :
    (w.doc m).name = (w.doc n).name ∧ (w.doc m).settings = (w.doc n).settings ∧
      (w.doc m).machines = (w.doc n).machines := by
  have hmade : ∀ k r x, (w.doc k).held r = some x →
      x ∈ made base w.updates ∧ x.register = r := fun k r x hx =>
    ⟨h.reached k ((h.knows k).mem hx), (w.doc k).filed r x hx⟩
  refine WorkspaceDoc.eq_of_held_eq fun r => ?_
  cases hm : (w.doc m).held r with
  | none =>
    cases hn : (w.doc n).held r with
    | none => rfl
    | some y =>
      obtain ⟨a, ha, -⟩ := hnm r y hn
      rw [hm] at ha
      cases ha
  | some x =>
    obtain ⟨y, hn, hxy⟩ := hmn r x hm
    obtain ⟨x', hx', hyx⟩ := hnm r y hn
    obtain rfl := Option.some.inj (hm.symm.trans hx')
    rw [hn]
    obtain ⟨hx, hxr⟩ := hmade m r x hm
    obtain ⟨hy, hyr⟩ := hmade n r y hn
    exact congrArg some (h.distinct.eq hx hy (hxr.trans hyr.symm) (le_antisymm hxy hyx))

theorem stamp_create {ws : WorkspaceId} {now : ℕ} {name : String} {founder : MachineRecord}
    {x : DocWrite} (hx : x ∈ (WorkspaceDoc.create ws now name founder).replica.writes) :
    x.time = 1 ∧ x.origin = founder.id := by
  obtain ⟨time, origin, register, value⟩ := x
  have hx' : (WorkspaceDoc.create ws now name founder).held register =
    some ⟨time, origin, register, value⟩ := hx
  cases register with
  | name =>
    simp only [WorkspaceDoc.held, WorkspaceDoc.create, writeOf, Option.some.injEq,
      Write.mk.injEq] at hx'
    exact ⟨hx'.1.symm, hx'.2.1.symm⟩
  | settings =>
    simp only [WorkspaceDoc.held, WorkspaceDoc.create, writeOf, Option.some.injEq,
      Write.mk.injEq] at hx'
    exact ⟨hx'.1.symm, hx'.2.1.symm⟩
  | slot id =>
    simp only [WorkspaceDoc.held, WorkspaceDoc.create, Std.ExtTreeMap.getElem?_insert,
      Option.map_eq_some_iff] at hx'
    obtain ⟨s, hs, hw⟩ := hx'
    split at hs
    · obtain rfl := Option.some.inj hs
      simp only [MachineSlot.write, writeOf, Write.mk.injEq] at hw
      exact ⟨hw.1.symm, hw.2.1.symm⟩
    · simp at hs

theorem inv_start (ws : WorkspaceId) (now : ℕ) (name : String) (founder : MachineRecord) :
    Inv (WorkspaceDoc.create ws now name founder)
      (start (WorkspaceDoc.create ws now name founder)) := by
  set base := WorkspaceDoc.create ws now name founder with hb
  have hclock : IsGreatest (Write.time '' base.replica.writes) base.replica.clock := by
    refine ⟨⟨writeOf base.name.stamp .name (.name base.name.value), rfl, rfl⟩, ?_⟩
    rintro _ ⟨x, hx, rfl⟩
    exact (stamp_create hx).1.le
  have hk := base.filed.knows_writes hclock
  have hmade : made base (start base).updates = base.replica.writes := by
    simp [made, start]
  refine ⟨fun _ => hk, fun _ => hmade.ge, ?_, fun x hx => ?_, ?_, by simp [start],
    fun _ => rfl, fun _ => le_rfl⟩
  · rw [hmade]
    exact base.replica.distinct_writes
  · rw [hmade] at hx
    exact (stamp_create hx).1.le
  · intro d hd
    obtain rfl := List.mem_singleton.mp hd
    exact ⟨rfl, hk, hmade.ge⟩

theorem edits_mono {w t : World} {a : Action} (h : step w a = some t) : w.edits ≤ t.edits := by
  cases a with
  | edit m now op =>
    simp only [step, Option.some.injEq] at h
    rw [← h]
    exact Nat.le_succ _
  | deliver m i =>
    obtain ⟨u, _, ht⟩ := Option.map_eq_some_iff.mp h
    rw [← ht]
    split <;> exact le_rfl
  | merge m i =>
    obtain ⟨o, _, ht⟩ := Option.map_eq_some_iff.mp h
    rw [← ht]
    split <;> exact le_rfl

theorem Inv.step {base : WorkspaceDoc} {w t : World} {a : Action} (h : Inv base w)
    (hs : step w a = some t) (hlt : t.edits < u64Size - 1) : Inv base t := by
  cases a with
  | edit m now op =>
    refine h.edit ?_ hs
    simp only [Replicas.step, Option.some.injEq] at hs
    rw [← hs] at hlt
    exact hlt
  | deliver m i => exact h.deliver hs
  | merge m i => exact h.merge hs

/-- What a run that ends before the clock can wrap keeps. -/
theorem inv_run {base : WorkspaceDoc} {w t : World} {as : List Action}
    (h : Run step Any w as t) (hw : Inv base w) (hlt : t.edits < u64Size - 1) : Inv base t := by
  induction h with
  | nil => exact hw
  | cons _ hs hrest ih =>
    refine ih (hw.step hs ?_) hlt
    exact lt_of_le_of_lt (hrest.related (R := fun a b => a.edits ≤ b.edits)
      (fun _ => le_rfl) (fun _ _ _ => le_trans) fun _ _ _ _ => edits_mono) hlt

/-- Every register of every replica holds the greatest write that has reached it, so replicas
reached by the same writes agree. -/
theorem registers_hold_latest (ws : WorkspaceId) (now : ℕ) (name : String)
    (founder : MachineRecord) (as : List Action) (w : World)
    (hrun : Run step Any (start (.create ws now name founder)) as w)
    (hlt : w.edits < u64Size - 1) :
    (∀ m r, IsLatest ((w.doc m).held r) (writesTo (w.reached m) r)) ∧
      ∀ m n, w.reached m = w.reached n →
        (w.doc m).name = (w.doc n).name ∧ (w.doc m).settings = (w.doc n).settings ∧
        (w.doc m).machines = (w.doc n).machines ∧ (w.doc m).lamport = (w.doc n).lamport := by
  have h := inv_run hrun (inv_start ws now name founder) hlt
  refine ⟨fun m r => (h.knows m).latest r, fun m n hmn => ?_⟩
  refine WorkspaceDoc.eq_of_replica_eq ((h.knows m).unique (h.distinct.mono (h.reached m)) ?_)
  rw [hmn]
  exact h.knows n

/-- Two machines rename the workspace at once, then one takes the other's update and hands its
whole document back. -/
def renames : List Action :=
  [.edit 1 5 (.setName "Desk"), .edit 2 4 (.setName "Office"), .deliver 1 1, .merge 2 3]

theorem registers_hold_latest_renames :
    ∃ w, Run step Any (start (.create 7 0 "Workspace" studio)) renames w ∧
      (w.doc 1).name.value = "Office" ∧ (w.doc 2).name.value = "Office" ∧
      IsLatest ((w.doc 1).held .name) (writesTo (w.reached 1) .name) := by
  obtain ⟨w, hrun, hw⟩ := run_of_replay step Any
    (start (.create 7 0 "Workspace" studio)) renames
    (fun w => ((w.doc 1).name.value, (w.doc 2).name.value, w.edits))
    (b := ("Office", "Office", 2)) (by decide)
  simp only [Prod.mk.injEq] at hw
  obtain ⟨h₁, h₂, hedits⟩ := hw
  refine ⟨w, hrun, h₁, h₂, ?_⟩
  exact (registers_hold_latest 7 0 "Workspace" studio renames w hrun
    (by rw [hedits]; decide)).1 1 .name

end InputShare.Replicas

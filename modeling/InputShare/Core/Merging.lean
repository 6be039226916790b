import InputShare.Core.Registers

/-! `merge` as the method it is: it changes its receiver, and returns an error or whether the
receiver changed. On documents whose equal stamps carry equal writes it is the join of the
registers, so it is commutative, associative and idempotent. -/
namespace InputShare
open LastWriter

namespace WorkspaceDoc

/-! What the flag says. -/

theorem name_changed_iff (d : WorkspaceDoc) (v : Lww String) :
    (d.name.merge v).2 = true ↔
      Beats (d.held .name) (some (writeOf v.stamp .name (.name v.value))) := by
  rw [Lww.merge_changed_iff]
  simp [Beats, held]

theorem settings_changed_iff (d : WorkspaceDoc) (v : Lww WorkspaceSettings) :
    (d.settings.merge v).2 = true ↔
      Beats (d.held .settings) (some (writeOf v.stamp .settings (.settings v.value))) := by
  rw [Lww.merge_changed_iff]
  simp [Beats, held]

theorem mergeSlot_changed_iff (d : WorkspaceDoc) (id : MachineId) (s : MachineSlot) :
    (d.mergeSlot id s).2 = true ↔ Beats (d.held (.slot id)) (some (s.write id)) := by
  unfold mergeSlot
  cases hs : d.machines[id]? with
  | none => simp [Beats, held, hs]
  | some t =>
    have hold : d.held (.slot id) = some (t.write id) := by simp [held, hs]
    have hbeats : Beats (d.held (.slot id)) (some (s.write id)) ↔ t.stamp.key < s.stamp.key := by
      rw [hold]
      simp [Beats, MachineSlot.write]
    rw [hbeats]
    by_cases hlt : t.stamp.key < s.stamp.key
    · simp [hlt, not_le.mpr hlt]
    · simp [hlt, not_lt.mp hlt]

theorem mergeSlots_changed_iff (l : List (MachineId × MachineSlot))
    (hl : l.Pairwise (fun a b => a.1 ≠ b.1)) (d : WorkspaceDoc) (c : Bool) :
    (mergeSlots (d, c) l).2 = true ↔
      c = true ∨ ∃ id, Beats (d.held (.slot id)) (slotWrite l id) := by
  induction l generalizing d c with
  | nil => simp [mergeSlots, slotWrite, Beats]
  | cons p l ih =>
    obtain ⟨k, s⟩ := p
    obtain ⟨hk, hl⟩ := List.pairwise_cons.mp hl
    have hnone : slotWrite l k = none := by
      simp only [slotWrite, Option.map_eq_none_iff, List.find?_eq_none, decide_eq_true_eq]
      exact fun q hq he => hk q hq he.symm
    have hother : ∀ id, id ≠ k → slotWrite ((k, s) :: l) id = slotWrite l id := by
      intro id hid
      simp [slotWrite, Ne.symm hid]
    have hself : slotWrite ((k, s) :: l) k = some (s.write k) := by simp [slotWrite]
    have hkept : ∀ id, id ≠ k → ((d.observe s.stamp.lamport).mergeSlot k s).1.held (.slot id) =
        d.held (.slot id) := by
      intro id hid
      rw [mergeSlot_held, Function.update_of_ne (by simpa using hid), observe_held]
    rw [mergeSlots, ih hl, Bool.or_eq_true, mergeSlot_changed_iff, observe_held]
    constructor
    · intro h
      obtain (h | h) | ⟨id, h⟩ := h
      · exact .inl h
      · exact .inr ⟨k, by rwa [hself]⟩
      · have hid : id ≠ k := by
          intro he
          subst he
          rw [hnone] at h
          obtain ⟨y, hy, -⟩ := h
          cases hy
        exact .inr ⟨id, by rwa [hother id hid, ← hkept id hid]⟩
    · intro h
      obtain h | ⟨id, h⟩ := h
      · exact .inl (.inl h)
      · by_cases hid : id = k
        · subst hid
          exact .inl (.inr (by rwa [hself] at h))
        · exact .inr ⟨id, by rwa [hkept id hid, ← hother id hid]⟩

/-- `merge` says that something changed exactly when a register now holds another write. -/
theorem merge_changed_iff {d other e : WorkspaceDoc} {c : Bool}
    (h : d.merge other = .ok (e, c)) : c = true ↔ ∃ r, e.held r ≠ d.held r := by
  have hregister : ∀ r, e.held r ≠ d.held r ↔ Beats (d.held r) (other.held r) := by
    intro r
    rw [merge_held h, newer_ne_left_iff]
  obtain ⟨-, he⟩ := merge_eq h
  have hc : c = (mergeSlots _ _).2 := congrArg Prod.snd he
  rw [hc, mergeSlots_changed_iff _ (toList_pairwise_ne _), Bool.or_eq_true, name_changed_iff,
    settings_changed_iff]
  constructor
  · intro h
    obtain (h | h) | ⟨id, h⟩ := h
    · exact ⟨.name, (hregister _).mpr h⟩
    · exact ⟨.settings, (hregister _).mpr h⟩
    · rw [slotWrite_toList] at h
      exact ⟨.slot id, (hregister _).mpr h⟩
  · intro h
    obtain ⟨r, hr⟩ := h
    rw [hregister] at hr
    cases r with
    | name => exact .inl (.inl hr)
    | settings => exact .inl (.inr hr)
    | slot id => exact .inr ⟨id, by rwa [slotWrite_toList]⟩

theorem applyOp_changed_iff (d : WorkspaceDoc) (stamp : Stamp) (op : Op) :
    (d.applyOp stamp op).2 = true ↔
      Beats (d.held op.register) (some (writeOf stamp op.register op.content)) := by
  cases op with
  | setName name => exact d.name_changed_iff ⟨name, stamp⟩
  | setSettings settings => exact d.settings_changed_iff ⟨settings, stamp⟩
  | upsertMachine record => exact d.mergeSlot_changed_iff record.id ⟨stamp, .present record⟩
  | removeMachine id => exact d.mergeSlot_changed_iff id ⟨stamp, .removed⟩

/-- `apply` says that something changed exactly when a register now holds another write. -/
theorem apply_changed_iff {d e : WorkspaceDoc} {u : WorkspaceUpdate} {c : Bool}
    (h : d.apply u = .ok (e, c)) : c = true ↔ ∃ r, e.held r ≠ d.held r := by
  have hheld : e.held = (d.replica.take u.write).held :=
    congrArg Replica.held (apply_spec h).2.1
  have hc : c = ((d.observe u.stamp.lamport).applyOp u.stamp u.op).2 := by
    unfold apply at h
    cases hw : d.checkWorkspace u.workspaceId with
    | error err => simp [hw, bind, Except.bind] at h
    | ok =>
      simp only [hw, bind, Except.bind, pure, Except.pure, Except.ok.injEq] at h
      rw [h]
  rw [hc, applyOp_changed_iff, observe_held, hheld]
  exact (Replica.take_changes_iff d.replica u.write).symm

theorem exists_held_ne_iff {d e : WorkspaceDoc} :
    (∃ r, e.held r ≠ d.held r) ↔
      e.name ≠ d.name ∨ e.settings ≠ d.settings ∨
        ∃ id : MachineId, e.machines[id]? ≠ d.machines[id]? := by
  constructor
  · intro h
    by_contra hall
    simp only [not_or, not_exists, not_not] at hall
    obtain ⟨hn, hs, hm⟩ := hall
    obtain ⟨r, hr⟩ := h
    cases r <;> simp_all [held]
  · intro h
    by_contra hall
    simp only [not_exists, not_not] at hall
    obtain ⟨hn, hs, hm⟩ := eq_of_held_eq hall
    rw [hn, hs, hm] at h
    simp at h

/-! The method itself. -/

def takeSlot (changed : Bool) (p : MachineId × MachineSlot) :
    EStateM CoreError WorkspaceDoc Bool := do
  modify (·.observe p.2.stamp.lamport)
  let c ← modifyGet fun d => (d.mergeSlot p.1 p.2).swap
  return changed || c

/-- `merge` on the document it is called on. -/
def mergeInto (other : WorkspaceDoc) : EStateM CoreError WorkspaceDoc Bool := do
  match (← get).checkWorkspace other.workspaceId with
  | .error err => throw err
  | .ok () =>
    modify (·.observe other.lamport)
    let c₁ ← modifyGet fun d =>
      let (name, c) := d.name.merge other.name
      (c, { d with name := name })
    let c₂ ← modifyGet fun d =>
      let (settings, c) := d.settings.merge other.settings
      (c, { d with settings := settings })
    other.machines.toList.foldlM takeSlot (c₁ || c₂)

theorem takeSlots_run (l : List (MachineId × MachineSlot)) (d : WorkspaceDoc) (c : Bool) :
    (l.foldlM takeSlot c).run d = .ok (mergeSlots (d, c) l).2 (mergeSlots (d, c) l).1 := by
  induction l generalizing d c with
  | nil => rfl
  | cons p l ih =>
    rw [List.foldlM_cons, EStateM.run_bind]
    exact ih _ _

/-- What the method does: the value `merge` computes, or its error on an unchanged receiver. -/
theorem mergeInto_run (d other : WorkspaceDoc) :
    (mergeInto other).run d = match d.merge other with
      | .ok (e, c) => .ok c e
      | .error err => .error err d := by
  unfold mergeInto merge
  rw [EStateM.run_bind]
  cases hc : d.checkWorkspace other.workspaceId with
  | error err => simp [EStateM.run_get, hc, bind, Except.bind]; rfl
  | ok =>
    simp only [EStateM.run_get, hc, bind, Except.bind, pure, Except.pure]
    exact takeSlots_run _ _ _

def merged (d other : WorkspaceDoc) : WorkspaceDoc :=
  match (mergeInto other).run d with
  | .ok _ e => e
  | .error _ e => e

/-- Equal stamps on one register carry the same write. -/
def Consistent (d e : WorkspaceDoc) : Prop :=
  (d.name.stamp.key = e.name.stamp.key → d.name = e.name) ∧
    (d.settings.stamp.key = e.settings.stamp.key → d.settings = e.settings) ∧
    ∀ (id : MachineId) (s t : MachineSlot), d.machines[id]? = some s → e.machines[id]? = some t →
      s.stamp.key = t.stamp.key → s = t

def Clocked (d : WorkspaceDoc) : Prop :=
  d.name.stamp.lamport ≤ d.lamport ∧ d.settings.stamp.lamport ≤ d.lamport ∧
    ∀ (id : MachineId) (s : MachineSlot), d.machines[id]? = some s → s.stamp.lamport ≤ d.lamport

theorem forall_slots_iff {m : Machines} {P : MachineId → MachineSlot → Prop} :
    (∀ p ∈ m.toList, P p.1 p.2) ↔
      ∀ (id : MachineId) (s : MachineSlot), m[id]? = some s → P id s := by
  constructor
  · intro h id s hs
    exact h (id, s) (Std.ExtTreeMap.mem_toList_iff_getElem?_eq_some.mpr hs)
  · intro h p hp
    exact h p.1 p.2 (Std.ExtTreeMap.mem_toList_iff_getElem?_eq_some.mp hp)

theorem clocked_iff_toList {d : WorkspaceDoc} :
    (d.name.stamp.lamport ≤ d.lamport ∧ d.settings.stamp.lamport ≤ d.lamport ∧
      ∀ p ∈ d.machines.toList, p.2.stamp.lamport ≤ d.lamport) ↔ d.Clocked := by
  rw [Clocked, forall_slots_iff (P := fun _ s => s.stamp.lamport ≤ d.lamport)]

instance (d : WorkspaceDoc) : Decidable d.Clocked := decidable_of_iff _ clocked_iff_toList

theorem consistent_iff_toList {d e : WorkspaceDoc} :
    ((d.name.stamp.key = e.name.stamp.key → d.name = e.name) ∧
      (d.settings.stamp.key = e.settings.stamp.key → d.settings = e.settings) ∧
      ∀ p ∈ d.machines.toList, ∀ q ∈ e.machines.toList,
        p.1 = q.1 → p.2.stamp.key = q.2.stamp.key → p.2 = q.2) ↔ Consistent d e := by
  refine and_congr Iff.rfl (and_congr Iff.rfl ?_)
  constructor
  · intro h id s t hs ht hk
    exact h (id, s) (Std.ExtTreeMap.mem_toList_iff_getElem?_eq_some.mpr hs) (id, t)
      (Std.ExtTreeMap.mem_toList_iff_getElem?_eq_some.mpr ht) rfl hk
  · intro h p hp q hq hpq hk
    have hp' := Std.ExtTreeMap.mem_toList_iff_getElem?_eq_some.mp hp
    have hq' := Std.ExtTreeMap.mem_toList_iff_getElem?_eq_some.mp hq
    exact h p.1 p.2 q.2 hp' (hpq ▸ hq') hk

instance (d e : WorkspaceDoc) : Decidable (Consistent d e) :=
  decidable_of_iff _ consistent_iff_toList

def SameState (d e : WorkspaceDoc) : Prop :=
  d.name = e.name ∧ d.settings = e.settings ∧ d.machines = e.machines ∧ d.lamport = e.lamport

theorem Consistent.agree {d e : WorkspaceDoc} (h : Consistent d e) :
    Replica.Agree d.replica e.replica := by
  obtain ⟨hn, hs, hm⟩ := h
  intro r x y hx hy hk
  cases r with
  | name =>
    obtain rfl := Option.some.inj hx
    obtain rfl := Option.some.inj hy
    rw [hn hk]
  | settings =>
    obtain rfl := Option.some.inj hx
    obtain rfl := Option.some.inj hy
    rw [hs hk]
  | slot id =>
    obtain ⟨s, hsd, rfl⟩ := Option.map_eq_some_iff.mp hx
    obtain ⟨t, hte, rfl⟩ := Option.map_eq_some_iff.mp hy
    rw [hm id s t hsd hte hk]

theorem clocked_iff {d : WorkspaceDoc} : d.Clocked ↔ d.replica.Clocked := by
  constructor
  · intro h r w hw
    obtain ⟨hn, hs, hm⟩ := h
    cases r with
    | name =>
      obtain rfl := Option.some.inj hw
      exact hn
    | settings =>
      obtain rfl := Option.some.inj hw
      exact hs
    | slot id =>
      obtain ⟨s, hsd, rfl⟩ := Option.map_eq_some_iff.mp hw
      exact hm id s hsd
  · intro h
    refine ⟨h .name _ rfl, h .settings _ rfl, fun id s hs => ?_⟩
    exact h (.slot id) (s.write id) (by simp [held, hs])

theorem Clocked.clockBounds {d : WorkspaceDoc} (h : d.Clocked) : d.ClockBounds := h.2.2

theorem eq_of_fields {d e : WorkspaceDoc} (hw : d.workspaceId = e.workspaceId)
    (hv : d.schemaVersion = e.schemaVersion) (h : SameState d e) : d = e := by
  obtain ⟨hn, hs, hm, hl⟩ := h
  cases d
  cases e
  simp_all

theorem mergeInto_ok {d other : WorkspaceDoc} (hw : other.workspaceId = d.workspaceId)
    (ho : other.Clocked) :
    ∃ c, (mergeInto other).run d = .ok c (d.merged other) ∧
      (d.merged other).replica = d.replica.join other.replica ∧
      (d.merged other).workspaceId = d.workspaceId ∧
      (c = true ↔ (d.merged other).name ≠ d.name ∨ (d.merged other).settings ≠ d.settings ∨
        ∃ id : MachineId, (d.merged other).machines[id]? ≠ d.machines[id]?) := by
  obtain ⟨e, c, h⟩ := merge_ok_of_workspace hw
  have hrun : (mergeInto other).run d = .ok c e := by rw [mergeInto_run, h]
  have he : d.merged other = e := by rw [merged, hrun]
  obtain ⟨-, hjoin, hid⟩ := merge_spec h ho.clockBounds
  rw [he]
  exact ⟨c, hrun, hjoin, hid, (merge_changed_iff h).trans exists_held_ne_iff⟩

theorem Clocked.merged {d other : WorkspaceDoc} (hw : other.workspaceId = d.workspaceId)
    (hd : d.Clocked) (ho : other.Clocked) : (d.merged other).Clocked := by
  obtain ⟨-, -, hjoin, -⟩ := mergeInto_ok hw ho
  rw [clocked_iff, hjoin]
  exact (clocked_iff.mp hd).join (clocked_iff.mp ho)

theorem merged_again {a b : WorkspaceDoc} (hw : b.workspaceId = a.workspaceId) (kb : b.Clocked) :
    (mergeInto b).run (a.merged b) = .ok false (a.merged b) := by
  obtain ⟨-, -, hjoin, hid, -⟩ := mergeInto_ok hw kb
  obtain ⟨e, c, h⟩ := merge_ok_of_workspace (hw.trans hid.symm)
  obtain ⟨-, hagain, hide⟩ := merge_spec h kb.clockBounds
  have hreplica : e.replica = (a.merged b).replica := by
    rw [hagain, hjoin, Replica.join_join_right]
  have he : e = a.merged b := eq_of_fields hide (merge_schemaVersion h) (eq_of_replica_eq hreplica)
  have hc : c = false := by
    rw [← Bool.not_eq_true, merge_changed_iff h, he]
    simp
  rw [mergeInto_run, h, hc, he]

/-- Merging is commutative, associative and idempotent on what the documents say, its flag tells
whether the receiver changed, and across workspaces it refuses and changes nothing. -/
theorem merge_laws {a b c : WorkspaceDoc} (hb : b.workspaceId = a.workspaceId)
    (hc : c.workspaceId = a.workspaceId) (hab : Consistent a b) (ka : a.Clocked) (kb : b.Clocked)
    (kc : c.Clocked) :
    SameState (a.merged b) (b.merged a) ∧
      SameState ((a.merged b).merged c) (a.merged (b.merged c)) ∧
      (mergeInto b).run (a.merged b) = .ok false (a.merged b) ∧
      (∃ changed, (mergeInto b).run a = .ok changed (a.merged b) ∧
        (changed = true ↔ (a.merged b).name ≠ a.name ∨ (a.merged b).settings ≠ a.settings ∨
          ∃ id : MachineId, (a.merged b).machines[id]? ≠ a.machines[id]?)) ∧
      ∀ other : WorkspaceDoc, other.workspaceId ≠ a.workspaceId →
        (mergeInto other).run a =
          .error (.workspaceMismatch other.workspaceId a.workspaceId) a := by
  obtain ⟨changed, hrun, hjoin, hid, hflag⟩ := mergeInto_ok hb kb
  obtain ⟨-, -, hjoin', -, -⟩ := mergeInto_ok hb.symm ka
  have hcb : c.workspaceId = b.workspaceId := hc.trans hb.symm
  obtain ⟨-, -, hbc, hidbc, -⟩ := mergeInto_ok hcb kc
  obtain ⟨-, -, hleft, -, -⟩ := mergeInto_ok (hc.trans hid.symm) kc
  obtain ⟨-, -, hright, -, -⟩ := mergeInto_ok (hidbc.trans hb) (kb.merged hcb kc)
  refine ⟨eq_of_replica_eq ?_, eq_of_replica_eq ?_, merged_again hb kb, ⟨changed, hrun, hflag⟩, ?_⟩
  · rw [hjoin, hjoin']
    exact Replica.join_comm hab.agree
  · rw [hleft, hright, hjoin, hbc]
    exact Replica.join_assoc ..
  · intro other ho
    have hm : a.merge other = .error (.workspaceMismatch other.workspaceId a.workspaceId) := by
      simp [merge, checkWorkspace, ho, bind, Except.bind]
    rw [mergeInto_run, hm]

theorem merge_laws_of_three_edits :
    let a := (together.setName 1 5 "Desk").1
    let b := (together.setSettings 2 6 { WorkspaceSettings.default with autostart := false }).1
    let c := (together.removeMachine 1 7 2).1
    a.merged b ≠ a ∧ SameState (a.merged b) (b.merged a) ∧
      SameState ((a.merged b).merged c) (a.merged (b.merged c)) ∧
      (mergeInto b).run (a.merged b) = .ok false (a.merged b) := by
  refine ⟨by decide +kernel, ?_⟩
  obtain ⟨hcomm, hassoc, hidem, -⟩ := merge_laws (a := (together.setName 1 5 "Desk").1)
    (b := (together.setSettings 2 6 { WorkspaceSettings.default with autostart := false }).1)
    (c := (together.removeMachine 1 7 2).1) (by decide) (by decide) (by decide +kernel)
    (by decide +kernel) (by decide +kernel) (by decide +kernel)
  exact ⟨hcomm, hassoc, hidem⟩

end WorkspaceDoc
end InputShare

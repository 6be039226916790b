import InputShare.Core.Model
import InputShare.Lib.LastWriter

/-! The document as a replica of last-writer-wins registers: one for the name, one for the
settings and one for each machine slot. The local edits, `apply` and `merge` are the abstract
edit, take and join. -/
namespace InputShare
open LastWriter

inductive Register where
  | name
  | settings
  | slot (id : MachineId)
deriving DecidableEq

inductive Content where
  | name (value : String)
  | settings (value : WorkspaceSettings)
  | slot (state : SlotState)
deriving DecidableEq

/-- A write to the document: its stamp, its register, and what it stores with the wall clock. -/
abbrev DocWrite := Write MachineId Register (Content × ℕ)

def writeOf (stamp : Stamp) (r : Register) (c : Content) : DocWrite :=
  ⟨stamp.lamport, stamp.origin, r, (c, stamp.wallClockMs)⟩

@[simp] theorem writeOf_key (s : Stamp) (r : Register) (c : Content) :
    (writeOf s r c).key = s.key := rfl
@[simp] theorem writeOf_register (s : Stamp) (r : Register) (c : Content) :
    (writeOf s r c).register = r := rfl
@[simp] theorem writeOf_time (s : Stamp) (r : Register) (c : Content) :
    (writeOf s r c).time = s.lamport := rfl
@[simp] theorem writeOf_origin (s : Stamp) (r : Register) (c : Content) :
    (writeOf s r c).origin = s.origin := rfl

theorem writeOf_inj {s t : Stamp} {r q : Register} {c e : Content} :
    writeOf s r c = writeOf t q e ↔ s = t ∧ r = q ∧ c = e := by
  cases s; cases t
  simp only [writeOf, Write.mk.injEq, Prod.mk.injEq, Stamp.mk.injEq]
  tauto

def Op.register : Op → Register
  | .setName _ => .name
  | .setSettings _ => .settings
  | .upsertMachine record => .slot record.id
  | .removeMachine id => .slot id

def Op.content : Op → Content
  | .setName name => .name name
  | .setSettings settings => .settings settings
  | .upsertMachine record => .slot (.present record)
  | .removeMachine _ => .slot .removed

def WorkspaceUpdate.write (u : WorkspaceUpdate) : DocWrite :=
  writeOf u.stamp u.op.register u.op.content

def WorkspaceUpdate.slot (u : WorkspaceUpdate) (id : MachineId) : Option MachineSlot :=
  match u.op with
  | .upsertMachine record => if record.id = id then some ⟨u.stamp, .present record⟩ else none
  | .removeMachine gone => if gone = id then some ⟨u.stamp, .removed⟩ else none
  | _ => none

theorem WorkspaceUpdate.slot_eq_some {u : WorkspaceUpdate} {id : MachineId} {slot : MachineSlot}
    (h : u.slot id = some slot) :
    (∃ record, u.op = .upsertMachine record ∧ record.id = id ∧ slot.state = .present record) ∨
      u.op = .removeMachine id ∧ slot.state = .removed := by
  unfold WorkspaceUpdate.slot at h
  cases hop : u.op with
  | setName name => simp [hop] at h
  | setSettings settings => simp [hop] at h
  | upsertMachine record =>
    simp only [hop] at h
    split at h
    · rename_i hid
      obtain rfl := Option.some.inj h
      exact .inl ⟨record, rfl, hid, rfl⟩
    · cases h
  | removeMachine gone =>
    simp only [hop] at h
    split at h
    · rename_i hid
      obtain rfl := Option.some.inj h
      exact .inr ⟨by rw [hid], rfl⟩
    · cases h

theorem WorkspaceUpdate.slot_stamp {u : WorkspaceUpdate} {id : MachineId} {slot : MachineSlot}
    (h : u.slot id = some slot) : slot.stamp = u.stamp := by
  unfold WorkspaceUpdate.slot at h
  split at h
  case h_3 => cases h
  all_goals
    split at h
    · rw [← Option.some.inj h]
    · cases h

def MachineSlot.write (id : MachineId) (s : MachineSlot) : DocWrite :=
  writeOf s.stamp (.slot id) (.slot s.state)

namespace WorkspaceDoc

def held (d : WorkspaceDoc) : Register → Option DocWrite
  | .name => some (writeOf d.name.stamp .name (.name d.name.value))
  | .settings => some (writeOf d.settings.stamp .settings (.settings d.settings.value))
  | .slot id => d.machines[id]?.map (MachineSlot.write id)

def replica (d : WorkspaceDoc) : Replica MachineId Register (Content × ℕ) :=
  ⟨d.lamport, d.held⟩

@[simp] theorem replica_clock (d : WorkspaceDoc) : d.replica.clock = d.lamport := rfl
@[simp] theorem replica_held (d : WorkspaceDoc) : d.replica.held = d.held := rfl

theorem filed (d : WorkspaceDoc) : d.replica.Filed := by
  intro r w hw
  cases r with
  | name => simp only [replica_held, held, Option.some.injEq] at hw; simp [← hw]
  | settings => simp only [replica_held, held, Option.some.injEq] at hw; simp [← hw]
  | slot id =>
    simp only [replica_held, held, Option.map_eq_some_iff] at hw
    obtain ⟨s, _, rfl⟩ := hw
    rfl

theorem held_slot_inj (id : MachineId) {a b : Option MachineSlot}
    (h : a.map (MachineSlot.write id) = b.map (MachineSlot.write id)) : a = b := by
  refine Option.map_injective ?_ h
  intro s t hst
  simp only [MachineSlot.write, writeOf_inj, Content.slot.injEq, true_and] at hst
  cases s; cases t
  simp_all

theorem eq_of_held_eq {d e : WorkspaceDoc} (hh : ∀ r, d.held r = e.held r) :
    d.name = e.name ∧ d.settings = e.settings ∧ d.machines = e.machines := by
  refine ⟨?_, ?_, Std.ExtTreeMap.ext_getElem? fun id => ?_⟩
  · have hn := hh .name
    simp only [held, Option.some.injEq, writeOf_inj, Content.name.injEq, true_and] at hn
    cases hd : d.name; cases he : e.name
    simp_all
  · have hn := hh .settings
    simp only [held, Option.some.injEq, writeOf_inj, Content.settings.injEq, true_and] at hn
    cases hd : d.settings; cases he : e.settings
    simp_all
  · exact held_slot_inj id (hh (.slot id))

theorem eq_of_replica_eq {d e : WorkspaceDoc} (h : d.replica = e.replica) :
    d.name = e.name ∧ d.settings = e.settings ∧ d.machines = e.machines ∧
      d.lamport = e.lamport := by
  obtain ⟨h₁, h₂, h₃⟩ := eq_of_held_eq fun r => congrFun (congrArg Replica.held h) r
  exact ⟨h₁, h₂, h₃, congrArg Replica.clock h⟩

/-! Local edits. -/

theorem tick_lamport (d : WorkspaceDoc) (origin : MachineId) (now : ℕ) :
    (d.tick origin now).2.lamport = (d.lamport + 1) % u64Size := rfl

theorem held_insert (d : WorkspaceDoc) (id : MachineId) (s : MachineSlot) :
    ({ d with machines := d.machines.insert id s } : WorkspaceDoc).held =
      Function.update d.held (.slot id) (some (s.write id)) := by
  funext r
  cases r with
  | name => rw [Function.update_of_ne (by simp)]; rfl
  | settings => rw [Function.update_of_ne (by simp)]; rfl
  | slot k =>
    by_cases hk : k = id
    · subst hk
      simp [held]
    · rw [Function.update_of_ne (by simpa using hk)]
      have hne : compare id k ≠ .eq := by simpa [Nat.compare_eq_eq] using Ne.symm hk
      simp [held, Std.ExtTreeMap.getElem?_insert, hne]

theorem edit_replica (d : WorkspaceDoc) (origin : MachineId) (now : ℕ) (op : Op) :
    (d.edit origin now op).1.replica = d.replica.edit (d.edit origin now op).2.write := by
  cases op with
  | setName name =>
    refine Replica.ext rfl ?_
    funext r
    cases r <;> rfl
  | setSettings settings =>
    refine Replica.ext rfl ?_
    funext r
    cases r <;> rfl
  | upsertMachine record =>
    exact Replica.ext rfl (held_insert (d.tick origin now).1 record.id _)
  | removeMachine id => exact Replica.ext rfl (held_insert (d.tick origin now).1 id _)

theorem edit_update (d : WorkspaceDoc) (origin : MachineId) (now : ℕ) (op : Op) :
    (d.edit origin now op).2 = ⟨d.workspaceId, d.lamport, (d.tick origin now).2, op⟩ := by
  cases op <;> rfl

theorem edit_workspaceId (d : WorkspaceDoc) (origin : MachineId) (now : ℕ) (op : Op) :
    (d.edit origin now op).1.workspaceId = d.workspaceId := by
  cases op <;> rfl

/-! One update from a peer. -/

theorem observe_held (d : WorkspaceDoc) (n : ℕ) : (d.observe n).held = d.held := by
  funext r
  cases r <;> rfl

theorem mergeSlot_held (d : WorkspaceDoc) (id : MachineId) (s : MachineSlot) :
    (d.mergeSlot id s).1.held =
      Function.update d.held (.slot id) (newer (d.held (.slot id)) (some (s.write id))) := by
  unfold mergeSlot
  split
  · rename_i t ht
    have hold : d.held (.slot id) = some (t.write id) := by simp [held, ht]
    split
    · rename_i hge
      have hle : ¬ (t.write id).key < (s.write id).key := not_lt.mpr hge
      rw [hold, newer, if_neg hle, ← hold, Function.update_eq_self]
    · rename_i hlt
      have hlt' : (t.write id).key < (s.write id).key := not_le.mp hlt
      rw [held_insert, hold, newer, if_pos hlt']
  · rename_i hnone
    rw [held_insert, show d.held (.slot id) = none by simp [held, hnone], none_newer]

theorem mergeSlot_kept (d : WorkspaceDoc) (id : MachineId) (s : MachineSlot) :
    ∃ ms, (d.mergeSlot id s).1 = { d with machines := ms } := by
  unfold mergeSlot
  split
  · split
    · exact ⟨d.machines, rfl⟩
    · exact ⟨_, rfl⟩
  · exact ⟨_, rfl⟩

theorem mergeSlot_lamport (d : WorkspaceDoc) (id : MachineId) (s : MachineSlot) :
    (d.mergeSlot id s).1.lamport = d.lamport := by
  obtain ⟨ms, h⟩ := d.mergeSlot_kept id s
  rw [h]

theorem merge_name_held (d : WorkspaceDoc) (v : Lww String) :
    ({ d with name := (d.name.merge v).1 } : WorkspaceDoc).held =
      Function.update d.held .name
        (newer (d.held .name) (some (writeOf v.stamp .name (.name v.value)))) := by
  funext r
  cases r with
  | name =>
    by_cases h : d.name.stamp.key < v.stamp.key <;> simp [held, newer, Lww.merge, h]
  | settings => rfl
  | slot id => rfl

theorem merge_settings_held (d : WorkspaceDoc) (v : Lww WorkspaceSettings) :
    ({ d with settings := (d.settings.merge v).1 } : WorkspaceDoc).held =
      Function.update d.held .settings
        (newer (d.held .settings) (some (writeOf v.stamp .settings (.settings v.value)))) := by
  funext r
  cases r with
  | settings =>
    by_cases h : d.settings.stamp.key < v.stamp.key <;> simp [held, newer, Lww.merge, h]
  | name => rfl
  | slot id => rfl

theorem applyOp_held (d : WorkspaceDoc) (stamp : Stamp) (op : Op) :
    (d.applyOp stamp op).1.held = Function.update d.held op.register
      (newer (d.held op.register) (some (writeOf stamp op.register op.content))) := by
  cases op with
  | setName name => exact merge_name_held d ⟨name, stamp⟩
  | setSettings settings => exact merge_settings_held d ⟨settings, stamp⟩
  | upsertMachine record => exact mergeSlot_held d record.id ⟨stamp, .present record⟩
  | removeMachine id => exact mergeSlot_held d id ⟨stamp, .removed⟩

theorem applyOp_kept (d : WorkspaceDoc) (stamp : Stamp) (op : Op) :
    (d.applyOp stamp op).1.lamport = d.lamport ∧
      (d.applyOp stamp op).1.workspaceId = d.workspaceId ∧
      (d.applyOp stamp op).1.schemaVersion = d.schemaVersion := by
  cases op with
  | setName name | setSettings settings => exact ⟨rfl, rfl, rfl⟩
  | upsertMachine record =>
    obtain ⟨ms, h⟩ := d.mergeSlot_kept record.id ⟨stamp, .present record⟩
    simp only [applyOp, h, and_self]
  | removeMachine id =>
    obtain ⟨ms, h⟩ := d.mergeSlot_kept id ⟨stamp, .removed⟩
    simp only [applyOp, h, and_self]

theorem checkWorkspace_ok {d : WorkspaceDoc} {w : WorkspaceId} :
    d.checkWorkspace w = .ok () ↔ w = d.workspaceId := by
  unfold checkWorkspace
  split <;> simp_all

/-- Everything `apply` does when it returns: the update was of this workspace, and its write was
taken into its register. -/
theorem apply_spec {d e : WorkspaceDoc} {u : WorkspaceUpdate} {c : Bool}
    (h : d.apply u = .ok (e, c)) :
    u.workspaceId = d.workspaceId ∧ e.replica = d.replica.take u.write ∧
      e.workspaceId = d.workspaceId := by
  unfold apply at h
  cases hc : d.checkWorkspace u.workspaceId with
  | error err => simp [hc, bind, Except.bind] at h
  | ok =>
    simp only [hc, bind, Except.bind, pure, Except.pure, Except.ok.injEq] at h
    have he : e = ((d.observe u.stamp.lamport).applyOp u.stamp u.op).1 := by rw [h]
    subst he
    obtain ⟨hlamport, hws, -⟩ := (d.observe u.stamp.lamport).applyOp_kept u.stamp u.op
    refine ⟨checkWorkspace_ok.mp hc, Replica.ext hlamport ?_, hws⟩
    have := applyOp_held (d.observe u.stamp.lamport) u.stamp u.op
    rwa [observe_held] at this

theorem apply_ok_of_workspace {d : WorkspaceDoc} {u : WorkspaceUpdate}
    (h : u.workspaceId = d.workspaceId) : ∃ e c, d.apply u = .ok (e, c) := by
  refine ⟨((d.observe u.stamp.lamport).applyOp u.stamp u.op).1,
    ((d.observe u.stamp.lamport).applyOp u.stamp u.op).2, ?_⟩
  simp [apply, checkWorkspace_ok.mpr h, bind, Except.bind, pure, Except.pure]

/-! A whole document from a peer. -/

def slotWrite (l : List (MachineId × MachineSlot)) (id : MachineId) : Option DocWrite :=
  (l.find? (·.1 = id)).map fun p => p.2.write id

theorem mergeSlots_held_of_not_slot (l : List (MachineId × MachineSlot)) {r : Register}
    (hr : ∀ id, r ≠ .slot id) (d : WorkspaceDoc) (c : Bool) :
    (mergeSlots (d, c) l).1.held r = d.held r := by
  induction l generalizing d c with
  | nil => rfl
  | cons p l ih =>
    obtain ⟨id, s⟩ := p
    rw [mergeSlots, ih, mergeSlot_held, Function.update_of_ne (hr id), observe_held]

theorem mergeSlots_held (l : List (MachineId × MachineSlot))
    (hl : l.Pairwise (fun a b => a.1 ≠ b.1)) (id : MachineId) (d : WorkspaceDoc) (c : Bool) :
    (mergeSlots (d, c) l).1.held (.slot id) = newer (d.held (.slot id)) (slotWrite l id) := by
  induction l generalizing d c with
  | nil => simp [mergeSlots, slotWrite]
  | cons p l ih =>
    obtain ⟨k, s⟩ := p
    obtain ⟨hk, hl⟩ := List.pairwise_cons.mp hl
    rw [mergeSlots, ih hl, mergeSlot_held, observe_held]
    by_cases hid : k = id
    · subst hid
      have hnone : slotWrite l k = none := by
        simp only [slotWrite, Option.map_eq_none_iff, List.find?_eq_none, decide_eq_true_eq]
        exact fun q hq he => hk q hq he.symm
      have hsome : slotWrite ((k, s) :: l) k = some (s.write k) := by simp [slotWrite]
      rw [hnone, hsome, newer_none, Function.update_self]
    · have hne : Register.slot id ≠ .slot k := by simpa using Ne.symm hid
      rw [Function.update_of_ne hne]
      simp [slotWrite, hid]

theorem mergeSlots_lamport (l : List (MachineId × MachineSlot)) (d : WorkspaceDoc) (c : Bool)
    (n : ℕ) (hd : d.lamport = n) (hl : ∀ p ∈ l, p.2.stamp.lamport ≤ n) :
    (mergeSlots (d, c) l).1.lamport = n := by
  induction l generalizing d c with
  | nil => exact hd
  | cons p l ih =>
    obtain ⟨id, s⟩ := p
    rw [mergeSlots]
    refine ih ((d.observe s.stamp.lamport).mergeSlot id s).1 _ ?_
      fun q hq => hl q (List.mem_cons_of_mem _ hq)
    have hs : s.stamp.lamport ≤ n := hl _ List.mem_cons_self
    rw [mergeSlot_lamport, observe, hd]
    exact max_eq_left hs

theorem mergeSlots_kept (l : List (MachineId × MachineSlot)) (d : WorkspaceDoc) (c : Bool) :
    (mergeSlots (d, c) l).1.workspaceId = d.workspaceId ∧
      (mergeSlots (d, c) l).1.schemaVersion = d.schemaVersion := by
  induction l generalizing d c with
  | nil => exact ⟨rfl, rfl⟩
  | cons p l ih =>
    obtain ⟨id, s⟩ := p
    obtain ⟨ms, h⟩ := (d.observe s.stamp.lamport).mergeSlot_kept id s
    rw [mergeSlots, (ih _ _).1, (ih _ _).2, h]
    exact ⟨rfl, rfl⟩

theorem slotWrite_toList (d : WorkspaceDoc) (id : MachineId) :
    slotWrite d.machines.toList id = d.held (.slot id) := by
  unfold slotWrite held
  cases hf : d.machines.toList.find? (·.1 = id) with
  | none =>
    simp only [List.find?_eq_none, decide_eq_true_eq] at hf
    have hnone : d.machines[id]? = none := by
      cases hs : d.machines[id]? with
      | none => rfl
      | some s => exact absurd rfl (hf _ (Std.ExtTreeMap.mem_toList_iff_getElem?_eq_some.mpr hs))
    simp [hnone]
  | some p =>
    obtain ⟨k, s⟩ := p
    have hk : k = id := by simpa using List.find?_some hf
    subst hk
    have hs := Std.ExtTreeMap.mem_toList_iff_getElem?_eq_some.mp (List.mem_of_find?_eq_some hf)
    simp [hs]

theorem toList_pairwise_ne (m : Machines) : m.toList.Pairwise (fun a b => a.1 ≠ b.1) :=
  Std.ExtTreeMap.distinct_keys_toList.imp fun h he => h (by simp [he])

theorem merge_eq {d other e : WorkspaceDoc} {c : Bool} (h : d.merge other = .ok (e, c)) :
    other.workspaceId = d.workspaceId ∧
      (e, c) = mergeSlots ({ d.observe other.lamport with
          name := (d.name.merge other.name).1, settings := (d.settings.merge other.settings).1 },
        (d.name.merge other.name).2 || (d.settings.merge other.settings).2)
        other.machines.toList := by
  unfold merge at h
  cases hc : d.checkWorkspace other.workspaceId with
  | error err => simp [hc, bind, Except.bind] at h
  | ok =>
    simp only [hc, bind, Except.bind, pure, Except.pure, Except.ok.injEq] at h
    exact ⟨checkWorkspace_ok.mp hc, h.symm⟩

theorem merge_ok_of_workspace {d other : WorkspaceDoc}
    (h : other.workspaceId = d.workspaceId) : ∃ e c, d.merge other = .ok (e, c) := by
  cases hm : d.merge other with
  | ok p => exact ⟨p.1, p.2, rfl⟩
  | error err =>
    simp [merge, checkWorkspace_ok.mpr h, bind, Except.bind, pure, Except.pure] at hm

/-- Merging goes register by register, whatever the clocks say. -/
theorem merge_held {d other e : WorkspaceDoc} {c : Bool} (h : d.merge other = .ok (e, c))
    (r : Register) : e.held r = newer (d.held r) (other.held r) := by
  obtain ⟨_, he⟩ := merge_eq h
  have hfst : e = (mergeSlots _ _).1 := congrArg Prod.fst he
  cases r with
  | name =>
    rw [hfst, mergeSlots_held_of_not_slot _ (by simp)]
    simpa [held] using congrFun (merge_name_held d other.name) .name
  | settings =>
    rw [hfst, mergeSlots_held_of_not_slot _ (by simp)]
    simpa [held] using congrFun (merge_settings_held d other.settings) .settings
  | slot id =>
    rw [hfst, mergeSlots_held _ (toList_pairwise_ne _), slotWrite_toList]
    rfl

def ClockBounds (d : WorkspaceDoc) : Prop :=
  ∀ (id : MachineId) (s : MachineSlot), d.machines[id]? = some s → s.stamp.lamport ≤ d.lamport

theorem merge_workspaceId {d other e : WorkspaceDoc} {c : Bool}
    (h : d.merge other = .ok (e, c)) : e.workspaceId = d.workspaceId := by
  have hfst : e = (mergeSlots _ _).1 := congrArg Prod.fst (merge_eq h).2
  rw [hfst, (mergeSlots_kept _ _ _).1]
  rfl

/-- Everything `merge` does when it returns, on a document whose clock bounds its stamps: the
registers are joined. -/
theorem merge_spec {d other e : WorkspaceDoc} {c : Bool} (h : d.merge other = .ok (e, c))
    (hb : other.ClockBounds) :
    other.workspaceId = d.workspaceId ∧ e.replica = d.replica.join other.replica ∧
      e.workspaceId = d.workspaceId := by
  obtain ⟨hw, he⟩ := merge_eq h
  have hfst : e = (mergeSlots _ _).1 := congrArg Prod.fst he
  refine ⟨hw, Replica.ext ?_ (funext (merge_held h)), ?_⟩
  · rw [replica_clock, hfst]
    refine mergeSlots_lamport _ _ _ _ rfl fun p hp => ?_
    have := hb p.1 p.2 (Std.ExtTreeMap.mem_toList_iff_getElem?_eq_some.mp hp)
    exact this.trans (le_max_right _ _)
  · exact merge_workspaceId h

theorem clockBounds_of_knows {d : WorkspaceDoc} {W : Set DocWrite} (h : d.replica.Knows W) :
    d.ClockBounds := by
  intro id s hs
  have hheld : d.replica.held (.slot id) = some (s.write id) := by simp [held, hs]
  exact h.time_le (h.mem hheld)

/-! One slot at a time: what a peer sends is adopted only when its stamp is newer. -/

def Adopts (own incoming now : Option MachineSlot) : Prop :=
  now = own ∨ ∃ slot, incoming = some slot ∧ now = some slot ∧
    ∀ o, own = some o → o.stamp.key < slot.stamp.key

theorem adopts_of_newer {id : MachineId} {own incoming now : Option MachineSlot}
    (h : now.map (MachineSlot.write id) =
      newer (own.map (MachineSlot.write id)) (incoming.map (MachineSlot.write id))) :
    Adopts own incoming now := by
  cases own with
  | none =>
    cases incoming with
    | none => exact .inl (held_slot_inj id h)
    | some s => exact .inr ⟨s, rfl, held_slot_inj id h, by simp⟩
  | some o =>
    cases incoming with
    | none => exact .inl (held_slot_inj id h)
    | some s =>
      by_cases hlt : (o.write id).key < (s.write id).key
      · refine .inr ⟨s, rfl, held_slot_inj id (h.trans ?_), ?_⟩
        · simp [newer, hlt]
        · rintro _ ⟨⟩
          exact hlt
      · exact .inl (held_slot_inj id (h.trans (by simp [newer, hlt])))

theorem merge_slot {d other e : WorkspaceDoc} {c : Bool} (h : d.merge other = .ok (e, c))
    (id : MachineId) : Adopts d.machines[id]? other.machines[id]? e.machines[id]? :=
  adopts_of_newer (merge_held h (.slot id))

theorem apply_slot {d e : WorkspaceDoc} {u : WorkspaceUpdate} {c : Bool}
    (h : d.apply u = .ok (e, c)) (id : MachineId) :
    Adopts d.machines[id]? (u.slot id) e.machines[id]? := by
  obtain ⟨-, hrep, -⟩ := apply_spec h
  have hheld : e.held (.slot id) = _ := congrFun (congrArg Replica.held hrep) (.slot id)
  refine adopts_of_newer (hheld.trans ?_)
  by_cases hr : u.op.register = .slot id
  · have hslot : some u.write = (u.slot id).map (MachineSlot.write id) := by
      unfold WorkspaceUpdate.slot
      cases hop : u.op <;> simp_all [Op.register, WorkspaceUpdate.write, MachineSlot.write,
        Op.content]
    have hreg : u.write.register = .slot id := hr
    simp only [Replica.take, hreg, Function.update_self]
    rw [hslot]
    rfl
  · have hslot : u.slot id = none := by
      unfold WorkspaceUpdate.slot
      cases hop : u.op <;> simp_all [Op.register]
    have hreg : Register.slot id ≠ u.write.register := Ne.symm hr
    rw [hslot]
    simp only [Replica.take, Function.update_of_ne hreg, Option.map_none, newer_none]
    rfl

/-! The version a document says it is of. -/

theorem edit_schemaVersion (d : WorkspaceDoc) (origin : MachineId) (now : ℕ) (op : Op) :
    (d.edit origin now op).1.schemaVersion = d.schemaVersion := by
  cases op <;> rfl

theorem apply_schemaVersion {d e : WorkspaceDoc} {u : WorkspaceUpdate} {c : Bool}
    (h : d.apply u = .ok (e, c)) : e.schemaVersion = d.schemaVersion := by
  unfold apply at h
  cases hc : d.checkWorkspace u.workspaceId with
  | error err => simp [hc, bind, Except.bind] at h
  | ok =>
    simp only [hc, bind, Except.bind, pure, Except.pure, Except.ok.injEq] at h
    obtain ⟨-, -, hs⟩ := (d.observe u.stamp.lamport).applyOp_kept u.stamp u.op
    rw [h] at hs
    exact hs

theorem merge_schemaVersion {d other e : WorkspaceDoc} {c : Bool}
    (h : d.merge other = .ok (e, c)) : e.schemaVersion = d.schemaVersion := by
  obtain ⟨-, he⟩ := merge_eq h
  rw [show e = (mergeSlots _ _).1 from congrArg Prod.fst he, (mergeSlots_kept _ _ _).2]
  rfl

/-! Documents that only take in what is newer. -/

/-- Every register is the old one, or has taken in something from elsewhere. -/
def Grows (d e : WorkspaceDoc) : Prop := ∀ r, ∃ x, e.held r = newer (d.held r) x

theorem grows_merge {d other e : WorkspaceDoc} {c : Bool} (h : d.merge other = .ok (e, c)) :
    Grows d e :=
  fun r => ⟨other.held r, merge_held h r⟩

theorem grows_apply {d e : WorkspaceDoc} {u : WorkspaceUpdate} {c : Bool}
    (h : d.apply u = .ok (e, c)) : Grows d e := by
  intro r
  have hheld : e.held r = (d.replica.take u.write).held r :=
    congrFun (congrArg Replica.held (apply_spec h).2.1) r
  by_cases hr : r = u.write.register
  · subst hr
    exact ⟨some u.write, by simpa [Replica.take] using hheld⟩
  · exact ⟨none, by simpa [Replica.take, hr] using hheld⟩

theorem held_edit (d : WorkspaceDoc) (origin : MachineId) (now : ℕ) (op : Op) :
    (d.edit origin now op).1.held =
      Function.update d.held op.register (some (d.edit origin now op).2.write) := by
  have h : (d.edit origin now op).1.held = _ :=
    congrArg Replica.held (d.edit_replica origin now op)
  have hreg : (d.edit origin now op).2.write.register = op.register := by
    rw [edit_update]
    rfl
  rw [h, Replica.edit, hreg]
  rfl

end WorkspaceDoc
end InputShare

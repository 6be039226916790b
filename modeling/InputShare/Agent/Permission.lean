import InputShare.Agent.Core
import InputShare.Core.Registers
import InputShare.Net.Wire

/-! Who may connect, across everything that changes the state: a machine is let in by its record
in the document, and without one by the trust given before there was a document. -/
namespace InputShare.State

/-- The slot a message brings for a machine, when the message is taken in at all. -/
def incoming (s : State) (id : MachineId) : Message → Option MachineSlot
  | .docFull doc =>
    match s.doc with
    | some own => if doc.workspaceId = own.workspaceId then doc.machines[id]? else none
    | none => doc.machines[id]?
  | .update update =>
    match s.doc with
    | some own => if update.workspaceId = own.workspaceId then update.slot id else none
    | none => none
  | _ => none

/-- With this slot in the document the machine would still be let in under the key. -/
def Grants (s : State) (id : MachineId) (key : PubKey) : SlotState → Prop
  | .present record => record.publicKey = key
  | .removed => s.pendingTrust[id]? = some key

instance (s : State) (id : MachineId) (key : PubKey) :
    (st : SlotState) → Decidable (s.Grants id key st)
  | .present record => inferInstanceAs (Decidable (record.publicKey = key))
  | .removed => inferInstanceAs (Decidable (s.pendingTrust[id]? = some key))

/-- The slot is not newer than the held one, or it lets the machine in under the key. -/
def KeepsAccess (s : State) (id : MachineId) (key : PubKey) (slot : MachineSlot) : Prop :=
  (∃ own ∈ s.slot id, slot.stamp.key ≤ own.stamp.key) ∨ s.Grants id key slot.state

instance (s : State) (id : MachineId) (key : PubKey) (slot : MachineSlot) :
    Decidable (s.KeepsAccess id key slot) :=
  inferInstanceAs (Decidable (_ ∨ _))

/-! The permission of one machine across a step of the state. -/

theorem authorize_iff {s : State} {id : MachineId} {key : PubKey} :
    s.authorize id key = true ↔ (∃ r, s.machine id = some r ∧ r.publicKey = key) ∨
      s.machine id = none ∧ s.pendingTrust[id]? = some key := by
  unfold authorize
  cases s.machine id <;> simp

theorem authorize_of_slot {s t : State} {id : MachineId} {key : PubKey}
    (h : s.authorize id key = true)
    (hslot : t.slot id = s.slot id ∨ ∃ slot, t.slot id = some slot ∧ s.Grants id key slot.state)
    (htrust : t.machine id = none → t.pendingTrust[id]? = s.pendingTrust[id]?) :
    t.authorize id key = true := by
  rw [authorize_iff] at h ⊢
  obtain heq | ⟨⟨stamp, st⟩, heq, hg⟩ := hslot
  · have hm : t.machine id = s.machine id := by rw [machine_eq, machine_eq, heq]
    obtain ⟨r, hr, hk⟩ | ⟨hn, hk⟩ := h
    · exact .inl ⟨r, hm.trans hr, hk⟩
    · exact .inr ⟨hm.trans hn, (htrust (hm.trans hn)).trans hk⟩
  · have hm : t.machine id = st.record := by rw [machine_eq, heq]; rfl
    cases st with
    | present r => exact .inl ⟨r, hm, hg⟩
    | removed => exact .inr ⟨hm, (htrust hm).trans hg⟩

theorem dropAdopted_trust (s : State) (id : MachineId) (h : s.machine id = none) :
    s.dropAdopted.pendingTrust[id]? = s.pendingTrust[id]? := by
  unfold dropAdopted
  rw [Std.ExtTreeMap.getElem?_filter']
  cases s.pendingTrust[id]? <;> simp [h]

/-- What taking a message in does to a state: each slot is the held one or the newer incoming
one, and a machine left without a record keeps its trust. -/
structure Took (s : State) (message : Message) (t : State) : Prop where
  slot : ∀ id, WorkspaceDoc.Adopts (s.slot id) (s.incoming id message) (t.slot id)
  trust : ∀ id, t.machine id = none → t.pendingTrust[id]? = s.pendingTrust[id]?

theorem took_merge {s t : State} {doc : WorkspaceDoc} {c : Bool}
    (h : s.merge doc = .ok (t, c)) : Took s (.docFull doc) t := by
  have htrust (u : State) (b : Bool) (id : MachineId)
      (hu : (if b then u.dropAdopted else u).machine id = none) :
      (if b then u.dropAdopted else u).pendingTrust[id]? = u.pendingTrust[id]? := by
    cases b with
    | false => rfl
    | true => exact dropAdopted_trust u id hu
  unfold merge at h
  cases hd : s.doc with
  | none =>
    simp only [hd, Except.ok.injEq, Prod.mk.injEq] at h
    obtain ⟨rfl, rfl⟩ := h
    refine ⟨fun id => ?_, fun id => htrust { s with doc := some doc } true id⟩
    have hown : s.slot id = none := by simp [State.slot, hd]
    have hinc : s.incoming id (.docFull doc) = doc.machines[id]? := by simp [incoming, hd]
    rw [hown, hinc]
    change WorkspaceDoc.Adopts none doc.machines[id]? doc.machines[id]?
    cases hm : doc.machines[id]? with
    | none => exact .inl rfl
    | some slot => exact .inr ⟨slot, rfl, rfl, by simp⟩
  | some own =>
    simp only [hd] at h
    cases hm : own.merge doc with
    | error err => simp [hm, bind, Except.bind] at h
    | ok p =>
      obtain ⟨d, b⟩ := p
      simp only [hm, bind, Except.bind, pure, Except.pure, Except.ok.injEq, Prod.mk.injEq] at h
      obtain ⟨rfl, rfl⟩ := h
      refine ⟨fun id => ?_, fun id => htrust { s with doc := some d } b id⟩
      have hws := (WorkspaceDoc.merge_eq hm).1
      have hown : s.slot id = own.machines[id]? := by simp [State.slot, hd]
      have hinc : s.incoming id (.docFull doc) = doc.machines[id]? := by
        simp [incoming, hd, hws]
      have hnow : (if b then ({ s with doc := some d } : State).dropAdopted
          else { s with doc := some d }).slot id = d.machines[id]? := by
        cases b <;> rfl
      rw [hown, hinc, hnow]
      exact WorkspaceDoc.merge_slot hm id

theorem took_apply {s t : State} {u : WorkspaceUpdate} {c : Bool}
    (h : s.apply u = .ok (t, c)) : Took s (.update u) t := by
  cases hd : s.doc with
  | none =>
    obtain ⟨rfl, -⟩ := apply_none hd h
    exact ⟨fun id => .inl rfl, fun id _ => rfl⟩
  | some own =>
    obtain ⟨d, hd', rfl⟩ := apply_some hd h
    refine ⟨fun id => ?_, fun id _ => rfl⟩
    have hws := (WorkspaceDoc.apply_spec hd').1
    have hown : s.slot id = own.machines[id]? := by simp [State.slot, hd]
    have hinc : s.incoming id (.update u) = u.slot id := by simp [incoming, hd, hws]
    rw [hown, hinc]
    exact WorkspaceDoc.apply_slot hd' id

theorem Took.authorize {s t : State} {message : Message} (h : Took s message t) {id : MachineId}
    {key : PubKey} (ha : s.authorize id key = true)
    (hk : ∀ slot, s.incoming id message = some slot → s.KeepsAccess id key slot) :
    t.authorize id key = true := by
  refine authorize_of_slot ha ?_ (h.trust id)
  obtain heq | ⟨slot, hinc, hnow, hnew⟩ := h.slot id
  · exact .inl heq
  · obtain ⟨own, hown, hle⟩ | hg := hk slot hinc
    · exact absurd (hnew own hown) (not_lt.mpr hle)
    · exact .inr ⟨slot, hnow, hg⟩

theorem mutate_slot {s t : State} {me : MachineId} {now : ℕ} {op : Op} {u : WorkspaceUpdate}
    (h : s.mutate me now op = .ok (t, u)) (id : MachineId) :
    t.slot id = (u.slot id).or (s.slot id) := by
  obtain ⟨doc, hd, rfl, rfl⟩ := mutate_some h
  have hown : s.slot id = doc.machines[id]? := by simp [State.slot, hd]
  rw [hown]
  change (doc.edit me now op).1.machines[id]? = _
  have hins (k : MachineId) (slot : MachineSlot) : (doc.machines.insert k slot)[id]? =
      (if k = id then some slot else none).or doc.machines[id]? := by
    rw [Std.ExtTreeMap.getElem?_insert]
    by_cases hk : k = id <;> simp [hk]
  cases op with
  | setName name => rfl
  | setSettings settings => rfl
  | upsertMachine record => exact hins record.id ⟨(doc.tick me now).2, .present record⟩
  | removeMachine gone => exact hins gone ⟨(doc.tick me now).2, .removed⟩

theorem authorize_mutate {s t : State} {me : MachineId} {now : ℕ} {op : Op} {u : WorkspaceUpdate}
    (h : s.mutate me now op = .ok (t, u)) {id : MachineId} {key : PubKey}
    (ha : s.authorize id key = true)
    (hg : ∀ slot, u.slot id = some slot → s.Grants id key slot.state) :
    t.authorize id key = true := by
  refine authorize_of_slot ha ?_ fun _ => ?_
  · have hslot := mutate_slot h id
    cases hu : u.slot id with
    | none => exact .inl (by simpa [hu] using hslot)
    | some slot => exact .inr ⟨slot, by simpa [hu] using hslot, hg slot hu⟩
  · obtain ⟨doc, -, rfl, -⟩ := mutate_some h
    rfl

theorem mutate_update_op {s t : State} {me : MachineId} {now : ℕ} {op : Op}
    {u : WorkspaceUpdate} (h : s.mutate me now op = .ok (t, u)) : u.op = op := by
  obtain ⟨doc, -, -, rfl⟩ := mutate_some h
  rw [doc.edit_update me now op]

theorem authorize_pair {s t : State} {me : MachineId} {now : ℕ} {p : MachineId}
    {u : Option WorkspaceUpdate} (h : s.pair me now p = .ok (t, u)) {id : MachineId}
    {key : PubKey} (ha : s.authorize id key = true)
    (hk : ∀ c, s.candidates[p]? = some c → id = c.machineId → c.identityKey = key) :
    t.authorize id key = true := by
  obtain ⟨c, hc, ⟨hd, -, rfl⟩ | ⟨record, v, u, hid, hkey, -, hm, rfl⟩⟩ := pair_some h
  · have hnone : s.machine id = none := by simp [machine, hd]
    rw [authorize_iff] at ha ⊢
    refine .inr ⟨by simp [machine, hd], ?_⟩
    have htrust : s.pendingTrust[id]? = some key := by
      obtain ⟨r, hr, -⟩ | ⟨-, ht⟩ := ha
      · rw [hnone] at hr
        cases hr
      · exact ht
    rw [Std.ExtTreeMap.getElem?_insert]
    by_cases hid : c.machineId = id
    · simp [hid, hk c hc hid.symm]
    · simp [hid, htrust]
  · refine authorize_mutate (t := v) hm ha fun slot hslot => ?_
    simp only [WorkspaceUpdate.slot, mutate_update_op hm] at hslot
    split at hslot
    · rename_i heq
      obtain rfl := Option.some.inj hslot
      exact hkey.trans (hk c hc (heq.symm.trans hid))
    · cases hslot

theorem authorize_congr {s t : State} (hd : t.doc = s.doc) (hp : t.pendingTrust = s.pendingTrust)
    (id : MachineId) (key : PubKey) : t.authorize id key = s.authorize id key := by
  simp only [authorize, machine, hd, hp]

theorem authorize_unpair {s t : State} {me : MachineId} {now : ℕ} {p : MachineId}
    {u : WorkspaceUpdate} (h : s.unpair me now p = .ok (t, u)) {id : MachineId} {key : PubKey}
    (ha : s.authorize id key = true) (hid : id ≠ p) : t.authorize id key = true := by
  obtain ⟨v, hv, rfl⟩ := unpair_some h
  refine (authorize_congr (s := v) rfl rfl id key).trans ?_
  refine authorize_mutate hv ha fun slot hslot => ?_
  simp [WorkspaceUpdate.slot, mutate_update_op hv, Ne.symm hid] at hslot

theorem machine_unpair {s t : State} {me : MachineId} {now : ℕ} {p : MachineId}
    {u : WorkspaceUpdate} (h : s.unpair me now p = .ok (t, u)) :
    t.machine p = none ∧ t.pendingTrust = s.pendingTrust := by
  obtain ⟨v, hv, rfl⟩ := unpair_some h
  have htrust : v.pendingTrust = s.pendingTrust := by
    obtain ⟨doc, -, rfl, -⟩ := mutate_some hv
    rfl
  refine ⟨?_, htrust⟩
  have hslot : u.slot p = some ⟨u.stamp, .removed⟩ := by
    simp [WorkspaceUpdate.slot, mutate_update_op hv]
  change v.machine p = none
  rw [machine_eq, mutate_slot hv p, hslot]
  rfl

theorem authorize_adopt {s : State} {p : MachineId} {theirKey : PubKey} {id : MachineId}
    {key : PubKey} (h : (s.pendingTrust.insert p theirKey)[id]? = some key) :
    (s.adoptConfigurationOf p theirKey).authorize id key = true :=
  authorize_iff.mpr (.inr ⟨rfl, h⟩)

end InputShare.State

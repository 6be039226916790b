import InputShare.Core.Store
import Mathlib.Data.Finset.Basic

/-! The agent's state, what the network may do to it, and what the person at the keyboard does.
A function that persists returns the document to be saved. -/
namespace InputShare

structure Candidate where
  machineId : MachineId
  displayName : String
  identityKey : PubKey
  invitedUs : Bool
  addr : String
  lastSeenMs : ℕ
  hasWorkspace : Bool
deriving DecidableEq, Repr

inductive AgentError where
  | core (error : CoreError)
  | noWorkspace
  | unknownMachine (id : MachineId)
  | refused (why : String)
deriving DecidableEq, Repr

structure State where
  doc : Option WorkspaceDoc
  /-- Peers with a live authenticated session. -/
  online : Finset MachineId
  candidates : Std.ExtTreeMap MachineId Candidate
  /-- Machines admitted before this computer had a workspace to put them in. -/
  pendingTrust : Std.ExtTreeMap MachineId PubKey

namespace State

def machine (s : State) (id : MachineId) : Option MachineRecord :=
  s.doc.bind fun d => d.machine id

def slot (s : State) (id : MachineId) : Option MachineSlot :=
  s.doc.bind fun d => d.machines[id]?

theorem machine_eq (s : State) (id : MachineId) :
    s.machine id = (s.slot id).bind fun slot => slot.state.record := by
  unfold machine slot WorkspaceDoc.machine
  cases hd : s.doc with
  | none => rfl
  | some d =>
    cases hs : d.machines[id]? with
    | none => simp [hs]
    | some x =>
      obtain ⟨stamp, st⟩ := x
      cases st <;> simp [hs, SlotState.record]

def dropAdopted (s : State) : State :=
  { s with pendingTrust := s.pendingTrust.filter fun id _ => (s.machine id).isNone }

/-- A peer's whole document; the flag says whether it is then persisted. -/
def merge (s : State) (incoming : WorkspaceDoc) : Except CoreError (State × Bool) :=
  match s.doc with
  | some doc => do
    let (doc, changed) ← doc.merge incoming
    let s := { s with doc := some doc }
    return (if changed then s.dropAdopted else s, changed)
  | none => .ok ({ s with doc := some incoming }.dropAdopted, true)

/-- A peer's single update; the flag says whether it is then persisted. -/
def apply (s : State) (update : WorkspaceUpdate) : Except CoreError (State × Bool) :=
  match s.doc with
  | some doc => do
    let (doc, changed) ← doc.apply update
    return ({ s with doc := some doc }, changed)
  | none => .ok (s, false)

def pendingInvitations (s : State) (me : MachineId) : List MachineId :=
  match s.doc with
  | none => []
  | some doc => (doc.machinesPresent.map (·.id)).filter fun id => id ≠ me ∧ id ∉ s.online

def authorize (s : State) (id : MachineId) (key : PubKey) : Bool :=
  match s.machine id with
  | some paired => paired.publicKey = key
  | none => s.pendingTrust[id]? = some key

/-- Applies a change locally; the update is then pushed to every connected peer. -/
def mutate (s : State) (me : MachineId) (now : ℕ) (op : Op) :
    Except AgentError (State × WorkspaceUpdate) :=
  match s.doc with
  | some doc =>
    let (doc, update) := doc.edit me now op
    .ok ({ s with doc := some doc }, update)
  | none => .error .noWorkspace

/-- Somewhere to put a newly paired machine, right of every one already placed. -/
def freePosition (s : State) : Point :=
  let records := (s.doc.map WorkspaceDoc.machinesPresent).getD []
  ⟨((records.filterMap MachineRecord.bounds).map Rect.maxX).max?.getD 0, 0⟩

/-- Admits a discovered machine: into the workspace, or to be joined when there is none yet. -/
def pair (s : State) (me : MachineId) (now : ℕ) (id : MachineId) :
    Except AgentError (State × Option WorkspaceUpdate) :=
  match s.candidates[id]? with
  | none => .error (.unknownMachine id)
  | some candidate =>
    match s.doc with
    | none =>
      let trust := s.pendingTrust.insert candidate.machineId candidate.identityKey
      .ok ({ s with pendingTrust := trust }, none)
    | some _ => do
      let record : MachineRecord :=
        { id := candidate.machineId
          displayName := candidate.displayName
          platform := .other
          publicKey := candidate.identityKey
          position := s.freePosition
          displays := []
          input := ⟨false, false⟩
          pairedAtMs := now }
      let (s, update) ← s.mutate me now (.upsertMachine record)
      return ({ s with candidates := s.candidates.erase id }, some update)

def unpair (s : State) (me : MachineId) (now : ℕ) (id : MachineId) :
    Except AgentError (State × WorkspaceUpdate) := do
  if id = me then
    throw (.refused "a machine cannot remove itself from its own workspace")
  let (s, update) ← s.mutate me now (.removeMachine id)
  return ({ s with online := s.online.erase id }, update)

/-- Gives up this machine's configuration to join the one `id` is in. -/
def adoptConfigurationOf (s : State) (id : MachineId) (theirKey : PubKey) : State where
  doc := none
  online := s.online.erase id
  candidates := s.candidates
  pendingTrust := s.pendingTrust.insert id theirKey

end State

/-- What the network reports to the agent; events the agent ignores are left out. -/
inductive NetEvent where
  | online (id : MachineId)
  | offline (id : MachineId)
  | candidate (id : MachineId) (displayName : String) (identityKey : PubKey)
      (workspaceId : Option WorkspaceId) (addr : String) (invitedUs : Bool)
  | rejected (id : MachineId) (identityKey : PubKey) (addr : String)
  | differentWorkspaces (id : MachineId) (identityKey : PubKey) (theirWorkspace : WorkspaceId)
      (theirSize : ℕ)

/-- Whether this machine gives up its configuration for the peer's: the smaller one yields. -/
def shouldYield (ours : WorkspaceDoc) (theirWorkspace : WorkspaceId) (theirSize : ℕ) : Bool :=
  let ourSize := ours.machinesPresent.length % 4294967296
  if ourSize < theirSize then true
  else if theirSize < ourSize then false
  else ours.workspaceId > theirWorkspace

def State.onNetEvent (s : State) (now : ℕ) : NetEvent → State
  | .differentWorkspaces id key theirWorkspace theirSize =>
    match s.doc with
    | some doc =>
      if shouldYield doc theirWorkspace theirSize then s.adoptConfigurationOf id key else s
    | none => s
  | .online id =>
    { s with online := insert id s.online, candidates := s.candidates.erase id }
  | .offline id => { s with online := s.online.erase id }
  | .candidate id displayName identityKey workspaceId addr invitedUs =>
    { s with
      candidates := s.candidates.insert id
        ⟨id, displayName, identityKey, invitedUs, addr, now, workspaceId.isSome⟩ }
  | .rejected id identityKey addr =>
    { s with
      candidates := s.candidates.insertIfNew id
        ⟨id, "Unknown computer", identityKey, false, addr, now, true⟩ }

def State.ofDoc (doc : WorkspaceDoc) : State := ⟨some doc, ∅, ∅, ∅⟩

namespace State

/-! What each entry point does to the document. -/

theorem merge_some {s t : State} {doc incoming : WorkspaceDoc} {c : Bool} (hd : s.doc = some doc)
    (h : s.merge incoming = .ok (t, c)) :
    ∃ d, doc.merge incoming = .ok (d, c) ∧ t.doc = some d := by
  unfold merge at h
  simp only [hd] at h
  cases hm : doc.merge incoming with
  | error err => simp [hm, bind, Except.bind] at h
  | ok p =>
    obtain ⟨d, b⟩ := p
    simp only [hm, bind, Except.bind, pure, Except.pure, Except.ok.injEq, Prod.mk.injEq] at h
    obtain ⟨rfl, rfl⟩ := h
    refine ⟨d, rfl, ?_⟩
    cases b <;> rfl

theorem merge_none {s t : State} {incoming : WorkspaceDoc} {c : Bool} (hd : s.doc = none)
    (h : s.merge incoming = .ok (t, c)) : t.doc = some incoming ∧ c = true := by
  unfold merge at h
  simp only [hd, Except.ok.injEq, Prod.mk.injEq] at h
  obtain ⟨rfl, rfl⟩ := h
  exact ⟨rfl, rfl⟩

theorem apply_some {s t : State} {doc : WorkspaceDoc} {u : WorkspaceUpdate} {c : Bool}
    (hd : s.doc = some doc) (h : s.apply u = .ok (t, c)) :
    ∃ d, doc.apply u = .ok (d, c) ∧ t = { s with doc := some d } := by
  unfold apply at h
  simp only [hd] at h
  cases hm : doc.apply u with
  | error err => simp [hm, bind, Except.bind] at h
  | ok p =>
    obtain ⟨d, b⟩ := p
    simp only [hm, bind, Except.bind, pure, Except.pure, Except.ok.injEq, Prod.mk.injEq] at h
    obtain ⟨rfl, rfl⟩ := h
    exact ⟨d, rfl, rfl⟩

theorem apply_none {s t : State} {u : WorkspaceUpdate} {c : Bool} (hd : s.doc = none)
    (h : s.apply u = .ok (t, c)) : t = s ∧ c = false := by
  unfold apply at h
  simp only [hd, Except.ok.injEq, Prod.mk.injEq] at h
  exact ⟨h.1.symm, h.2.symm⟩

theorem apply_error {s : State} {doc : WorkspaceDoc} {u : WorkspaceUpdate} {err : CoreError}
    (hd : s.doc = some doc) (h : s.apply u = .error err) : doc.apply u = .error err := by
  simp only [apply, hd] at h
  cases ha : doc.apply u with
  | ok p => simp [ha, bind, Except.bind, pure, Except.pure] at h
  | error e => simpa [ha, bind, Except.bind] using h

theorem merge_error {s : State} {doc incoming : WorkspaceDoc} {err : CoreError}
    (hd : s.doc = some doc) (h : s.merge incoming = .error err) :
    doc.merge incoming = .error err := by
  simp only [merge, hd] at h
  cases hm : doc.merge incoming with
  | ok p => simp [hm, bind, Except.bind, pure, Except.pure] at h
  | error e => simpa [hm, bind, Except.bind] using h

theorem merge_candidates {s t : State} {incoming : WorkspaceDoc} {c : Bool}
    (h : s.merge incoming = .ok (t, c)) : t.candidates = s.candidates := by
  unfold merge at h
  cases hd : s.doc with
  | none =>
    simp only [hd, Except.ok.injEq, Prod.mk.injEq] at h
    obtain ⟨rfl, -⟩ := h
    rfl
  | some doc =>
    simp only [hd] at h
    cases hm : doc.merge incoming with
    | error err => simp [hm, bind, Except.bind] at h
    | ok p =>
      simp only [hm, bind, Except.bind, pure, Except.pure, Except.ok.injEq, Prod.mk.injEq] at h
      obtain ⟨rfl, -⟩ := h
      split <;> rfl

theorem mutate_some {s t : State} {me : MachineId} {now : ℕ} {op : Op} {u : WorkspaceUpdate}
    (h : s.mutate me now op = .ok (t, u)) :
    ∃ doc, s.doc = some doc ∧ t = { s with doc := some (doc.edit me now op).1 } ∧
      u = (doc.edit me now op).2 := by
  unfold mutate at h
  cases hd : s.doc with
  | none => simp [hd] at h
  | some doc =>
    simp only [hd, Except.ok.injEq, Prod.mk.injEq] at h
    exact ⟨doc, rfl, h.1.symm, h.2.symm⟩

theorem mutate_error {s : State} {me : MachineId} {now : ℕ} {op : Op} {e : AgentError}
    (h : s.mutate me now op = .error e) : s.doc = none := by
  unfold mutate at h
  split at h
  · cases h
  · assumption

def Edits (s t : State) (me : MachineId) (now : ℕ) (u : WorkspaceUpdate) : Prop :=
  ∃ d op, s.doc = some d ∧ t.doc = some (d.edit me now op).1 ∧ u = (d.edit me now op).2

theorem mutate_edits {s t : State} {me : MachineId} {now : ℕ} {op : Op} {u : WorkspaceUpdate}
    (h : s.mutate me now op = .ok (t, u)) : s.Edits t me now u := by
  obtain ⟨d, hd, rfl, hu⟩ := mutate_some h
  exact ⟨d, op, hd, rfl, hu⟩

/-- Everything `pair` does when it returns: it trusts the candidate, or records it. -/
theorem pair_some {s t : State} {me : MachineId} {now : ℕ} {p : MachineId}
    {o : Option WorkspaceUpdate} (h : s.pair me now p = .ok (t, o)) :
    ∃ c, s.candidates[p]? = some c ∧
      ((s.doc = none ∧ o = none ∧
          t = { s with pendingTrust := s.pendingTrust.insert c.machineId c.identityKey }) ∨
        ∃ record v u, record.id = c.machineId ∧ record.publicKey = c.identityKey ∧ o = some u ∧
          s.mutate me now (.upsertMachine record) = .ok (v, u) ∧
          t = { v with candidates := v.candidates.erase p }) := by
  unfold pair at h
  cases hc : s.candidates[p]? with
  | none => simp [hc] at h
  | some c =>
    refine ⟨c, rfl, ?_⟩
    cases hd : s.doc with
    | none =>
      simp only [hc, hd, Except.ok.injEq, Prod.mk.injEq] at h
      obtain ⟨rfl, rfl⟩ := h
      exact .inl ⟨rfl, rfl, rfl⟩
    | some doc =>
      simp only [hc, hd, bind, Except.bind, pure, Except.pure] at h
      split at h
      · cases h
      · rename_i q hq
        obtain ⟨v, u⟩ := q
        obtain ⟨rfl, rfl⟩ := Prod.mk.inj (Except.ok.inj h)
        exact .inr ⟨_, v, u, rfl, rfl, rfl, hq, rfl⟩

/-- Everything `unpair` does when it returns. -/
theorem unpair_some {s t : State} {me : MachineId} {now : ℕ} {p : MachineId} {u : WorkspaceUpdate}
    (h : s.unpair me now p = .ok (t, u)) :
    ∃ v, s.mutate me now (.removeMachine p) = .ok (v, u) ∧
      t = { v with online := v.online.erase p } := by
  unfold unpair at h
  by_cases hp : p = me
  · simp [hp, bind, Except.bind, throw, throwThe, MonadExceptOf.throw] at h
  · simp only [hp, if_false, bind, Except.bind, pure, Except.pure] at h
    split at h
    · cases h
    · rename_i q hq
      obtain ⟨v, w⟩ := q
      obtain ⟨rfl, rfl⟩ := Prod.mk.inj (Except.ok.inj h)
      exact ⟨v, hq, rfl⟩

theorem unpair_ne {s t : State} {me : MachineId} {now : ℕ} {p : MachineId} {u : WorkspaceUpdate}
    (h : s.unpair me now p = .ok (t, u)) : p ≠ me := by
  rintro rfl
  simp [unpair, bind, Except.bind, throw, throwThe, MonadExceptOf.throw] at h

theorem unpair_edits {s t : State} {me : MachineId} {now : ℕ} {id : MachineId}
    {u : WorkspaceUpdate} (h : s.unpair me now id = .ok (t, u)) : s.Edits t me now u := by
  obtain ⟨v, hv, rfl⟩ := unpair_some h
  exact mutate_edits (t := v) hv

theorem pair_edits {s t : State} {me : MachineId} {now : ℕ} {id : MachineId}
    {o : Option WorkspaceUpdate} (h : s.pair me now id = .ok (t, o)) :
    (o = none ∧ t.doc = s.doc) ∨ ∃ u, o = some u ∧ s.Edits t me now u := by
  obtain ⟨c, -, ⟨-, rfl, rfl⟩ | ⟨record, v, u, -, -, rfl, hm, rfl⟩⟩ := pair_some h
  · exact .inl ⟨rfl, rfl⟩
  · exact .inr ⟨u, rfl, mutate_edits (t := v) hm⟩

end State
end InputShare

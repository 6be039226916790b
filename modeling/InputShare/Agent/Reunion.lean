import InputShare.Agent.Meeting
import InputShare.Agent.Permission
import InputShare.Core.Text
import InputShare.Core.Underway

/-! Two machines that have admitted each other, with their files. Either of them may be started
again between any two steps: while a document is saved, and while a configuration is given up. -/
namespace InputShare
open Runs Files Store SessionTask

/-- What a process learns of its computer when it starts. -/
structure Launch where
  /-- The identifier a new workspace would get. -/
  workspaceId : WorkspaceId
  now : ℕ
  computerName : String
  platform : Platform
  displays : List DisplayInfo

def localRecord (me : Identity) (l : Launch) : MachineRecord where
  id := me.machineId
  displayName := l.computerName
  platform := l.platform
  publicKey := me.publicKey
  position := ⟨0, 0⟩
  displays := l.displays
  input := ⟨true, true⟩
  pairedAtMs := l.now

/-- The document a process starts with and the files it leaves, unless they cannot be read. -/
def Agent.load (json : Json WorkspaceDoc) (me : Identity) (l : Launch) (disk : Dir) :
    Option (WorkspaceDoc × Dir) :=
  match loadWorkspace json disk with
  | .ok (some doc) => some (doc, disk)
  | .ok none =>
    let doc := WorkspaceDoc.create l.workspaceId l.now l.computerName (localRecord me l)
    (complete (saveWorkspace json doc) disk).map fun e => (doc, e)
  | .error _ => none

def State.issued (s : State) (me : MachineId) (now : ℕ) : Change → Option WorkspaceUpdate
  | .edit op => (s.mutate me now op).toOption.map Prod.snd
  | .pair id => (s.pair me now id).toOption.bind Prod.snd
  | .unpair id => (s.unpair me now id).toOption.map Prod.snd
  | .hear .. | .notice _ => none

def Change.unpairs (id : MachineId) : Change → Bool
  | .unpair p => p = id
  | _ => false

/-- The process of side `s` is gone and another one begins with the state `st`. -/
def Meeting.restart (m : Meeting) (s : Side) (st : State) : Meeting :=
  { m with
    state := Function.update m.state s st
    links := m.links.map fun l =>
      ⟨Function.update l.task s { l.task s with stage := .ended },
        Function.update l.inbound s []⟩
    events := Function.update m.events s []
    yielding := Function.update m.yielding s none }

structure Reunion where
  meeting : Meeting
  disk : Side → Dir
  /-- What is left of the save a machine is in, its agent locked. -/
  saving : Side → List Files.Stage
  /-- What is left to remove of a configuration that was given up. -/
  clearing : Side → List Files.Stage
  /-- The updates a machine has made itself. -/
  made : Side → List WorkspaceUpdate
  /-- The documents of which a save was begun, and those that were read back. -/
  saved : List WorkspaceDoc
  /-- Whether a machine has unpaired the other. -/
  unpaired : Side → Bool

namespace Reunion

inductive Action where
  | act (a : Meeting.Action)
  /-- A save goes on, or fails after so many bytes. -/
  | save (s : Side) (failure : Option ℕ)
  | clear (s : Side) (failure : Option ℕ)
  | restart (s : Side) (l : Launch)

def locks : SessionTask.Event → Bool
  | .authorise | .identify | .snapshot | .read (.docFull _) | .read (.update _) => true
  | _ => false

def Names (me : Side → Identity) (id : MachineId) (key : PubKey) : Prop :=
  ∀ x, id = (me x).machineId → key = (me x).publicKey

instance (me : Side → Identity) (id : MachineId) (key : PubKey) : Decidable (Names me id key) :=
  inferInstanceAs (Decidable (∀ x, id = (me x).machineId → key = (me x).publicKey))

/-- What the person at a machine may do and discovery may find when there are but the two: keys
stay, a machine is removed by unpairing it, and no further machine is connected. -/
def asked (me : Side → Identity) : Change → Bool
  | .edit (.upsertMachine record) => Names me record.id record.publicKey
  | .notice (.candidate id _ key ..) | .notice (.rejected id key _) => Names me id key
  | .edit (.removeMachine _) | .hear .. | .notice (.differentWorkspaces ..) => false
  | .edit (.setName _) | .edit (.setSettings _) | .pair _ | .unpair _ | .notice (.online _)
  | .notice (.offline _) => true

/-- A step waits for the lock, and an event for the one before it. What a session sends on is an
update of its own machine. -/
def ready (w : Reunion) : Meeting.Action → Bool
  | .connect .. => true
  | .session _ s e _ => !locks e || (w.saving s).isEmpty
  | .write _ s (.update u) => u ∈ w.made s
  | .write .. => true
  | .change s _ c => asked w.meeting.me c && (w.saving s).isEmpty
  | .event s _ _ => (w.saving s).isEmpty && (w.clearing s).isEmpty
  | .adopt s => (w.saving s).isEmpty

variable (json : Json WorkspaceDoc)

def persist (w : Reunion) (s : Side) : Reunion :=
  match (w.meeting.state s).doc with
  | some doc =>
    { w with
      saving := Function.update w.saving s (saveWorkspace json doc)
      saved := w.saved ++ [doc] }
  | none => w

/-- What comes of a step that leads the two machines to `m`. -/
def after (w : Reunion) (m : Meeting) : Meeting.Action → Reunion
  | .change s now c =>
    match (w.meeting.state s).issued (w.meeting.me s).machineId now c with
    | some u =>
      persist json { w with
        meeting := m
        made := Function.update w.made s (w.made s ++ [u])
        unpaired := Function.update w.unpaired s
          (w.unpaired s || c.unpairs (w.meeting.me s.other).machineId) } s
    | none => { w with meeting := m }
  | .session _ s (.read msg) _ =>
    let outcomes := (onRead (w.meeting.state s) (w.meeting.me s.other).machineId msg).2.2
    if outcomes.isEmpty then { w with meeting := m } else persist json { w with meeting := m } s
  | .adopt s =>
    { w with meeting := m, clearing := Function.update w.clearing s clearWorkspace }
  | _ => { w with meeting := m }

def step (w : Reunion) : Action → Option Reunion
  | .act a => if w.ready a then (w.meeting.step a).map fun m => w.after json m a else none
  | .save s failure =>
    (advance (w.saving s) (w.disk s) failure).map fun (disk, rest) =>
      { w with
        disk := Function.update w.disk s disk
        saving := Function.update w.saving s rest }
  | .clear s failure =>
    (advance (w.clearing s) (w.disk s) failure).map fun (disk, rest) =>
      { w with
        disk := Function.update w.disk s disk
        clearing := Function.update w.clearing s rest }
  | .restart s l =>
    let v := { w with
      saving := Function.update w.saving s []
      clearing := Function.update w.clearing s [] }
    match Agent.load json (w.meeting.me s) l (w.disk s) with
    | some (doc, disk) =>
      some { v with
        meeting := w.meeting.restart s (.ofDoc doc)
        disk := Function.update w.disk s disk
        saved := w.saved ++ [doc] }
    -- the process does not come up
    | none => some { v with meeting := w.meeting.restart s ⟨none, ∅, ∅, ∅⟩ }

/-- A process starts only while the workspace is in its directory. -/
def StartsOnFile (w : Reunion) : Action → Prop
  | .restart s _ => w.disk s workspaceFile ≠ .missing
  | _ => True

instance (w : Reunion) : (a : Action) → Decidable (w.StartsOnFile a)
  | .restart s _ => inferInstanceAs (Decidable (w.disk s workspaceFile ≠ .missing))
  | .act _ | .save .. | .clear .. => .isTrue trivial

/-- The other machine is let in under its key, and gets through on every new connection. -/
def LetsIn (w : Reunion) (s : Side) : Prop :=
  let peer := w.meeting.me s.other
  (w.meeting.state s).authorize peer.machineId peer.publicKey = true ∧
    ∀ dialler addr, ∃ t, (w.meeting.greeted dialler addr s).step (w.meeting.state s) .authorise =
        some (t, w.meeting.state s, []) ∧ t.stage = .admitted peer.machineId peer.publicKey

variable {json}

/-! What every document, message and agent says of the two machines. -/

/-- A slot of machine `x` has its key, or is empty because the other one has unpaired it. -/
def Allows (me : Side → Identity) (unpaired : Side → Bool) (x : Side) : SlotState → Prop
  | .present record => record.publicKey = (me x).publicKey
  | .removed => unpaired x.other = true

structure Holds (me : Side → Identity) (unpaired : Side → Bool) (d : WorkspaceDoc) : Prop where
  schema : d.schemaVersion ≤ WorkspaceDoc.supportedSchema
  slot : ∀ x, ∃ slot, d.machines[(me x).machineId]? = some slot ∧ Allows me unpaired x slot.state

def Writes (me : Side → Identity) (unpaired : Side → Bool) (u : WorkspaceUpdate) : Prop :=
  ∀ x slot, u.slot (me x).machineId = some slot → Allows me unpaired x slot.state

def Carries (me : Side → Identity) (unpaired : Side → Bool) : Message → Prop
  | .docFull d => Holds me unpaired d
  | .update u => Writes me unpaired u
  | _ => True

/-- An agent without a document trusts the other machine by itself. -/
structure Knows (me : Side → Identity) (unpaired : Side → Bool) (s : Side) (st : State) :
    Prop where
  doc : ∀ d, st.doc = some d → Holds me unpaired d
  trust : st.doc = none →
    st.pendingTrust[(me s.other).machineId]? = some (me s.other).publicKey
  candidates : ∀ (i : MachineId) (c : Candidate), st.candidates[i]? = some c →
    Names me c.machineId c.identityKey

def Speaks (me : Side → Identity) (unpaired : Side → Bool) (s : Side) : SessionTask.Stage → Prop
  | .dialling | .greeting => False
  | .greeted peer key | .admitted peer key | .identifying peer key _ =>
    peer = (me s.other).machineId ∧ key = (me s.other).publicKey
  | .syncing _ d => Holds me unpaired d
  | .established _ | .running _ | .closing .. | .failed _ | .ended => True

def Reports (me : Side → Identity) (s : Side) : NetEvent → Prop
  | .differentWorkspaces id key .. =>
    id = (me s.other).machineId ∧ key = (me s.other).publicKey
  | .rejected id key _ | .candidate id _ key .. => Names me id key
  | .online _ | .offline _ => True

/-- The machine whose configuration is to be adopted is the other one, under its key. -/
def Chooses (me : Side → Identity) (s : Side) (y : Option (MachineId × PubKey)) : Prop :=
  ∀ p ∈ y, p = ((me s.other).machineId, (me s.other).publicKey)

structure Sound (unpaired : Side → Bool) (m : Meeting) : Prop where
  distinct : (m.me .left).machineId ≠ (m.me .right).machineId
  agent : ∀ s, Knows m.me unpaired s (m.state s)
  task : ∀ l ∈ m.links, ∀ s, Speaks m.me unpaired s (l.task s).stage
  inbound : ∀ l ∈ m.links, ∀ s, ∀ msg ∈ l.inbound s, Carries m.me unpaired msg
  events : ∀ s, ∀ e ∈ m.events s, Reports m.me s e
  yielding : ∀ s, Chooses m.me s (m.yielding s)

section Mono
variable {me : Side → Identity} {un un' : Side → Bool} (hle : ∀ s, un s = true → un' s = true)
include hle

theorem Allows.mono {x : Side} {st : SlotState} (h : Allows me un x st) : Allows me un' x st := by
  cases st with
  | present record => exact h
  | removed => exact hle _ h

theorem Holds.mono {d : WorkspaceDoc} (h : Holds me un d) : Holds me un' d :=
  ⟨h.schema, fun x => (h.slot x).imp fun _ hx => ⟨hx.1, hx.2.mono hle⟩⟩

theorem Writes.mono {u : WorkspaceUpdate} (h : Writes me un u) : Writes me un' u :=
  fun x slot hx => (h x slot hx).mono hle

theorem Carries.mono {msg : Message} (h : Carries me un msg) : Carries me un' msg := by
  cases msg with
  | docFull d => exact Holds.mono hle h
  | update u => exact Writes.mono hle h
  | _ => trivial

theorem Knows.mono {s : Side} {st : State} (h : Knows me un s st) : Knows me un' s st :=
  ⟨fun d hd => (h.doc d hd).mono hle, h.trust, h.candidates⟩

theorem Speaks.mono {s : Side} {stage : SessionTask.Stage} (h : Speaks me un s stage) :
    Speaks me un' s stage := by
  cases stage with
  | syncing peer d => exact Holds.mono hle h
  | _ => exact h

theorem Sound.mono {m : Meeting} (h : Sound un m) : Sound un' m :=
  ⟨h.distinct, fun s => (h.agent s).mono hle, fun l hl s => (h.task l hl s).mono hle,
    fun l hl s msg hm => (h.inbound l hl s msg hm).mono hle, h.events, h.yielding⟩

end Mono

section Agents
variable {me : Side → Identity} {un : Side → Bool} {s : Side} {st t : State}

theorem Holds.adopts {d e : WorkspaceDoc} {slots : MachineId → Option MachineSlot}
    (h : Holds me un d) (hs : e.schemaVersion = d.schemaVersion)
    (ha : ∀ id : MachineId, WorkspaceDoc.Adopts d.machines[id]? (slots id) e.machines[id]?)
    (hin : ∀ x slot, slots (me x).machineId = some slot → Allows me un x slot.state) :
    Holds me un e := by
  refine ⟨hs ▸ h.schema, fun x => ?_⟩
  obtain hsame | ⟨slot, hslot, hnow, -⟩ := ha (me x).machineId
  · rw [hsame]
    exact h.slot x
  · exact ⟨slot, hnow, hin x slot hslot⟩

theorem Holds.allowed {d : WorkspaceDoc} (h : Holds me un d) {x : Side} {slot : MachineSlot}
    (hx : d.machines[(me x).machineId]? = some slot) : Allows me un x slot.state := by
  obtain ⟨own, hown, ha⟩ := h.slot x
  rwa [← Option.some.inj (hown.symm.trans hx)]

theorem Knows.merge (h : Knows me un s st) {d : WorkspaceDoc} (hd : Holds me un d) {c : Bool}
    (hm : st.merge d = .ok (t, c)) : Knows me un s t := by
  refine ⟨fun e he => ?_, fun hn => ?_, by rw [State.merge_candidates hm]; exact h.candidates⟩
  · cases hown : st.doc with
    | none =>
      obtain ⟨ht, -⟩ := State.merge_none hown hm
      rwa [← Option.some.inj (ht.symm.trans he)]
    | some own =>
      obtain ⟨x, hx, ht⟩ := State.merge_some hown hm
      obtain rfl := Option.some.inj (ht.symm.trans he)
      exact (h.doc own hown).adopts (WorkspaceDoc.merge_schemaVersion hx)
        (WorkspaceDoc.merge_slot hx) fun x slot hs => hd.allowed hs
  · cases hown : st.doc with
    | none =>
      rw [(State.merge_none hown hm).1] at hn
      cases hn
    | some own =>
      obtain ⟨x, -, ht⟩ := State.merge_some hown hm
      rw [ht] at hn
      cases hn

theorem Knows.apply (h : Knows me un s st) {u : WorkspaceUpdate} (hu : Writes me un u) {c : Bool}
    (ha : st.apply u = .ok (t, c)) : Knows me un s t := by
  cases hown : st.doc with
  | none =>
    obtain ⟨rfl, -⟩ := State.apply_none hown ha
    exact h
  | some own =>
    obtain ⟨d, hd, rfl⟩ := State.apply_some hown ha
    refine ⟨fun e he => ?_, nofun, h.candidates⟩
    obtain rfl := Option.some.inj he
    exact (h.doc own hown).adopts (WorkspaceDoc.apply_schemaVersion hd)
      (WorkspaceDoc.apply_slot hd) hu

theorem Knows.onRead (h : Knows me un s st) {msg : Message} (hm : Carries me un msg)
    (peer : MachineId) : Knows me un s (onRead st peer msg).2.1 := by
  cases msg with
  | docFull d =>
    cases hr : st.merge d with
    | error err => simpa [SessionTask.onRead, hr] using h
    | ok p => simpa [SessionTask.onRead, hr] using h.merge hm hr
  | update u =>
    cases hr : st.apply u with
    | error err => simpa [SessionTask.onRead, hr] using h
    | ok p => simpa [SessionTask.onRead, hr] using h.apply hm hr
  | _ => exact h

theorem Knows.mutate (h : Knows me un s st) {origin : MachineId} {now : ℕ} {op : Op}
    {u : WorkspaceUpdate} (hm : st.mutate origin now op = .ok (t, u)) (hu : Writes me un u) :
    Knows me un s t := by
  have hslot := State.mutate_slot hm
  obtain ⟨d, hd, rfl, -⟩ := State.mutate_some hm
  refine ⟨fun e he => ?_, nofun, h.candidates⟩
  obtain rfl := Option.some.inj he
  refine ⟨d.edit_schemaVersion origin now op ▸ (h.doc d hd).schema, fun x => ?_⟩
  have hnow := hslot (me x).machineId
  simp only [State.slot, hd, Option.bind_some] at hnow
  rw [hnow]
  cases hx : u.slot (me x).machineId with
  | none => exact (h.doc d hd).slot x
  | some slot => exact ⟨slot, rfl, hu x slot hx⟩

theorem Knows.onNetEvent (h : Knows me un s st) {e : NetEvent} (he : Reports me s e)
    (hm : Meeting.mismatch e = false) (now : ℕ) : Knows me un s (st.onNetEvent now e) := by
  cases e with
  | online id =>
    refine ⟨h.doc, h.trust, fun i c hc => ?_⟩
    change (st.candidates.erase id)[i]? = some c at hc
    rw [Std.ExtTreeMap.getElem?_erase] at hc
    split at hc
    · cases hc
    · exact h.candidates i c hc
  | offline id => exact ⟨h.doc, h.trust, h.candidates⟩
  | candidate id displayName key ws addr invited =>
    refine ⟨h.doc, h.trust, fun i c hc => ?_⟩
    change (st.candidates.insert id _)[i]? = some c at hc
    rw [Std.ExtTreeMap.getElem?_insert] at hc
    split at hc
    · obtain rfl := Option.some.inj hc
      exact he
    · exact h.candidates i c hc
  | rejected id key addr =>
    refine ⟨h.doc, h.trust, fun i c hc => ?_⟩
    change (st.candidates.insertIfNew id _)[i]? = some c at hc
    rw [Std.ExtTreeMap.getElem?_insertIfNew] at hc
    split at hc
    · obtain rfl := Option.some.inj hc
      exact he
    · exact h.candidates i c hc
  | differentWorkspaces => cases hm

theorem writes_of_upsert {u : WorkspaceUpdate} {record : MachineRecord}
    (hu : u.op = .upsertMachine record) (hr : Names me record.id record.publicKey) :
    Writes me un u := by
  intro x slot hx
  obtain ⟨r, hop, hid, hst⟩ | ⟨hop, -⟩ := WorkspaceUpdate.slot_eq_some hx
  · obtain rfl := Op.upsertMachine.inj (hu.symm.trans hop)
    rw [hst]
    exact hr x hid
  · rw [hu] at hop
    cases hop

theorem Knows.edit (h : Knows me un s st) {op : Op} (hc : asked me (.edit op) = true)
    {origin : MachineId} {now : ℕ} {u : WorkspaceUpdate}
    (hm : st.mutate origin now op = .ok (t, u)) : Knows me un s t ∧ Writes me un u := by
  have hop := State.mutate_update_op hm
  have hu : Writes me un u := by
    cases op with
    | upsertMachine record => exact writes_of_upsert hop (of_decide_eq_true hc)
    | removeMachine id => cases hc
    | setName name =>
      intro x slot hx
      simp [WorkspaceUpdate.slot, hop] at hx
    | setSettings settings =>
      intro x slot hx
      simp [WorkspaceUpdate.slot, hop] at hx
  exact ⟨h.mutate hm hu, hu⟩

theorem Knows.pair (h : Knows me un s st) {origin p : MachineId} {now : ℕ}
    {o : Option WorkspaceUpdate} (hp : st.pair origin now p = .ok (t, o)) :
    Knows me un s t ∧ ∀ u ∈ o, Writes me un u := by
  obtain ⟨c, hc, ⟨hd, rfl, rfl⟩ | ⟨record, v, u, hid, hkey, rfl, hm, rfl⟩⟩ := State.pair_some hp
  · have hnames := h.candidates p c hc
    refine ⟨⟨h.doc, fun _ => ?_, h.candidates⟩, nofun⟩
    rw [Std.ExtTreeMap.getElem?_insert]
    by_cases heq : c.machineId = (me s.other).machineId
    · simp [heq, hnames s.other heq]
    · simp [heq, h.trust hd]
  · have hu : Writes me un u := by
      refine writes_of_upsert (State.mutate_update_op hm) ?_
      rw [hid, hkey]
      exact h.candidates p c hc
    have hv := h.mutate hm hu
    refine ⟨⟨hv.doc, hv.trust, fun i c hc => ?_⟩, fun x hx => ?_⟩
    · change (v.candidates.erase p)[i]? = some c at hc
      rw [Std.ExtTreeMap.getElem?_erase] at hc
      split at hc
      · cases hc
      · exact hv.candidates i c hc
    · obtain rfl := Option.some.inj hx
      exact hu

theorem Knows.unpair (h : Knows me un s st) {now : ℕ} {p : MachineId} {u : WorkspaceUpdate}
    (hp : st.unpair (me s).machineId now p = .ok (t, u))
    (hun : p = (me s.other).machineId → un s = true) : Knows me un s t ∧ Writes me un u := by
  have hne := State.unpair_ne hp
  obtain ⟨v, hm, rfl⟩ := State.unpair_some hp
  have hu : Writes me un u := by
    intro x slot hx
    obtain ⟨r, hop, -⟩ | ⟨hop, hst⟩ := WorkspaceUpdate.slot_eq_some hx
    · rw [State.mutate_update_op hm] at hop
      cases hop
    · obtain rfl := Op.removeMachine.inj ((State.mutate_update_op hm).symm.trans hop)
      obtain rfl : x = s.other := Side.eq_other_of_ne fun hx => hne (by rw [hx])
      rw [hst]
      change un s.other.other = true
      rw [Side.other_other]
      exact hun rfl
  have hv := h.mutate hm hu
  exact ⟨⟨hv.doc, hv.trust, hv.candidates⟩, hu⟩

theorem Knows.change (h : Knows me un s st) {c : Change} (hc : asked me c = true) {now : ℕ}
    (hun : (st.issued (me s).machineId now c).isSome →
      c.unpairs (me s.other).machineId = true → un s = true) :
    Knows me un s (st.change (me s).machineId now c) ∧
      ∀ u ∈ st.issued (me s).machineId now c, Writes me un u := by
  cases c with
  | edit op =>
    cases hm : st.mutate (me s).machineId now op with
    | error err => simpa [State.change, State.issued, hm, Except.toOption] using h
    | ok r => simpa [State.change, State.issued, hm, Except.toOption] using h.edit hc hm
  | pair p =>
    cases hp : st.pair (me s).machineId now p with
    | error err => simpa [State.change, State.issued, hp, Except.toOption] using h
    | ok r => simpa [State.change, State.issued, hp, Except.toOption] using h.pair hp
  | unpair p =>
    cases hp : st.unpair (me s).machineId now p with
    | error err => simpa [State.change, State.issued, hp, Except.toOption] using h
    | ok r =>
      have hun' : p = (me s.other).machineId → un s = true := fun hid =>
        hun (by simp [State.issued, hp, Except.toOption]) (decide_eq_true hid)
      simpa [State.change, State.issued, hp, Except.toOption] using h.unpair hp hun'
  | hear peer msg => cases hc
  | notice e =>
    refine ⟨?_, fun u hu => by cases hu⟩
    cases e with
    | differentWorkspaces => cases hc
    | online id => exact h.onNetEvent (e := .online id) trivial rfl now
    | offline id => exact h.onNetEvent (e := .offline id) trivial rfl now
    | candidate id displayName key ws addr invited =>
      have hnames : Names me id key := of_decide_eq_true hc
      exact h.onNetEvent (e := .candidate id displayName key ws addr invited) hnames rfl now
    | rejected id key addr =>
      have hnames : Names me id key := of_decide_eq_true hc
      exact h.onNetEvent (e := .rejected id key addr) hnames rfl now

theorem names_other (hne : (me .left).machineId ≠ (me .right).machineId) (s : Side) :
    Names me (me s).machineId (me s).publicKey := by
  intro x hx
  cases s <;> cases x
  · rfl
  · exact absurd hx hne
  · exact absurd hx.symm hne
  · rfl

theorem Speaks.step {task u : SessionTask} {e : SessionTask.Event} {os : List SessionOutcome}
    (h : Speaks me un s task.stage) (hne : (me .left).machineId ≠ (me .right).machineId)
    (hst : Knows me un s st) (hs : task.step st e = some (u, t, os)) :
    Speaks me un s u.stage ∧ ∀ o ∈ os, ∀ ev ∈ reported o, Reports me s ev := by
  have hnone : ∀ o ∈ ([] : List SessionOutcome), ∀ ev ∈ reported o, Reports me s ev := nofun
  have hone : ∀ {o : SessionOutcome}, (∀ ev ∈ reported o, Reports me s ev) →
      ∀ p ∈ [o], ∀ ev ∈ reported p, Reports me s ev := fun h p hp => by
    obtain rfl := List.mem_singleton.mp hp
    exact h
  cases stepped hs with
  | connected hstage | greeted hstage | refused hstage => exact absurd h (by rw [hstage]; exact id)
  | admitted hstage | identify hstage =>
    rw [hstage] at h
    exact ⟨h, hnone⟩
  | rejected hstage =>
    rw [hstage] at h
    obtain ⟨rfl, rfl⟩ := h
    refine ⟨trivial, hone fun ev hev => ?_⟩
    obtain rfl := List.mem_singleton.mp hev
    exact names_other hne s.other
  | different hstage =>
    rw [hstage] at h
    refine ⟨trivial, hone fun ev hev => ?_⟩
    obtain rfl := List.mem_singleton.mp hev
    exact h
  | established hstage =>
    refine ⟨trivial, hone fun ev hev => ?_⟩
    obtain rfl := List.mem_singleton.mp hev
    trivial
  | unidentified | nothing | synced | unsynced | lost | dropped | panicked =>
    exact ⟨trivial, hnone⟩
  | snapshot hstage hd => exact ⟨hst.doc _ hd, hnone⟩
  | read hstage hr hnext hos =>
    refine ⟨?_, ?_⟩
    · obtain rfl | ⟨reason, rfl⟩ := hnext <;> trivial
    · obtain rfl | rfl := hos
      · exact hnone
      · exact hone nofun
  | close hstage =>
    refine ⟨trivial, hone fun ev hev => ?_⟩
    obtain rfl := List.mem_singleton.mp hev
    trivial
  | report hstage =>
    refine ⟨trivial, fun o ho ev hev => ?_⟩
    obtain ⟨expect, -, rfl⟩ := List.mem_map.mp ho
    obtain rfl := List.mem_singleton.mp hev
    trivial

theorem Speaks.told {task u : SessionTask} {e : SessionTask.Event} {os : List SessionOutcome}
    (h : Speaks me un s task.stage) (hs : task.step st e = some (u, t, os)) (origin : MachineId)
    (computerName : String) :
    ∀ msg ∈ Meeting.told st origin computerName u e, Carries me un msg := by
  intro msg hm
  obtain ⟨-, rfl⟩ | rfl | ⟨peer, d, hstage, rfl⟩ := Meeting.mem_told hs hm
  · trivial
  · trivial
  · rw [hstage] at h
    exact h

end Agents

/-- What a step needs to say nothing false of the two machines. -/
def Truthful (unpaired : Side → Bool) (m : Meeting) : Meeting.Action → Prop
  | .change s now c => asked m.me c = true ∧
      (((m.state s).issued (m.me s).machineId now c).isSome →
        c.unpairs (m.me s.other).machineId = true → unpaired s = true)
  | .write _ _ (.update u) => Writes m.me unpaired u
  | _ => True

section Meetings
variable {un : Side → Bool} {m m' : Meeting}

theorem step_me {a : Meeting.Action} (hs : m.step a = some m') : m'.me = m.me := by
  cases a with
  | connect | change =>
    obtain rfl := Option.some.inj hs
    rfl
  | session i s e name =>
    simp only [Meeting.step, Option.bind_eq_bind, Option.bind_eq_some_iff] at hs
    obtain ⟨l, -, hs⟩ := hs
    split at hs
    · simp only [Option.bind_eq_some_iff] at hs
      obtain ⟨⟨u, agent, os⟩, -, hs⟩ := hs
      obtain rfl := Option.some.inj hs
      rfl
    · cases hs
  | write i s msg =>
    simp only [Meeting.step, Option.bind_eq_bind, Option.bind_eq_some_iff] at hs
    obtain ⟨l, -, hs⟩ := hs
    split at hs
    · obtain rfl := Option.some.inj hs
      rfl
    · cases hs
  | event s now missed =>
    simp only [Meeting.step] at hs
    repeat' split at hs
    all_goals first
      | obtain rfl := Option.some.inj hs
        rfl
      | cases hs
  | adopt s =>
    simp only [Meeting.step] at hs
    split at hs
    · obtain rfl := Option.some.inj hs
      rfl
    · cases hs

theorem Sound.state (h : Sound un m) {s : Side} {st : State} (hst : Knows m.me un s st) :
    Sound un { m with state := Function.update m.state s st } :=
  ⟨h.distinct, (Function.forall_update_iff _ fun x st => Knows m.me un x st).mpr
    ⟨hst, fun x _ => h.agent x⟩, h.task, h.inbound, h.events, h.yielding⟩

theorem Sound.yield (h : Sound un m) {s : Side} {y : Option (MachineId × PubKey)}
    (hy : Chooses m.me s y) : Sound un { m with yielding := Function.update m.yielding s y } :=
  ⟨h.distinct, h.agent, h.task, h.inbound, h.events,
    (Function.forall_update_iff _ fun x y => Chooses m.me x y).mpr ⟨hy, fun x _ => h.yielding x⟩⟩

theorem Sound.relink (h : Sound un m) {i : ℕ} {l : Link} {s : Side} {u : SessionTask}
    (read : Bool) {out : List Message} (hl : m.links[i]? = some l)
    (hu : Speaks m.me un s u.stage) (ho : ∀ msg ∈ out, Carries m.me un msg) :
    Sound un { m with links := m.links.set i (l.moved s u read out) } := by
  have hmem := List.mem_of_getElem? hl
  refine ⟨h.distinct, h.agent, fun k hk => ?_, fun k hk x msg hm => ?_, h.events, h.yielding⟩
  · obtain hk | rfl := List.mem_or_eq_of_mem_set hk
    · exact h.task k hk
    · exact (Function.forall_update_iff _ fun x (t : SessionTask) =>
        Speaks m.me un x t.stage).mpr ⟨hu, fun x _ => h.task l hmem x⟩
  · obtain hk | rfl := List.mem_or_eq_of_mem_set hk
    · exact h.inbound k hk x msg hm
    · obtain hm | ⟨-, hm⟩ := Meeting.mem_moved hm
      · exact h.inbound l hmem x msg hm
      · exact ho msg hm

theorem Sound.session (h : Sound un m) {i : ℕ} {s : Side} {e : SessionTask.Event} {name : String}
    (hs : m.step (.session i s e name) = some m') : Sound un m' := by
  simp only [Meeting.step, Option.bind_eq_bind, Option.bind_eq_some_iff] at hs
  obtain ⟨l, hl, hs⟩ := hs
  split at hs
  swap
  · cases hs
  rename_i hread
  simp only [Option.bind_eq_some_iff] at hs
  obtain ⟨⟨u, agent, os⟩, hu, hs⟩ := hs
  obtain rfl := Option.some.inj hs
  have hll := List.mem_of_getElem? hl
  have hspeaks := h.task l hll s
  obtain ⟨hstage, hreports⟩ := hspeaks.step h.distinct (h.agent s) hu
  have hagent : Knows m.me un s agent := by
    obtain rfl | ⟨peer, msg, rfl, rfl⟩ := Meeting.step_agent hu
    · exact h.agent s
    · exact (h.agent s).onRead (h.inbound l hll s msg (List.mem_of_head? (hread msg rfl))) peer
  have hout := hspeaks.told hu (m.me s).machineId name
  have hv := (h.relink (Meeting.taken e).isSome hl hstage hout).state hagent
  refine ⟨hv.distinct, hv.agent, hv.task, hv.inbound, fun x ev hev => ?_, hv.yielding⟩
  by_cases hx : x = s
  · subst hx
    simp only [Function.update_self, List.mem_append, List.mem_flatMap] at hev
    obtain hev | ⟨o, ho, hev⟩ := hev
    · exact h.events x ev hev
    · exact hreports o ho ev hev
  · simp only [Function.update_of_ne hx] at hev
    exact h.events x ev hev

theorem Sound.event (h : Sound un m) {s : Side} {now : ℕ} {missed : Bool}
    (hs : m.step (.event s now missed) = some m') : Sound un m' := by
  simp only [Meeting.step] at hs
  split at hs
  swap
  · cases hs
  rename_i e rest he hn
  have hev : Reports m.me s e := h.events s e (by rw [he]; exact List.mem_cons_self)
  have hrest : Sound un { m with events := Function.update m.events s rest } := by
    refine ⟨h.distinct, h.agent, h.task, h.inbound, fun x ev hev => ?_, h.yielding⟩
    by_cases hx : x = s
    · subst hx
      simp only [Function.update_self] at hev
      exact h.events x ev (by rw [he]; exact List.mem_cons_of_mem _ hev)
    · simp only [Function.update_of_ne hx] at hev
      exact h.events x ev hev
  split at hs
  · obtain rfl := Option.some.inj hs
    exact hrest
  split at hs
  · split at hs
    · split at hs
      · obtain rfl := Option.some.inj hs
        refine hrest.yield fun p hp => ?_
        obtain rfl := Option.some.inj hp
        exact Prod.ext hev.1 hev.2
      · obtain rfl := Option.some.inj hs
        exact hrest
    · obtain rfl := Option.some.inj hs
      exact hrest
  · rename_i hne
    obtain rfl := Option.some.inj hs
    refine hrest.state ((h.agent s).onNetEvent hev ?_ now)
    cases e with
    | differentWorkspaces id key ws n => exact absurd rfl (hne id key ws n)
    | _ => rfl

theorem Sound.adopt (h : Sound un m) {s : Side} (hs : m.step (.adopt s) = some m') :
    Sound un m' := by
  simp only [Meeting.step] at hs
  split at hs
  swap
  · cases hs
  rename_i id key hy
  obtain rfl := Option.some.inj hs
  obtain ⟨rfl, rfl⟩ := Prod.mk.inj (h.yielding s _ hy)
  have hgone : Knows m.me un s
      ((m.state s).adoptConfigurationOf (m.me s.other).machineId (m.me s.other).publicKey) :=
    ⟨(fun _ hd => by cases hd), fun _ => Std.ExtTreeMap.getElem?_insert_self,
      (h.agent s).candidates⟩
  have hv := (h.state hgone).yield (s := s) (y := none) fun _ hy => by cases hy
  exact ⟨hv.distinct, hv.agent, hv.task, hv.inbound, hv.events, hv.yielding⟩

theorem Sound.step (h : Sound un m) {a : Meeting.Action} (ha : Truthful un m a)
    (hs : m.step a = some m') : Sound un m' := by
  cases a with
  | connect dialler addr =>
    obtain rfl := Option.some.inj hs
    refine ⟨h.distinct, h.agent, fun l hl s => ?_, fun l hl s msg hm => ?_, h.events, h.yielding⟩
    · obtain hl | hl := List.mem_append.mp hl
      · exact h.task l hl s
      · obtain rfl := List.mem_singleton.mp hl
        exact ⟨rfl, rfl⟩
    · obtain hl | hl := List.mem_append.mp hl
      · exact h.inbound l hl s msg hm
      · obtain rfl := List.mem_singleton.mp hl
        cases hm
  | session i s e name => exact h.session hs
  | write i s msg =>
    simp only [Meeting.step, Option.bind_eq_bind, Option.bind_eq_some_iff] at hs
    obtain ⟨l, hl, hs⟩ := hs
    split at hs
    swap
    · cases hs
    rename_i hw
    obtain rfl := Option.some.inj hs
    refine h.relink false hl (h.task l (List.mem_of_getElem? hl) s) fun x hx => ?_
    obtain rfl := List.mem_singleton.mp hx
    cases x with
    | update u => exact ha
    | docFull d => simp [Meeting.opening] at hw
    | _ => trivial
  | change s now c =>
    obtain rfl := Option.some.inj hs
    exact h.state ((h.agent s).change ha.1 ha.2).1
  | event s now missed => exact h.event hs
  | adopt s => exact h.adopt hs

theorem Sound.restart (h : Sound un m) {s : Side} {d : WorkspaceDoc} (hd : Holds m.me un d) :
    Sound un (m.restart s (.ofDoc d)) := by
  have hst : Knows m.me un s (.ofDoc d) := by
    refine ⟨fun e he => ?_, nofun, fun i c hc => ?_⟩
    · rwa [← Option.some.inj he]
    · cases Std.ExtTreeMap.getElem?_empty.symm.trans hc
  have hv := (h.state hst).yield (s := s) (y := none) nofun
  refine ⟨hv.distinct, hv.agent, fun l hl => ?_, fun l hl => ?_, ?_, hv.yielding⟩
  · obtain ⟨k, hk, rfl⟩ := List.mem_map.mp hl
    exact (Function.forall_update_iff _ fun x (t : SessionTask) =>
      Speaks m.me un x t.stage).mpr ⟨trivial, fun x _ => h.task k hk x⟩
  · obtain ⟨k, hk, rfl⟩ := List.mem_map.mp hl
    exact (Function.forall_update_iff _ fun _ msgs => ∀ msg ∈ msgs, Carries m.me un msg).mpr
      ⟨nofun, fun x _ => h.inbound k hk x⟩
  · exact (Function.forall_update_iff _ fun x es => ∀ e ∈ es, Reports m.me x e).mpr
      ⟨nofun, fun x _ => h.events x⟩

end Meetings

/-- Whatever the two have said, written or begun to write keeps them admitted. -/
structure Intact (json : Json WorkspaceDoc) (w : Reunion) : Prop where
  meeting : Sound w.unpaired w.meeting
  made : ∀ s, ∀ u ∈ w.made s, Writes w.meeting.me w.unpaired u
  saved : ∀ d ∈ w.saved, Holds w.meeting.me w.unpaired d
  file : ∀ s, Kept json w.saved (w.disk s workspaceFile)
  saving : ∀ s, Underway json w.saved (w.disk s (tmp workspaceFile)) (w.saving s)
  clearing : ∀ s, w.clearing s ⊆ clearWorkspace

section Steps
variable {w v : Reunion}

theorem Intact.meet (h : Intact json w) {m : Meeting} (hm : Sound w.unpaired m)
    (hme : m.me = w.meeting.me) : Intact json { w with meeting := m } :=
  ⟨hm, hme ▸ h.made, hme ▸ h.saved, h.file, h.saving, h.clearing⟩

theorem Intact.persist (h : Intact json w) (s : Side) : Intact json (w.persist json s) := by
  unfold Reunion.persist
  split
  · rename_i d hd
    have hsub : w.saved ⊆ w.saved ++ [d] := List.subset_append_left ..
    refine ⟨h.meeting, h.made, fun e he => ?_, fun x => (h.file x).mono hsub, ?_, h.clearing⟩
    · obtain he | he := List.mem_append.mp he
      · exact h.saved e he
      · obtain rfl := List.mem_singleton.mp he
        exact (h.meeting.agent s).doc e hd
    · refine (Function.forall_update_iff _ fun x stages =>
        Underway json _ (w.disk x (tmp workspaceFile)) stages).mpr ⟨?_, fun x _ => ?_⟩
      · exact .create (List.mem_append_right _ (List.mem_singleton_self d))
      · exact (h.saving x).mono hsub
  · exact h

theorem Intact.issue (h : Intact json w) {s : Side} {un : Side → Bool} {u : WorkspaceUpdate}
    (hle : ∀ x, w.unpaired x = true → un x = true) (hu : Writes w.meeting.me un u) :
    Intact json { w with made := Function.update w.made s (w.made s ++ [u]), unpaired := un } := by
  refine ⟨h.meeting.mono hle, ?_, fun d hd => (h.saved d hd).mono hle, h.file, h.saving,
    h.clearing⟩
  refine (Function.forall_update_iff _ fun _ us => ∀ u ∈ us, Writes w.meeting.me un u).mpr
    ⟨fun x hx => ?_, fun x _ y hy => (h.made x y hy).mono hle⟩
  obtain hx | hx := List.mem_append.mp hx
  · exact (h.made s x hx).mono hle
  · obtain rfl := List.mem_singleton.mp hx
    exact hu

theorem Intact.act (h : Intact json w) {a : Meeting.Action}
    (hs : w.step json (.act a) = some v) : Intact json v := by
  simp only [Reunion.step] at hs
  split at hs
  swap
  · cases hs
  rename_i hready
  obtain ⟨m, hm, rfl⟩ := Option.map_eq_some_iff.mp hs
  have hme := step_me hm
  cases a with
  | change s now c =>
    obtain ⟨hasked, -⟩ := Bool.and_eq_true_iff.mp hready
    simp only [after]
    cases hi : (w.meeting.state s).issued (w.meeting.me s).machineId now c with
    | none =>
      refine h.meet (h.meeting.step (a := .change s now c) ⟨hasked, fun hsome => ?_⟩ hm) hme
      rw [hi] at hsome
      cases hsome
    | some u =>
      set un := Function.update w.unpaired s
        (w.unpaired s || c.unpairs (w.meeting.me s.other).machineId)
      have hle : ∀ x, w.unpaired x = true → un x = true :=
        (Function.forall_update_iff w.unpaired fun x b => w.unpaired x = true → b = true).mpr
          ⟨fun hx => by rw [hx, Bool.true_or], fun x _ hx => hx⟩
      have hsound := h.meeting.mono hle
      have hun : c.unpairs (w.meeting.me s.other).machineId = true → un s = true := fun hc => by
        simp [un, hc]
      have hu := ((hsound.agent s).change hasked fun _ => hun).2 u hi
      have hv := (h.issue (s := s) hle hu).meet
        (hsound.step (a := .change s now c) ⟨hasked, fun _ => hun⟩ hm) hme
      exact hv.persist s
  | session i s e name =>
    have hv := h.meet (h.meeting.session hm) hme
    cases e with
    | read msg =>
      simp only [after]
      split
      · exact hv
      · exact hv.persist s
    | _ => exact hv
  | adopt s =>
    have hv := h.meet (h.meeting.adopt hm) hme
    refine ⟨hv.meeting, hv.made, hv.saved, hv.file, hv.saving, ?_⟩
    exact (Function.forall_update_iff _ fun _ stages => stages ⊆ clearWorkspace).mpr
      ⟨List.Subset.refl _, fun x _ => h.clearing x⟩
  | connect dialler addr =>
    exact h.meet (h.meeting.step (a := .connect dialler addr) trivial hm) hme
  | event s now missed => exact h.meet (h.meeting.event hm) hme
  | write i s msg =>
    refine h.meet (h.meeting.step (a := .write i s msg) ?_ hm) hme
    cases msg with
    | update u => exact h.made s u (of_decide_eq_true hready)
    | _ => trivial

theorem Intact.save (h : Intact json w) {s : Side} {failure : Option ℕ}
    (hs : w.step json (.save s failure) = some v) : Intact json v := by
  obtain ⟨⟨disk, rest⟩, ha, rfl⟩ := Option.map_eq_some_iff.mp hs
  obtain ⟨hsaving, hfile⟩ := advance_save (h.saving s) ha (h.file s)
  refine ⟨h.meeting, h.made, h.saved, ?_, fun x => ?_, h.clearing⟩
  · exact (Function.forall_update_iff _ fun _ (d : Dir) => Kept json w.saved (d workspaceFile)).mpr
      ⟨hfile, fun x _ => h.file x⟩
  · by_cases hx : x = s
    · subst hx
      simpa only [Function.update_self] using hsaving
    · simpa only [Function.update_of_ne hx] using h.saving x

theorem Intact.clear (h : Intact json w) {s : Side} {failure : Option ℕ}
    (hs : w.step json (.clear s failure) = some v) : Intact json v := by
  obtain ⟨⟨disk, rest⟩, ha, rfl⟩ := Option.map_eq_some_iff.mp hs
  obtain ⟨hrest, hdisk⟩ := advance_clear (h.clearing s) ha
  refine ⟨h.meeting, h.made, h.saved, ?_, ?_, ?_⟩
  · refine (Function.forall_update_iff _ fun _ (d : Dir) =>
      Kept json w.saved (d workspaceFile)).mpr ⟨?_, fun x _ => h.file x⟩
    obtain hsame | hgone := hdisk workspaceFile
    · rw [hsame]
      exact h.file s
    · exact .inl hgone
  · refine (Function.forall_update_iff _ fun x (d : Dir) =>
      Underway json w.saved (d (tmp workspaceFile)) (w.saving x)).mpr ⟨?_, fun x _ => h.saving x⟩
    obtain hsame | hgone := hdisk (tmp workspaceFile)
    · rw [hsame]
      exact h.saving s
    · rw [hgone]
      exact (h.saving s).removed
  · exact (Function.forall_update_iff _ fun _ stages => stages ⊆ clearWorkspace).mpr
      ⟨hrest, fun x _ => h.clearing x⟩

theorem Intact.load (h : Intact json w)
    (hjson : ∀ d ∈ w.saved, json.parse (json.render d) = some d) {s : Side}
    (hf : w.disk s workspaceFile ≠ .missing) (me : Identity) (l : Launch) :
    ∃ d ∈ w.saved, Agent.load json me l (w.disk s) = some (d, w.disk s) := by
  obtain ⟨d, hd, hfile⟩ := (h.file s).resolve_left hf
  have hload := loadWorkspace_of_reads ⟨_, hfile, hjson d hd⟩ (h.saved d hd).schema
  exact ⟨d, hd, by rw [Agent.load, hload]⟩

theorem Intact.restart (h : Intact json w)
    (hjson : ∀ d ∈ w.saved, json.parse (json.render d) = some d) {s : Side} {l : Launch}
    (hok : w.StartsOnFile (.restart s l)) (hs : w.step json (.restart s l) = some v) :
    Intact json v := by
  obtain ⟨d, hd, hload⟩ := h.load hjson hok (w.meeting.me s) l
  simp only [Reunion.step, hload] at hs
  obtain rfl := Option.some.inj hs
  have hholds := h.saved d hd
  have hsub : w.saved ⊆ w.saved ++ [d] := List.subset_append_left ..
  refine ⟨h.meeting.restart hholds, h.made, fun e he => ?_, fun x => ?_, ?_, ?_⟩
  · obtain he | he := List.mem_append.mp he
    · exact h.saved e he
    · obtain rfl := List.mem_singleton.mp he
      exact hholds
  · rw [Function.update_eq_self]
    exact (h.file x).mono hsub
  · rw [Function.update_eq_self]
    exact (Function.forall_update_iff _ fun x stages =>
      Underway json (w.saved ++ [d]) (w.disk x (tmp workspaceFile)) stages).mpr
      ⟨.finished, fun x _ => (h.saving x).mono hsub⟩
  · exact (Function.forall_update_iff _ fun _ stages => stages ⊆ clearWorkspace).mpr
      ⟨List.nil_subset _, fun x _ => h.clearing x⟩

theorem Intact.step (h : Intact json w)
    (hjson : ∀ d ∈ w.saved, json.parse (json.render d) = some d) {a : Action}
    (hok : w.StartsOnFile a) (hs : w.step json a = some v) : Intact json v := by
  cases a with
  | act a => exact h.act hs
  | save s failure => exact h.save hs
  | clear s failure => exact h.clear hs
  | restart s l => exact h.restart hjson hok hs

theorem saved_subset {a : Action} (hs : w.step json a = some v) : w.saved ⊆ v.saved := by
  have hpersist : ∀ {u : Reunion} (s : Side), u.saved = w.saved →
      w.saved ⊆ (u.persist json s).saved := fun {u} s hu => by
    rw [← hu]
    unfold Reunion.persist
    split
    · exact List.subset_append_left ..
    · exact List.Subset.refl _
  cases a with
  | act a =>
    simp only [Reunion.step] at hs
    split at hs
    swap
    · cases hs
    obtain ⟨m, -, rfl⟩ := Option.map_eq_some_iff.mp hs
    unfold after
    split
    · split
      · exact hpersist _ rfl
      · exact List.Subset.refl _
    · dsimp only
      split
      · exact List.Subset.refl _
      · exact hpersist _ rfl
    · exact List.Subset.refl _
    · exact List.Subset.refl _
  | save s failure | clear s failure =>
    obtain ⟨_, -, rfl⟩ := Option.map_eq_some_iff.mp hs
    exact List.Subset.refl _
  | restart s l =>
    simp only [Reunion.step] at hs
    split at hs
    · obtain rfl := Option.some.inj hs
      exact List.subset_append_left ..
    · obtain rfl := Option.some.inj hs
      exact List.Subset.refl _

theorem intact_run {as : List Action} (h : Run (step json) StartsOnFile w as v)
    (hw : Intact json w) (hjson : ∀ d ∈ v.saved, json.parse (json.render d) = some d) :
    Intact json v := by
  induction h with
  | nil => exact hw
  | cons hok hs hrest ih =>
    refine ih (hw.step (fun d hd => hjson d ?_) hok hs) hjson
    exact hrest.related (R := fun a b => a.saved ⊆ b.saved) (fun _ => List.Subset.refl _)
      (fun _ _ _ => List.Subset.trans) (fun _ _ _ _ => saved_subset) (saved_subset hs hd)

end Steps

def Records (me : Side → Identity) (d : WorkspaceDoc) : Prop :=
  d.schemaVersion ≤ WorkspaceDoc.supportedSchema ∧
    ∀ x, ∃ r, d.machine (me x).machineId = some r ∧ r.publicKey = (me x).publicKey

/-- Two machines that have admitted each other, with nothing under way. -/
structure Admitted (json : Json WorkspaceDoc) (w : Reunion) : Prop where
  distinct : (w.meeting.me .left).machineId ≠ (w.meeting.me .right).machineId
  doc : ∀ s, ∃ d, (w.meeting.state s).doc = some d ∧ Records w.meeting.me d
  saved : ∀ d ∈ w.saved, Records w.meeting.me d
  file : ∀ s, ∃ d ∈ w.saved, w.disk s workspaceFile = .file (json.render d)
  candidates : ∀ s (i : MachineId) (c : Candidate), (w.meeting.state s).candidates[i]? = some c →
    Names w.meeting.me c.machineId c.identityKey
  links : w.meeting.links = []
  events : ∀ s, w.meeting.events s = []
  yielding : ∀ s, w.meeting.yielding s = none
  made : ∀ s, w.made s = []
  saving : ∀ s, w.saving s = []
  clearing : ∀ s, w.clearing s = []

theorem Records.holds {me : Side → Identity} {d : WorkspaceDoc} (h : Records me d)
    (un : Side → Bool) : Holds me un d := by
  refine ⟨h.1, fun x => ?_⟩
  obtain ⟨r, hr, hkey⟩ := h.2 x
  unfold WorkspaceDoc.machine at hr
  split at hr
  · rename_i stamp record hslot
    obtain rfl := Option.some.inj hr
    exact ⟨_, hslot, hkey⟩
  · cases hr

theorem Admitted.intact {w : Reunion} (h : Admitted json w) : Intact json w := by
  refine ⟨⟨h.distinct, fun s => ?_, ?_, ?_, fun s => ?_, fun s => ?_⟩, fun s => ?_,
    fun d hd => (h.saved d hd).holds _, fun s => ?_, fun s => ?_, fun s => ?_⟩
  · obtain ⟨d, hd, hrec⟩ := h.doc s
    refine ⟨fun e he => ?_, fun hn => ?_, h.candidates s⟩
    · rw [← Option.some.inj (hd.symm.trans he)]
      exact hrec.holds _
    · rw [hd] at hn
      cases hn
  · rw [h.links]
    nofun
  · rw [h.links]
    nofun
  · rw [h.events s]
    nofun
  · rw [h.yielding s]
    nofun
  · rw [h.made s]
    nofun
  · obtain ⟨d, hd, hf⟩ := h.file s
    exact .inr ⟨d, hd, hf⟩
  · rw [h.saving s]
    exact .finished
  · rw [h.clearing s]
    exact List.nil_subset _

theorem Intact.letsIn {w : Reunion} (h : Intact json w) {s : Side}
    (hu : w.unpaired s = false) : w.LetsIn s := by
  have hst := h.meeting.agent s
  have hauth : (w.meeting.state s).authorize (w.meeting.me s.other).machineId
      (w.meeting.me s.other).publicKey = true := by
    rw [State.authorize_iff, State.machine_eq, State.slot]
    cases hd : (w.meeting.state s).doc with
    | none => exact .inr ⟨rfl, hst.trust hd⟩
    | some d =>
      obtain ⟨⟨stamp, st⟩, hslot, hallows⟩ := (hst.doc d hd).slot s.other
      cases st with
      | present r => exact .inl ⟨r, by simp [hslot, SlotState.record], hallows⟩
      | removed =>
        change w.unpaired s.other.other = true at hallows
        rw [Side.other_other, hu] at hallows
        cases hallows
  exact ⟨hauth, fun dialler addr => ⟨_, by simp [SessionTask.step, Meeting.greeted, hauth]; rfl,
    rfl⟩⟩

/-- While no process starts without the workspace in its directory, the two let each other in,
whatever was being saved or given up, unless they have unpaired one another. -/
theorem letsIn_of_startsOnFile (json : Json WorkspaceDoc) (w v : Reunion) (as : List Action)
    (hw : Admitted json w) (h : Run (step json) StartsOnFile w as v)
    (hjson : ∀ d ∈ v.saved, json.parse (json.render d) = some d) (s : Side)
    (hu : v.unpaired s = false) : v.LetsIn s :=
  (intact_run h hw.intact hjson).letsIn hu

/-- A process that does not find the workspace founds another, and the other machine is a stranger
to it. -/
theorem not_letsIn_of_missing {w v : Reunion} {s : Side} {l : Launch}
    (hne : (w.meeting.me s.other).machineId ≠ (w.meeting.me s).machineId)
    (hf : w.disk s workspaceFile = .missing) (hs : w.step json (.restart s l) = some v) :
    ¬ v.LetsIn s := by
  have hload : loadWorkspace json (w.disk s) = .ok none := by
    simp [loadWorkspace, readWithFallback, readJson, hf]
  have hnone : ∀ st : State, st.machine (w.meeting.me s.other).machineId = none →
      st.pendingTrust = ∅ → ¬ st.authorize (w.meeting.me s.other).machineId
        (w.meeting.me s.other).publicKey = true := fun st hm ht h => by
    simp [State.authorize, hm, ht] at h
  simp only [Reunion.step, Agent.load, hload] at hs
  rintro ⟨h, -⟩
  split at hs
  · rename_i d disk hd
    obtain ⟨e, -, he⟩ := Option.map_eq_some_iff.mp hd
    obtain rfl := (Prod.mk.inj he).1
    obtain rfl := Option.some.inj hs
    simp only [Meeting.restart, Function.update_self] at h
    refine hnone _ ?_ rfl h
    simp [State.machine, State.ofDoc, WorkspaceDoc.machine, WorkspaceDoc.create, localRecord,
      hne.symm]
  · obtain rfl := Option.some.inj hs
    simp only [Meeting.restart, Function.update_self] at h
    exact hnone _ rfl rfl h

def assumedDisplay : DisplayInfo :=
  ⟨"assumed", "Screen (not detected)", 0, 0, 1920, 1080, 0x3f800000, true⟩

def nextMorning : Launch := ⟨11, 0, "Studio", .macOs, [assumedDisplay]⟩

/-- What the studio founds when it finds no workspace. -/
def founded : WorkspaceDoc := .create 11 0 "Studio" (localRecord ⟨1, 11⟩ nextMorning)

def samples : List WorkspaceDoc := [together, Meeting.laptops, founded]

theorem samples_told_apart : (samples.map WorkspaceDoc.text).Nodup := by
  decide +kernel

def atOdds : Reunion where
  meeting := Meeting.atOdds
  disk
    | .left => dirOf together.text .missing
    | .right => dirOf Meeting.laptops.text .missing
  saving _ := []
  clearing _ := []
  made _ := []
  saved := [together, Meeting.laptops]
  unpaired _ := false

theorem records_samples : ∀ d ∈ [together, Meeting.laptops], Records Meeting.atOdds.me d := by
  intro d hd
  refine ⟨?_, fun x => ?_⟩
  · revert d
    decide +kernel
  · have hsome : ∀ d ∈ [together, Meeting.laptops], ∀ x,
        (d.machine (Meeting.atOdds.me x).machineId).map MachineRecord.publicKey =
          some (Meeting.atOdds.me x).publicKey := by decide +kernel
    exact Option.map_eq_some_iff.mp (hsome d hd x)

theorem admitted_atOdds : Admitted (textJson samples) atOdds where
  distinct := by decide
  doc
    | .left => ⟨together, rfl, records_samples _ (by simp)⟩
    | .right => ⟨Meeting.laptops, rfl, records_samples _ (by simp)⟩
  saved := records_samples
  file
    | .left => ⟨together, by simp [atOdds], rfl⟩
    | .right => ⟨Meeting.laptops, by simp [atOdds], rfl⟩
  candidates s i c hc := by
    cases s <;> cases Std.ExtTreeMap.getElem?_empty.symm.trans hc
  links := rfl
  events _ := rfl
  yielding _ := rfl
  made _ := rfl
  saving _ := rfl
  clearing _ := rfl

/-- The studio gives its configuration up for the laptop's, and its files are removed. -/
def giveUp : List Action :=
  (Meeting.exchange.map .act) ++ [.act (.event .left 0 false), .act (.adopt .left)] ++
    List.replicate 3 (.clear .left none)

/-- The two connect again, and the studio receives the laptop's document and saves it. -/
def receive : List Action :=
  [.connect .left "192.168.1.7:47452", .session 1 .left .authorise "",
    .session 1 .right .authorise "", .session 1 .left .identify "", .session 1 .right .identify "",
    .session 1 .left (.identified (.identify "Laptop" (some 9) 3)) "",
    .session 1 .right (.identified (.identify "" none 0)) "", .session 1 .right .snapshot "",
    .session 1 .right (.docFull 900 none) "", .session 1 .left .snapshot "",
    .session 1 .left (.read (.docFull Meeting.laptops)) ""].map .act ++
    List.replicate 5 (.save .left none)

/-- The studio is started again once the laptop's document is saved. -/
theorem letsIn_of_startsOnFile_received :
    ∃ v, Run (step (textJson samples)) StartsOnFile atOdds
        (giveUp ++ receive ++ [.restart .left nextMorning]) v ∧
      (v.meeting.state .left).doc = some Meeting.laptops ∧ v.LetsIn .left := by
  obtain ⟨v, hrun, hv⟩ := run_of_replay (step (textJson samples)) StartsOnFile atOdds
    (giveUp ++ receive ++ [.restart .left nextMorning])
    (fun v => ((v.meeting.state .left).doc, v.saved, v.unpaired .left))
    (b := (some Meeting.laptops,
      [together, Meeting.laptops, Meeting.laptops, Meeting.laptops], false)) (by decide +kernel)
  simp only [Prod.mk.injEq] at hv
  obtain ⟨hdoc, hsaved, hu⟩ := hv
  refine ⟨v, hrun, hdoc,
    letsIn_of_startsOnFile (textJson samples) _ v _ admitted_atOdds hrun (fun d hd => ?_) .left hu⟩
  rw [hsaved] at hd
  refine textJson_render samples_told_apart ?_
  simp only [List.mem_cons, samples] at hd ⊢
  tauto

/-- Started again before the laptop's document has come, the studio founds a workspace of its own
and no longer knows the laptop. -/
theorem restart_between_forgets :
    ∃ v, Admitted (textJson samples) atOdds ∧
      Run (step (textJson samples)) Any atOdds (giveUp ++ [.restart .left nextMorning]) v ∧
      (∀ d ∈ v.saved, (textJson samples).parse ((textJson samples).render d) = some d) ∧
      v.unpaired .left = false ∧ (v.meeting.state .left).doc = some founded ∧
      ¬ v.LetsIn .left := by
  obtain ⟨v, hrun, hv⟩ := run_of_replay (step (textJson samples)) Any atOdds
    (giveUp ++ [.restart .left nextMorning])
    (fun v => ((v.meeting.state .left).doc, v.saved, v.unpaired .left,
      (v.meeting.state .left).authorize (v.meeting.me .right).machineId
        (v.meeting.me .right).publicKey))
    (b := (some founded, [together, Meeting.laptops, founded], false, false)) (by decide +kernel)
  simp only [Prod.mk.injEq] at hv
  obtain ⟨hdoc, hsaved, hu, hauth⟩ := hv
  refine ⟨v, admitted_atOdds, hrun, fun d hd => ?_, hu, hdoc, fun h => ?_⟩
  · rw [hsaved] at hd
    exact textJson_render samples_told_apart hd
  · have hin := h.1
    rw [Side.other, hauth] at hin
    cases hin

end Reunion
end InputShare

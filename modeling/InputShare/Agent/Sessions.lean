import InputShare.Agent.Permission
import InputShare.Lib.Runs

/-! One agent with its open sessions: the permission to connect is checked when a session opens,
and what a peer sends is handled for as long as the session lasts. -/
namespace InputShare.Sessions
open Runs

inductive Stage where
  | handshaken | authorised | established | closed
deriving DecidableEq, Repr

structure Session where
  peer : MachineId
  key : PubKey
  stage : Stage
  /-- The workspace this machine was in when it identified itself. -/
  ours : Option WorkspaceId
deriving DecidableEq, Repr

def Session.admitted (s : Session) : Bool := s.stage = .authorised ∨ s.stage = .established

structure World where
  me : MachineId
  state : State
  announcedOwner : Option MachineId
  /-- Input waiting for the routing loop; `none` while sharing is off. -/
  remoteInput : Option (List (MachineId × List InputEvent))
  /-- Input replayed on this desktop. -/
  injected : List InputEvent
  sessions : List Session
  /-- What the network actor has reported and the agent has not taken yet. -/
  events : List NetEvent
  /-- Machines unpaired here and not admitted again since. -/
  revoked : Finset MachineId

inductive Action where
  | handshake (peer : MachineId) (key : PubKey)
  | authorise (i : ℕ) (addr : String)
  | identify (i : ℕ) (theirWorkspace : Option WorkspaceId) (theirSize : ℕ)
  /-- A message is read; `accepted` of its events can be replayed. -/
  | read (i : ℕ) (message : Message) (accepted : ℕ)
  | close (i : ℕ)
  | sighting (id : MachineId) (displayName : String) (key : PubKey)
      (workspaceId : Option WorkspaceId) (addr : String) (invitedUs : Bool)
  | agentEvent (now : ℕ)
  | lagged
  | pair (now : ℕ) (id : MachineId)
  | unpair (now : ℕ) (id : MachineId)
  | edit (now : ℕ) (op : Op)
  | adopt (id : MachineId) (key : PubKey)
  | share (on : Bool)
  | takeAnnounced
  | takeRemote

def start (me : MachineId) (s : State) : World := ⟨me, s, none, none, [], [], [], ∅⟩

/-- A revoked machine is admitted again when the document records it or it is trusted anew. -/
def World.put (w : World) (s : State) : World :=
  { w with
    state := s
    revoked := w.revoked.filter fun p => (s.machine p).isNone ∧
      (s.pendingTrust[p]? = none ∨ s.pendingTrust[p]? = w.state.pendingTrust[p]?) }

def World.onCursorOwner (w : World) (machine : MachineId) : World :=
  { w with announcedOwner := some machine }

def remoteCapacity : ℕ := 1024

def World.onInput (w : World) (src : MachineId) (events : List InputEvent) (accepted : ℕ) : World :=
  match w.remoteInput with
  | some queue =>
    if queue.length < remoteCapacity then { w with remoteInput := some (queue ++ [(src, events)]) }
    else w
  | none => { w with injected := w.injected ++ events.take accepted }

/-- One turn of `read_loop`; the flag says whether it goes on. -/
def World.handle (w : World) (peer : MachineId) (accepted : ℕ) : Message → World × Bool
  | .docFull doc =>
    match w.state.merge doc with
    | .ok (s, _) => (w.put s, true)
    | .error _ => (w, false)
  | .update update =>
    match w.state.apply update with
    | .ok (s, _) => (w.put s, true)
    | .error _ => (w, false)
  | .input events => (w.onInput peer events accepted, true)
  | .cursorOwner machine => (w.onCursorOwner machine, true)
  | .ping _ | .pong _ | .identify .. => (w, true)
  | .goodbye _ => (w, false)

def World.setSession (w : World) (i : ℕ) (s : Session) : World :=
  { w with sessions := w.sessions.set i s }

def World.report (w : World) (e : NetEvent) : World := { w with events := w.events ++ [e] }

def World.mutate (w : World) (now : ℕ) (op : Op) : World :=
  match w.state.mutate w.me now op with
  | .ok (s, _) => w.put s
  | .error _ => w

/-- A machine is only ever removed by unpairing it. -/
def step (w : World) : Action → Option World
  | .handshake peer key =>
    some { w with sessions := w.sessions ++ [⟨peer, key, .handshaken, none⟩] }
  | .authorise i addr => do
    let s ← w.sessions[i]?
    if s.stage = .handshaken then
      if w.state.authorize s.peer s.key then
        some (w.setSession i
          { s with stage := .authorised, ours := w.state.doc.map WorkspaceDoc.workspaceId })
      else some ((w.setSession i { s with stage := .closed }).report (.rejected s.peer s.key addr))
    else none
  | .identify i theirWorkspace theirSize => do
    let s ← w.sessions[i]?
    if s.stage = .authorised then
      match s.ours, theirWorkspace with
      | some ours, some theirs =>
        if ours ≠ theirs then
          some ((w.setSession i { s with stage := .closed }).report
            (.differentWorkspaces s.peer s.key theirs theirSize))
        else some ((w.setSession i { s with stage := .established }).report (.online s.peer))
      | _, _ => some ((w.setSession i { s with stage := .established }).report (.online s.peer))
    else none
  | .read i message accepted => do
    let s ← w.sessions[i]?
    if s.stage = .established then
      match w.handle s.peer accepted message with
      | (t, true) => some t
      | (t, false) => some ((t.setSession i { s with stage := .closed }).report (.offline s.peer))
    else none
  | .close i => do
    let s ← w.sessions[i]?
    some ((w.setSession i { s with stage := .closed }).report (.offline s.peer))
  | .sighting id displayName key workspaceId addr invitedUs =>
    if id = w.me ∨ w.state.authorize id key then some w
    else some (w.report (.candidate id displayName key workspaceId addr invitedUs))
  | .agentEvent now =>
    match w.events with
    | [] => none
    | e :: rest => some ({ w with events := rest }.put (w.state.onNetEvent now e))
  | .lagged =>
    match w.events with
    | [] => none
    | _ :: rest => some { w with events := rest }
  | .pair now id =>
    match w.state.pair w.me now id with
    | .ok (s, _) => some (w.put s)
    | .error _ => some w
  | .unpair now id =>
    match w.state.unpair w.me now id with
    | .ok (s, _) => some { w.put s with revoked := insert id (w.put s).revoked }
    | .error _ => some w
  | .edit now op =>
    match op with
    | .removeMachine _ => none
    | op => some (w.mutate now op)
  | .adopt id key => some (w.put (w.state.adoptConfigurationOf id key))
  | .share on => some { w with remoteInput := if on then some [] else none }
  | .takeAnnounced => some { w with announcedOwner := none }
  | .takeRemote =>
    match w.remoteInput with
    | some (_ :: rest) => some { w with remoteInput := some rest }
    | _ => none

/-- Without a document only `pending_trust` lets anyone in. -/
def AdoptKeeps (w : World) (id : MachineId) (key : PubKey) : Prop :=
  ∀ s ∈ w.sessions, s.admitted → (w.state.pendingTrust.insert id key)[s.peer]? = some s.key

instance (w : World) (id : MachineId) (key : PubKey) : Decidable (AdoptKeeps w id key) :=
  inferInstanceAs (Decidable (∀ s ∈ w.sessions, s.admitted →
    (w.state.pendingTrust.insert id key)[s.peer]? = some s.key))

/-- The next event makes the agent give its configuration up only when that keeps access. -/
def EventKept (w : World) : List NetEvent → Prop
  | .differentWorkspaces id key theirs size :: _ =>
    ∀ doc ∈ w.state.doc, shouldYield doc theirs size → AdoptKeeps w id key
  | _ => True

instance (w : World) : (es : List NetEvent) → Decidable (EventKept w es)
  | .differentWorkspaces id key theirs size :: _ => inferInstanceAs (Decidable
      (∀ doc ∈ w.state.doc, shouldYield doc theirs size → AdoptKeeps w id key))
  | [] | .online _ :: _ | .offline _ :: _ | .candidate .. :: _ | .rejected .. :: _ =>
    .isTrue trivial

/-- No step takes away the permission of a machine with a session open under it, and a machine
is unpaired only once it is not trusted any other way. -/
def Kept (w : World) : Action → Prop
  | .read _ message _ => ∀ s ∈ w.sessions, s.admitted →
      ∀ slot ∈ w.state.incoming s.peer message, w.state.KeepsAccess s.peer s.key slot
  | .agentEvent _ => EventKept w w.events
  | .pair _ id => ∀ c ∈ w.state.candidates[id]?,
      ∀ s ∈ w.sessions, s.admitted → s.peer = c.machineId → c.identityKey = s.key
  | .unpair _ id => w.state.pendingTrust[id]? = none ∧
      ∀ s ∈ w.sessions, s.admitted → s.peer ≠ id
  | .edit _ (.upsertMachine record) =>
      ∀ s ∈ w.sessions, s.admitted → s.peer = record.id → record.publicKey = s.key
  | .adopt id key => AdoptKeeps w id key
  | _ => True

instance (w : World) : (a : Action) → Decidable (Kept w a)
  | .handshake .. | .authorise .. | .identify .. | .close _ | .sighting .. | .lagged | .share _
  | .takeAnnounced | .takeRemote => .isTrue trivial
  | .read _ message _ => inferInstanceAs (Decidable (∀ s ∈ w.sessions, s.admitted →
      ∀ slot ∈ w.state.incoming s.peer message, w.state.KeepsAccess s.peer s.key slot))
  | .agentEvent _ => inferInstanceAs (Decidable (EventKept w w.events))
  | .pair _ id => inferInstanceAs (Decidable (∀ c ∈ w.state.candidates[id]?,
      ∀ s ∈ w.sessions, s.admitted → s.peer = c.machineId → c.identityKey = s.key))
  | .unpair _ id => inferInstanceAs (Decidable (w.state.pendingTrust[id]? = none ∧
      ∀ s ∈ w.sessions, s.admitted → s.peer ≠ id))
  | .edit _ (.upsertMachine record) => inferInstanceAs (Decidable
      (∀ s ∈ w.sessions, s.admitted → s.peer = record.id → record.publicKey = s.key))
  | .edit _ (.setName _) | .edit _ (.setSettings _) | .edit _ (.removeMachine _) => .isTrue trivial
  | .adopt id key => inferInstanceAs (Decidable (AdoptKeeps w id key))

/-- What a message can do: change the document, be replayed or routed as input, or change the
announced owner. -/
def Effect (w t : World) : Prop :=
  t.state.doc ≠ w.state.doc ∨ t.injected ≠ w.injected ∨ t.remoteInput ≠ w.remoteInput ∨
    t.announcedOwner ≠ w.announcedOwner

structure Inv (w : World) : Prop where
  access : ∀ s ∈ w.sessions, s.admitted → w.state.authorize s.peer s.key = true
  revoked : ∀ p ∈ w.revoked, w.state.machine p = none ∧ w.state.pendingTrust[p]? = none

theorem Inv.congr {w t : World} (h : Inv w) (hs : t.sessions = w.sessions)
    (hst : t.state = w.state) (hr : t.revoked = w.revoked) : Inv t := by
  refine ⟨?_, ?_⟩
  · rw [hs, hst]
    exact h.access
  · rw [hr, hst]
    exact h.revoked

theorem Inv.put {w : World} (h : Inv w) {t : State}
    (hkeep : ∀ s ∈ w.sessions, s.admitted → t.authorize s.peer s.key = true) :
    Inv (w.put t) := by
  refine ⟨hkeep, fun p hp => ?_⟩
  obtain ⟨hp, hnone, htrust⟩ := Finset.mem_filter.mp hp
  refine ⟨Option.isNone_iff_eq_none.mp hnone, ?_⟩
  obtain ht | ht := htrust
  · exact ht
  · exact ht.trans (h.revoked p hp).2

theorem Inv.setSession {w : World} (h : Inv w) (i : ℕ) {s : Session}
    (hs : s.admitted → w.state.authorize s.peer s.key = true) : Inv (w.setSession i s) := by
  refine ⟨fun r hr => ?_, h.revoked⟩
  obtain hr | rfl := List.mem_or_eq_of_mem_set hr
  · exact h.access r hr
  · exact hs

theorem Inv.report {w : World} (h : Inv w) (e : NetEvent) : Inv (w.report e) :=
  h.congr rfl rfl rfl

theorem Inv.onInput {w : World} (h : Inv w) (src : MachineId) (events : List InputEvent) (n : ℕ) :
    Inv (w.onInput src events n) := by
  unfold World.onInput
  split
  · split
    · exact h.congr rfl rfl rfl
    · exact h
  · exact h.congr rfl rfl rfl

theorem Inv.took {w : World} (h : Inv w) {message : Message} {t : State}
    (ht : w.state.Took message t) {i n : ℕ} (hok : Kept w (.read i message n)) :
    Inv (w.put t) :=
  h.put fun s hs ha => ht.authorize (h.access s hs ha) (hok s hs ha)

theorem Inv.handle {w t : World} (h : Inv w) {message : Message} {i n : ℕ} {peer : MachineId}
    {more : Bool} (hok : Kept w (.read i message n)) (ht : w.handle peer n message = (t, more)) :
    Inv t := by
  cases message with
  | docFull doc =>
    cases hm : w.state.merge doc with
    | error err =>
      simp only [World.handle, hm, Prod.mk.injEq] at ht
      rwa [← ht.1]
    | ok p =>
      simp only [World.handle, hm, Prod.mk.injEq] at ht
      rw [← ht.1]
      exact h.took (State.took_merge hm) hok
  | update u =>
    cases hm : w.state.apply u with
    | error err =>
      simp only [World.handle, hm, Prod.mk.injEq] at ht
      rwa [← ht.1]
    | ok p =>
      simp only [World.handle, hm, Prod.mk.injEq] at ht
      rw [← ht.1]
      exact h.took (State.took_apply hm) hok
  | input events =>
    obtain ⟨rfl, -⟩ := Prod.mk.inj ht
    exact h.onInput peer events n
  | cursorOwner machine =>
    obtain ⟨rfl, -⟩ := Prod.mk.inj ht
    exact h.congr rfl rfl rfl
  | ping nonce =>
    obtain ⟨rfl, -⟩ := Prod.mk.inj ht
    exact h
  | pong nonce =>
    obtain ⟨rfl, -⟩ := Prod.mk.inj ht
    exact h
  | identify displayName workspaceId machines =>
    obtain ⟨rfl, -⟩ := Prod.mk.inj ht
    exact h
  | goodbye reason =>
    obtain ⟨rfl, -⟩ := Prod.mk.inj ht
    exact h

theorem Inv.authorise {w t : World} (h : Inv w) {i : ℕ} {addr : String}
    (hs : step w (.authorise i addr) = some t) : Inv t := by
  simp only [step, Option.bind_eq_bind, Option.bind_eq_some_iff] at hs
  obtain ⟨s, -, hs⟩ := hs
  split at hs
  · split at hs
    · rename_i hauth
      obtain rfl := Option.some.inj hs
      exact h.setSession i fun _ => hauth
    · obtain rfl := Option.some.inj hs
      exact (h.setSession i (by simp [Session.admitted])).report _
  · cases hs

theorem Inv.identify {w t : World} (h : Inv w) {i size : ℕ} {theirs : Option WorkspaceId}
    (hs : step w (.identify i theirs size) = some t) : Inv t := by
  simp only [step, Option.bind_eq_bind, Option.bind_eq_some_iff] at hs
  obtain ⟨s, hi, hs⟩ := hs
  have hest (e : NetEvent) (hst : s.stage = .authorised) :
      Inv ((w.setSession i { s with stage := .established }).report e) :=
    (h.setSession i (s := { s with stage := .established }) fun _ =>
      h.access s (List.mem_of_getElem? hi) (by simp [Session.admitted, hst])).report e
  split at hs
  · rename_i hst
    split at hs
    · split at hs
      · obtain rfl := Option.some.inj hs
        exact (h.setSession i (by simp [Session.admitted])).report _
      · obtain rfl := Option.some.inj hs
        exact hest _ hst
    · obtain rfl := Option.some.inj hs
      exact hest _ hst
  · cases hs

theorem Inv.read {w t : World} (h : Inv w) {message : Message} {i n : ℕ}
    (hok : Kept w (.read i message n)) (hs : step w (.read i message n) = some t) : Inv t := by
  simp only [step, Option.bind_eq_bind, Option.bind_eq_some_iff] at hs
  obtain ⟨s, -, hs⟩ := hs
  split at hs
  · split at hs
    · rename_i ht
      obtain rfl := Option.some.inj hs
      exact h.handle hok ht
    · rename_i ht
      obtain rfl := Option.some.inj hs
      exact ((h.handle hok ht).setSession i (by simp [Session.admitted])).report _
  · cases hs

theorem authorize_onNetEvent {s : State} {now : ℕ} {e : NetEvent} {id : MachineId} {key : PubKey}
    (ha : s.authorize id key = true)
    (hk : ∀ p theirKey theirs size, e = .differentWorkspaces p theirKey theirs size →
      ∀ doc, s.doc = some doc → shouldYield doc theirs size →
        (s.pendingTrust.insert p theirKey)[id]? = some key) :
    (s.onNetEvent now e).authorize id key = true := by
  cases e with
  | differentWorkspaces p theirKey theirs size =>
    simp only [State.onNetEvent]
    split
    · rename_i doc hd
      split
      · rename_i hy
        exact State.authorize_adopt (hk p theirKey theirs size rfl doc hd hy)
      · exact ha
    · exact ha
  | online p => exact (State.authorize_congr rfl rfl id key).trans ha
  | offline p => exact (State.authorize_congr rfl rfl id key).trans ha
  | candidate p name k ws addr inv => exact (State.authorize_congr rfl rfl id key).trans ha
  | rejected p k addr => exact (State.authorize_congr rfl rfl id key).trans ha

theorem Inv.agentEvent {w t : World} (h : Inv w) {now : ℕ} (hok : Kept w (.agentEvent now))
    (hs : step w (.agentEvent now) = some t) : Inv t := by
  simp only [step] at hs
  cases he : w.events with
  | nil => simp [he] at hs
  | cons e rest =>
    simp only [he, Option.some.injEq] at hs
    subst hs
    have hw : Inv { w with events := rest } := h.congr rfl rfl rfl
    refine hw.put fun s hmem ha => authorize_onNetEvent (h.access s hmem ha) ?_
    rintro p theirKey theirs size rfl doc hd hy
    simp only [Kept, he, EventKept] at hok
    exact hok doc hd hy s hmem ha

theorem Inv.unpair {w t : World} (h : Inv w) {now : ℕ} {id : MachineId}
    (hok : Kept w (.unpair now id)) (hs : step w (.unpair now id) = some t) : Inv t := by
  simp only [step] at hs
  cases hu : w.state.unpair w.me now id with
  | error err =>
    simp only [hu, Option.some.injEq] at hs
    rwa [← hs]
  | ok p =>
    obtain ⟨s, u⟩ := p
    simp only [hu, Option.some.injEq] at hs
    subst hs
    have hput : Inv (w.put s) :=
      h.put fun r hr ha => State.authorize_unpair hu (h.access r hr ha) (hok.2 r hr ha)
    refine ⟨hput.access, fun p hp => ?_⟩
    obtain rfl | hp := Finset.mem_insert.mp hp
    · obtain ⟨hm, ht⟩ := State.machine_unpair hu
      exact ⟨hm, by rw [show (w.put s).state.pendingTrust = w.state.pendingTrust from ht, hok.1]⟩
    · exact hput.revoked p hp

theorem Inv.edit {w t : World} (h : Inv w) {now : ℕ} {op : Op} (hok : Kept w (.edit now op))
    (hs : step w (.edit now op) = some t) : Inv t := by
  have hop : t = w.mutate now op ∧ ∀ id, op ≠ .removeMachine id := by
    cases op <;> simp_all [step]
  obtain ⟨rfl, hne⟩ := hop
  unfold World.mutate
  cases hm : w.state.mutate w.me now op with
  | error err => exact h
  | ok p =>
    obtain ⟨s, u⟩ := p
    refine h.put fun r hr ha => State.authorize_mutate hm (h.access r hr ha) fun slot hslot => ?_
    obtain ⟨record, hu, hid, hst⟩ | ⟨hu, -⟩ := WorkspaceUpdate.slot_eq_some hslot
    · rw [State.mutate_update_op hm] at hu
      subst hu
      rw [hst]
      exact hok r hr ha hid.symm
    · rw [State.mutate_update_op hm] at hu
      exact absurd hu (hne _)

theorem Inv.pair {w t : World} (h : Inv w) {now : ℕ} {id : MachineId} (hok : Kept w (.pair now id))
    (hs : step w (.pair now id) = some t) : Inv t := by
  simp only [step] at hs
  cases hp : w.state.pair w.me now id with
  | error err =>
    simp only [hp, Option.some.injEq] at hs
    rwa [← hs]
  | ok p =>
    simp only [hp, Option.some.injEq] at hs
    subst hs
    exact h.put fun r hr ha =>
      State.authorize_pair hp (h.access r hr ha) fun c hc => hok c hc r hr ha

theorem Inv.step {w t : World} {a : Action} (h : Inv w) (hok : Kept w a)
    (hs : step w a = some t) : Inv t := by
  cases a with
  | handshake peer key =>
    obtain rfl := Option.some.inj hs
    refine ⟨fun s hmem ha => ?_, h.revoked⟩
    obtain hmem | hmem := List.mem_append.mp hmem
    · exact h.access s hmem ha
    · obtain rfl := List.mem_singleton.mp hmem
      cases ha
  | authorise i addr => exact h.authorise hs
  | identify i theirs size => exact h.identify hs
  | read i message n => exact h.read hok hs
  | close i =>
    simp only [Sessions.step, Option.bind_eq_bind, Option.bind_eq_some_iff] at hs
    obtain ⟨s, -, hs⟩ := hs
    obtain rfl := Option.some.inj hs
    exact (h.setSession i (by simp [Session.admitted])).report _
  | sighting id name key ws addr inv =>
    simp only [Sessions.step] at hs
    split at hs
    · obtain rfl := Option.some.inj hs
      exact h
    · obtain rfl := Option.some.inj hs
      exact h.report _
  | agentEvent now => exact h.agentEvent hok hs
  | lagged =>
    simp only [Sessions.step] at hs
    split at hs
    · cases hs
    · obtain rfl := Option.some.inj hs
      exact h.congr rfl rfl rfl
  | pair now id => exact h.pair hok hs
  | unpair now id => exact h.unpair hok hs
  | edit now op => exact h.edit hok hs
  | adopt id key =>
    obtain rfl := Option.some.inj hs
    exact h.put fun s hmem ha => State.authorize_adopt (hok s hmem ha)
  | share on =>
    obtain rfl := Option.some.inj hs
    exact h.congr rfl rfl rfl
  | takeAnnounced =>
    obtain rfl := Option.some.inj hs
    exact h.congr rfl rfl rfl
  | takeRemote =>
    simp only [Sessions.step] at hs
    split at hs
    · obtain rfl := Option.some.inj hs
      exact h.congr rfl rfl rfl
    · cases hs

theorem inv_start (me : MachineId) (s : State) : Inv (start me s) :=
  ⟨by simp [start], by simp [start]⟩

/-- While no step takes away the permission of a machine that has a session open, whatever a
peer's message does it does under a permission that still stands, and a revoked machine has no
effect at all. -/
theorem effect_only_if_authorized (me : MachineId) (s : State) (as : List Action) (w t : World)
    (i n : ℕ) (message : Message) (r : Session) (hrun : Run step Kept (start me s) as w)
    (hr : w.sessions[i]? = some r) (hs : step w (.read i message n) = some t) :
    (Effect w t → w.state.authorize r.peer r.key = true) ∧ (r.peer ∈ w.revoked → ¬ Effect w t) := by
  have h : Inv w := hrun.invariant (fun w a t hw hok hst => hw.step hok hst) (inv_start me s)
  have hopen : r.admitted := by
    simp only [step, hr, Option.bind_eq_bind, Option.bind_some] at hs
    split at hs
    · rename_i hst
      simp [Session.admitted, hst]
    · cases hs
  have hauth := h.access r (List.mem_of_getElem? hr) hopen
  refine ⟨fun _ => hauth, fun hrev _ => ?_⟩
  obtain ⟨hm, ht⟩ := h.revoked r.peer hrev
  obtain ⟨x, hx, -⟩ | ⟨-, hk⟩ := State.authorize_iff.mp hauth
  · rw [hm] at hx
    cases hx
  · rw [ht] at hk
    cases hk

def connect : List Action :=
  [.sighting 2 "Laptop" 22 none "192.168.1.7:47452" true, .agentEvent 0, .pair 0 2,
    .handshake 2 22, .authorise 0 "192.168.1.7:47452", .identify 0 (some 7) 2]

def rename : Message := .update ⟨7, 8, ⟨9, 2, 0⟩, .setName "Taken"⟩

theorem effect_only_if_authorized_connect :
    ∃ w t, Run step Kept (start 1 (.ofDoc Store.desk)) connect w ∧
      step w (.read 0 rename 0) = some t ∧ t.state.doc ≠ w.state.doc ∧
      w.state.authorize 2 22 = true := by
  obtain ⟨w, hrun, hw⟩ := run_of_replay step Kept (start 1 (.ofDoc Store.desk)) connect
    (fun w => (w.sessions[0]?, w.state.doc.map (·.name.value),
      (step w (.read 0 rename 0)).map fun t => t.state.doc.map (·.name.value)))
    (b := (some ⟨2, 22, .established, some 7⟩, some "Desk", some (some "Taken")))
    (by decide +kernel)
  simp only [Prod.mk.injEq] at hw
  obtain ⟨hr, hname, hread⟩ := hw
  obtain ⟨t, ht, hname'⟩ := Option.map_eq_some_iff.mp hread
  have hdoc : t.state.doc ≠ w.state.doc := by
    intro he
    rw [he, hname] at hname'
    exact absurd hname' (by decide)
  exact ⟨w, t, hrun, ht, hdoc, (effect_only_if_authorized 1 (.ofDoc Store.desk) connect w t 0 0
    rename _ hrun hr ht).1 (.inl hdoc)⟩

/-- A machine that is unpaired while its session is open goes on editing the document. -/
theorem unpaired_machine_still_edits :
    ∃ w t, Run step Any (start 1 (.ofDoc Store.desk)) (connect ++ [.unpair 0 2]) w ∧
      2 ∈ w.revoked ∧ w.state.authorize 2 22 = false ∧
      w.sessions[0]? = some ⟨2, 22, .established, some 7⟩ ∧
      step w (.read 0 rename 0) = some t ∧ t.state.doc ≠ w.state.doc ∧ Effect w t := by
  obtain ⟨w, hrun, hw⟩ := run_of_replay step Any (start 1 (.ofDoc Store.desk))
    (connect ++ [.unpair 0 2])
    (fun w => (decide (2 ∈ w.revoked ∧ w.state.authorize 2 22 = false), w.sessions[0]?,
      w.state.doc.map (·.name.value),
      (step w (.read 0 rename 0)).map fun t => t.state.doc.map (·.name.value)))
    (b := (true, some ⟨2, 22, .established, some 7⟩, some "Desk", some (some "Taken")))
    (by decide +kernel)
  simp only [Prod.mk.injEq] at hw
  obtain ⟨hrev, hr, hname, hread⟩ := hw
  obtain ⟨hrev, hauth⟩ := of_decide_eq_true hrev
  obtain ⟨t, ht, hname'⟩ := Option.map_eq_some_iff.mp hread
  have hdoc : t.state.doc ≠ w.state.doc := by
    intro he
    rw [he, hname] at hname'
    exact absurd hname' (by decide)
  exact ⟨w, t, hrun, hrev, hauth, hr, ht, hdoc, .inl hdoc⟩

end InputShare.Sessions

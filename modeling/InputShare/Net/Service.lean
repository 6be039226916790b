import InputShare.Net.Session

/-! A machine on the network: the agent, its networking actor and the tasks of its sessions, with
the inbox between them. Peers may send anything at any time. -/
namespace InputShare
open Runs

structure Service where
  identity : Identity
  agent : State
  actor : Actor
  inbox : List Internal
  tasks : List SessionTask
  /-- What the actor has reported and the agent has not taken yet. -/
  events : List NetEvent
  /-- Local edits that are made and saved and whose broadcast is still to be enqueued. -/
  editing : List (ℕ × WorkspaceUpdate)
  /-- The local edits, in order. -/
  edits : List WorkspaceUpdate
  /-- The sessions that have reported to be established, in order. -/
  order : List ℕ
  now : ℕ

namespace Service

inductive Action where
  /-- The actor handles the next message. -/
  | handle
  /-- A task other than a session, or the app, puts a message into the inbox. -/
  | send (m : Internal)
  | accept (addr : String)
  | session (i : ℕ) (e : SessionTask.Event)
  /-- The writer of a session takes the next message of its queue, or stops. -/
  | write (i : ℕ) (written : Bool)
  | edit (op : Op)
  | pair (id : MachineId)
  | unpair (id : MachineId)
  /-- A local edit, once made, is handed to the actor. -/
  | push (n : ℕ)
  /-- The agent takes the next event; a subscriber that lags misses it. -/
  | agentEvent (missed : Bool)
  | elapse (ms : ℕ)

def inboxCapacity : ℕ := 256

def roomFor (w : Service) (n : ℕ) : Bool := w.inbox.length + n ≤ inboxCapacity

def start (identity : Identity) (agent : State) (now : ℕ) : Service where
  identity := identity
  agent := agent
  actor := ⟨identity.machineId, ∅, fun _ => .new⟩
  inbox := []
  tasks := []
  events := []
  editing := []
  edits := []
  order := []
  now := now

/-- What the timers, the listeners of the network and the app may put into the inbox. -/
def fromOutside : Internal → Bool
  | .session .. | .broadcast .. => false
  | _ => true

def dial (w : Service) (dials : List (MachineId × String)) : List SessionTask :=
  dials.mapIdx fun n d => .spawnDial w.identity (w.tasks.length + n) d.1 d.2

def isEstablished : SessionOutcome → Bool
  | .established .. => true
  | _ => false

/-- Session `i` moves on; when it is over, nobody takes from its queue any more. -/
def onStep (w : Service) (i : ℕ) (t : SessionTask) (agent : State) (os : List SessionOutcome) :
    Service :=
  { w with
    agent := agent
    actor := if t.finished then w.actor.setQueue i (w.actor.queues i).close else w.actor
    tasks := w.tasks.set i t
    inbox := w.inbox ++ os.map (.session i)
    order := if os.any isEstablished then w.order ++ [i] else w.order }

def mutated (w : Service) (s : State) (u : Option WorkspaceUpdate) : Service :=
  match u with
  | some u =>
    { w with agent := s, editing := w.editing ++ [(w.edits.length, u)], edits := w.edits ++ [u] }
  | none => { w with agent := s }

def writing (t : SessionTask) : Bool :=
  match t.stage with
  | .running _ | .closing .. => true
  | _ => false

def step (w : Service) : Action → Option Service
  | .handle =>
    match w.inbox with
    | [] => none
    | m :: rest =>
      let (actor, events, dials) := w.actor.handle w.agent w.now m
      some { w with
        actor := actor
        inbox := rest
        events := w.events ++ events
        tasks := w.tasks ++ w.dial dials }
  | .send m =>
    if fromOutside m && w.roomFor 1 then some { w with inbox := w.inbox ++ [m] } else none
  | .accept addr =>
    some { w with tasks := w.tasks ++ [.spawnAccepted w.identity w.tasks.length addr] }
  | .session i e => do
    let t ← w.tasks[i]?
    let (t, agent, os) ← t.step w.agent e
    if w.roomFor os.length then some (w.onStep i t agent os) else none
  | .write i written => do
    let t ← w.tasks[i]?
    let q := w.actor.queues i
    if !writing t || !q.listening then none
    else
      match q.items, written with
      | m :: rest, true =>
        some { w with
          actor := w.actor.setQueue i { q with items := rest }
          tasks := w.tasks.set i { t with sent := t.sent ++ [m] } }
      | _, true => none
      | _, false => some { w with actor := w.actor.setQueue i q.close }
  | .edit op =>
    match w.agent.mutate w.identity.machineId w.now op with
    | .ok (s, u) => some (w.mutated s (some u))
    | .error _ => some w
  | .pair id =>
    match w.agent.pair w.identity.machineId w.now id with
    | .ok (s, u) => some (w.mutated s u)
    | .error _ => some w
  | .unpair id =>
    match w.agent.unpair w.identity.machineId w.now id with
    | .ok (s, u) => some (w.mutated s (some u))
    | .error _ => some w
  | .push n =>
    match w.editing[n]? with
    | some (k, u) =>
      if w.roomFor 1 then
        some { w with inbox := w.inbox ++ [.broadcast k u], editing := w.editing.eraseIdx n }
      else none
    | none => none
  | .agentEvent missed =>
    match w.events with
    | [] => none
    | e :: rest =>
      some { w with
        agent := if missed then w.agent else w.agent.onNetEvent w.now e
        events := rest }
  | .elapse ms => some { w with now := w.now + ms }

/-- The task is as it was, but for what it has written. -/
structure SameTask (t u : SessionTask) : Prop where
  number : u.number = t.number
  expect : u.expect = t.expect
  stage : u.stage = t.stage
  taken : u.taken = t.taken

/-- A step that is neither the actor's nor a session's own. -/
structure Quiet (w v : Service) : Prop where
  identity : v.identity = w.identity
  me : v.actor.me = w.actor.me
  peers : v.actor.peers = w.actor.peers
  order : v.order = w.order
  inbox : ∃ ms, v.inbox = w.inbox ++ ms ∧ ∀ i o, .session i o ∉ ms
  kept : ∀ (i : ℕ) (t : SessionTask), w.tasks[i]? = some t →
    ∃ u, v.tasks[i]? = some u ∧ SameTask t u
  came : ∀ (i : ℕ) (u : SessionTask), v.tasks[i]? = some u →
    (∃ t, w.tasks[i]? = some t ∧ SameTask t u) ∨
    i = w.tasks.length ∧ ∃ addr, u = .spawnAccepted w.identity i addr

inductive Stepped (w : Service) : Action → Service → Prop where
  | handled {m : Internal} {rest : List Internal} {actor : Actor} {events : List NetEvent}
      {dials : List (MachineId × String)} (hm : w.inbox = m :: rest)
      (hh : w.actor.handle w.agent w.now m = (actor, events, dials)) :
      Stepped w .handle { w with
        actor := actor
        inbox := rest
        events := w.events ++ events
        tasks := w.tasks ++ w.dial dials }
  | moved {i : ℕ} {e : SessionTask.Event} {t u : SessionTask} {s : State}
      {os : List SessionOutcome} (ht : w.tasks[i]? = some t)
      (hstep : SessionTask.Stepped t w.agent e u s os) :
      Stepped w (.session i e) (w.onStep i u s os)
  | quiet {a : Action} {v : Service} (h : Quiet w v) : Stepped w a v

/-- Every way a step can go, and the state it leaves. -/
inductive Moves (w : Service) : Action → Service → Prop where
  | handled {m : Internal} {rest : List Internal} {actor : Actor} {events : List NetEvent}
      {dials : List (MachineId × String)} (hm : w.inbox = m :: rest)
      (hh : w.actor.handle w.agent w.now m = (actor, events, dials)) :
      Moves w .handle { w with
        actor := actor
        inbox := rest
        events := w.events ++ events
        tasks := w.tasks ++ w.dial dials }
  | moved {i : ℕ} {e : SessionTask.Event} {t u : SessionTask} {s : State}
      {os : List SessionOutcome} (ht : w.tasks[i]? = some t)
      (hstep : SessionTask.Stepped t w.agent e u s os) :
      Moves w (.session i e) (w.onStep i u s os)
  | sent {m : Internal} (hm : fromOutside m = true) :
      Moves w (.send m) { w with inbox := w.inbox ++ [m] }
  | accepted {addr : String} :
      Moves w (.accept addr)
        { w with tasks := w.tasks ++ [.spawnAccepted w.identity w.tasks.length addr] }
  | wrote {i : ℕ} {t : SessionTask} {m : Message} {rest : List Message}
      (ht : w.tasks[i]? = some t) (hw : writing t = true)
      (hq : (w.actor.queues i).items = m :: rest) :
      Moves w (.write i true) { w with
        actor := w.actor.setQueue i { w.actor.queues i with items := rest }
        tasks := w.tasks.set i { t with sent := t.sent ++ [m] } }
  | stopped {i : ℕ} :
      Moves w (.write i false) { w with actor := w.actor.setQueue i (w.actor.queues i).close }
  | edited {a : Action} {s : State} {u : WorkspaceUpdate}
      (h : w.agent.Edits s w.identity.machineId w.now u) : Moves w a (w.mutated s (some u))
  | agent {a : Action} {s : State} (h : s.doc = w.agent.doc) : Moves w a { w with agent := s }
  | pushed {n k : ℕ} {u : WorkspaceUpdate} (h : w.editing[n]? = some (k, u)) :
      Moves w (.push n)
        { w with inbox := w.inbox ++ [.broadcast k u], editing := w.editing.eraseIdx n }
  | event {missed : Bool} {e : NetEvent} {rest : List NetEvent} (he : w.events = e :: rest) :
      Moves w (.agentEvent missed) { w with
        agent := if missed then w.agent else w.agent.onNetEvent w.now e
        events := rest }
  | elapsed {ms : ℕ} : Moves w (.elapse ms) { w with now := w.now + ms }

theorem SameTask.refl (t : SessionTask) : SameTask t t := ⟨rfl, rfl, rfl, rfl⟩

theorem Quiet.of_eq {w v : Service} (hi : v.identity = w.identity)
    (hme : v.actor.me = w.actor.me) (hp : v.actor.peers = w.actor.peers)
    (ho : v.order = w.order) (ht : v.tasks = w.tasks)
    (hin : ∃ ms, v.inbox = w.inbox ++ ms ∧ ∀ i o, .session i o ∉ ms) : Quiet w v := by
  refine ⟨hi, hme, hp, ho, hin, fun i t h => ⟨t, by rw [ht, h], .refl t⟩, fun i u h => .inl ?_⟩
  rw [ht] at h
  exact ⟨u, h, .refl u⟩

theorem moves {w v : Service} {a : Action} (h : step w a = some v) : Moves w a v := by
  cases a with
  | handle =>
    simp only [step] at h
    split at h
    · cases h
    · rename_i m rest hm
      obtain rfl := Option.some.inj h
      exact .handled hm rfl
  | send m =>
    simp only [step] at h
    split at h
    · rename_i hok
      obtain rfl := Option.some.inj h
      exact .sent (by simpa using And.left (by simpa using hok))
    · cases h
  | accept addr =>
    obtain rfl := Option.some.inj h
    exact .accepted
  | session i e =>
    simp only [step, Option.bind_eq_bind, Option.bind_eq_some_iff] at h
    obtain ⟨t, ht, ⟨u, s, os⟩, hu, h⟩ := h
    split at h
    · obtain rfl := Option.some.inj h
      exact .moved ht (SessionTask.stepped hu)
    · cases h
  | write i written =>
    simp only [step, Option.bind_eq_bind, Option.bind_eq_some_iff] at h
    obtain ⟨t, ht, h⟩ := h
    split at h
    · cases h
    rename_i hw
    split at h
    · rename_i m rest hq
      obtain rfl := Option.some.inj h
      exact .wrote ht (by simpa using And.left (by simpa using hw)) hq
    · cases h
    · obtain rfl := Option.some.inj h
      exact .stopped
  | edit op =>
    simp only [step] at h
    split at h
    · rename_i s u hu
      obtain rfl := Option.some.inj h
      exact .edited (State.mutate_edits hu)
    · obtain rfl := Option.some.inj h
      exact .agent rfl
  | pair id =>
    simp only [step] at h
    split at h
    · rename_i s o ho
      obtain rfl := Option.some.inj h
      obtain ⟨rfl, hd⟩ | ⟨u, rfl, hu⟩ := State.pair_edits ho
      · exact .agent hd
      · exact .edited hu
    · obtain rfl := Option.some.inj h
      exact .agent rfl
  | unpair id =>
    simp only [step] at h
    split at h
    · rename_i s u hu
      obtain rfl := Option.some.inj h
      exact .edited (State.unpair_edits hu)
    · obtain rfl := Option.some.inj h
      exact .agent rfl
  | push n =>
    simp only [step] at h
    split at h
    · rename_i k u hk
      split at h
      · obtain rfl := Option.some.inj h
        exact .pushed hk
      · cases h
    · cases h
  | agentEvent missed =>
    simp only [step] at h
    split at h
    · cases h
    · rename_i e rest he
      obtain rfl := Option.some.inj h
      exact .event he
  | elapse ms =>
    obtain rfl := Option.some.inj h
    exact .elapsed

theorem stepped {w v : Service} {a : Action} (h : step w a = some v) : Stepped w a v := by
  -- most steps leave the tasks, the peers and the inbox alone
  have hsame : ∀ {v : Service}, v.identity = w.identity → v.actor.me = w.actor.me →
      v.actor.peers = w.actor.peers → v.order = w.order → v.tasks = w.tasks →
      v.inbox = w.inbox → Quiet w v := by
    intro v hi hme hp ho ht hin
    exact .of_eq hi hme hp ho ht ⟨[], by rw [hin, List.append_nil], by simp⟩
  cases moves h with
  | handled hm hh => exact .handled hm hh
  | moved ht hstep => exact .moved ht hstep
  | @sent m hm =>
    refine .quiet (.of_eq rfl rfl rfl rfl rfl ⟨[m], rfl, fun i o hmem => ?_⟩)
    obtain rfl := List.mem_singleton.mp hmem
    cases hm
  | @accepted addr =>
    refine .quiet ⟨rfl, rfl, rfl, rfl, ⟨[], (List.append_nil _).symm, by simp⟩, fun i t ht => ?_,
      fun i u hu => ?_⟩
    · refine ⟨t, ?_, .refl t⟩
      rw [List.getElem?_append_left (List.getElem?_eq_some_iff.mp ht).1]
      exact ht
    · obtain hlt | hge := Nat.lt_or_ge i w.tasks.length
      · rw [List.getElem?_append_left hlt] at hu
        exact .inl ⟨u, hu, .refl u⟩
      · rw [List.getElem?_append_right hge, List.getElem?_singleton] at hu
        split at hu
        · rename_i hz
          obtain rfl := Option.some.inj hu
          obtain rfl : i = w.tasks.length := by omega
          exact .inr ⟨rfl, addr, rfl⟩
        · cases hu
  | @wrote i t m rest ht hw hq =>
    have hwrote : SameTask t { t with sent := t.sent ++ [m] } := ⟨rfl, rfl, rfl, rfl⟩
    have hlt := (List.getElem?_eq_some_iff.mp ht).1
    refine .quiet ⟨rfl, rfl, rfl, rfl, ⟨[], (List.append_nil _).symm, by simp⟩, fun j x hx => ?_,
      fun j x hx => .inl ?_⟩
    · obtain rfl | hne := eq_or_ne i j
      · obtain rfl := Option.some.inj (ht.symm.trans hx)
        exact ⟨_, List.getElem?_set_self hlt, hwrote⟩
      · exact ⟨x, by rw [List.getElem?_set_ne hne, hx], .refl x⟩
    · obtain rfl | hne := eq_or_ne i j
      · rw [List.getElem?_set_self hlt] at hx
        obtain rfl := Option.some.inj hx
        exact ⟨t, ht, hwrote⟩
      · rw [List.getElem?_set_ne hne] at hx
        exact ⟨x, hx, .refl x⟩
  | stopped | edited | agent | event | elapsed => exact .quiet (hsame rfl rfl rfl rfl rfl rfl)
  | pushed => exact .quiet (.of_eq rfl rfl rfl rfl rfl ⟨_, rfl, by simp⟩)

end Service
end InputShare

import InputShare.Agent.Router
import InputShare.Agent.Saves
import InputShare.Net.Peers

/-! Who is reachable, as the agent sees it. The truth is with the actor, the agent hears of it by
events it may miss, and unpairing edits what it has heard. -/
namespace InputShare
open Runs

/-- What an event says about a machine: that it is reachable, or that it is not. -/
def NetEvent.tells : NetEvent → Option (MachineId × Bool)
  | .online id => some (id, true)
  | .offline id => some (id, false)
  | .differentWorkspaces id .. => some (id, false)
  | _ => none

/-- Whether machine `id` is reachable after an event, as far as the event says. -/
def NetEvent.hear (id : MachineId) (b : Bool) (e : NetEvent) : Bool :=
  match e.tells with
  | some (k, now) => if k = id then now else b
  | none => b

namespace Actor

def reaches (a : Actor) (id : MachineId) : Bool :=
  (a.peers[id]?).any fun slot => slot.status = .online

theorem reaches_insert (a : Actor) (k id : MachineId) (slot : PeerSlot) :
    ({ a with peers := a.peers.insert k slot } : Actor).reaches id =
      if k = id then decide (slot.status = .online) else a.reaches id := by
  unfold reaches
  rw [Std.ExtTreeMap.getElem?_insert]
  by_cases hk : k = id <;> simp [hk]

theorem reaches_map (a : Actor) (f : MachineId → PeerSlot → PeerSlot)
    (hf : ∀ k slot, (f k slot).status = .online ↔ slot.status = .online) (id : MachineId) :
    ({ a with peers := a.peers.map f } : Actor).reaches id = a.reaches id := by
  unfold reaches
  rw [Std.ExtTreeMap.getElem?_map]
  cases a.peers[id]? <;> simp [hf]

theorem reaches_onSighting (a : Actor) (authorised : Bool) (now : ℕ) (s : Sighting)
    (id : MachineId) : (a.onSighting authorised now s).1.reaches id = a.reaches id := by
  unfold onSighting
  split_ifs with hme hauth
  · rfl
  · rfl
  all_goals
    rw [reaches_insert]
    by_cases hk : s.machineId = id
    · rw [if_pos hk]
      subst hk
      unfold reaches
      cases ha : a.peers[s.machineId]? with
      | none => simp [PeerSlot.new]
      | some old =>
        rw [Option.any_some, decide_eq_decide]
        split <;> rfl
    · rw [if_neg hk]

theorem reaches_onSession (a : Actor) (now : ℕ) (o : SessionOutcome) (id : MachineId) :
    (a.onSession now o).1.reaches id =
      (a.onSession now o).2.foldl (NetEvent.hear id) (a.reaches id) := by
  cases o with
  | established k name q =>
    simp only [onSession, reaches_insert, List.foldl_cons, List.foldl_nil, NetEvent.hear,
      NetEvent.tells]
    split_ifs <;> simp
  | closed k reason | differentWorkspaces k name key theirs size =>
    simp only [onSession, List.foldl_cons, List.foldl_nil, NetEvent.hear, NetEvent.tells]
    cases hk : a.peers[k]? with
    | none =>
      split_ifs with h
      · subst h
        simp [reaches, hk]
      · rfl
    | some slot =>
      simp only [reaches_insert]
      split_ifs <;> simp
  | rejected => rfl
  | workspaceChanged => rfl

theorem handle_reaches {a b : Actor} {agent : State} {now : ℕ} {m : Internal}
    {events : List NetEvent} {dials : List (MachineId × String)}
    (h : a.handle agent now m = (b, events, dials)) (id : MachineId) :
    b.reaches id = events.foldl (NetEvent.hear id) (a.reaches id) := by
  cases m with
  | session i o =>
    simp only [handle, Prod.mk.injEq] at h
    obtain ⟨rfl, rfl, -⟩ := h
    exact a.reaches_onSession now o id
  | sighting s =>
    simp only [handle, Prod.mk.injEq] at h
    obtain ⟨rfl, rfl, -⟩ := h
    rw [reaches_onSighting]
    unfold onSighting
    split_ifs <;> rfl
  | broadcast k u =>
    simp only [handle, Prod.mk.injEq] at h
    obtain ⟨rfl, rfl, -⟩ := h
    exact a.reaches_map _ (fun _ slot => by rw [keepUp_status]) id
  | sendInput dest es =>
    simp only [handle, Prod.mk.injEq] at h
    obtain ⟨rfl, rfl, -⟩ := h
    simp only [onSendInput, reaches, Std.ExtTreeMap.getElem?_modify, List.foldl_nil]
    split_ifs with hk
    · rw [compare_eq_iff_eq] at hk
      subst hk
      cases a.peers[dest]? <;> simp [keepUp_status]
    · rfl
  | announceCursorOwner machine =>
    simp only [handle, Prod.mk.injEq] at h
    obtain ⟨rfl, rfl, -⟩ := h
    rfl
  | rescan =>
    simp only [handle, Prod.mk.injEq] at h
    obtain ⟨rfl, rfl, -⟩ := h
    refine a.reaches_map _ (fun _ slot => ?_) id
    split <;> rfl
  | tick =>
    simp only [handle, Prod.mk.injEq] at h
    obtain ⟨rfl, rfl, -⟩ := h
    refine a.reaches_map _ (fun k slot => ?_) id
    by_cases hdue : (a.due now k slot).isSome = true
    · have hoff : slot.status = .offline := by
        unfold due at hdue
        split_ifs at hdue with hc
        · exact hc.1
        · cases hdue
      simp [hdue, hoff]
    · simp only [hdue, Bool.false_eq_true, if_false]
      split <;> rfl

end Actor

def Mentions (events : List NetEvent) (id : MachineId) : Prop :=
  ∃ e ∈ events, ∃ p ∈ e.tells, p.1 = id

theorem foldl_hear_of_mentions {events : List NetEvent} {id : MachineId} (h : Mentions events id)
    (b c : Bool) : events.foldl (NetEvent.hear id) b = events.foldl (NetEvent.hear id) c := by
  induction events generalizing b c with
  | nil => simp [Mentions] at h
  | cons e rest ih =>
    by_cases hrest : Mentions rest id
    · exact ih hrest _ _
    · obtain ⟨f, hf, p, hp, hid⟩ := h
      obtain rfl | hf := List.mem_cons.mp hf
      · have htells : f.tells = some p := hp
        simp [NetEvent.hear, htells, hid]
      · exact absurd ⟨f, hf, p, hp, hid⟩ hrest

/-- What the agent will take a machine for, once it has handled the events. -/
def Service.expects (w : Service) (id : MachineId) : Bool :=
  w.events.foldl (NetEvent.hear id) (decide (id ∈ w.agent.online))

def Message.brings : Message → List MachineId
  | .docFull doc => (doc.machines.toList.filter fun p => p.2.state.record.isSome).map Prod.fst
  | .update u => u.op.record.toList.map MachineRecord.id
  | _ => []

/-- A network service, and the machines an `unpair` under way has still to take from the online
set: it removes the machine, awaits the broadcast, and only then edits the set. -/
structure Watch where
  service : Service
  unpairing : List MachineId

namespace Watch

inductive Action where
  | service (a : Service.Action)
  | unpair (id : MachineId)
  | forget (n : ℕ)

def start (identity : Identity) (agent : State) (now : ℕ) : Watch :=
  ⟨.start identity agent now, []⟩

def isUnpair : Service.Action → Bool
  | .unpair _ => true
  | _ => false

def step (w : Watch) : Action → Option Watch
  | .service a =>
    if isUnpair a then none else (w.service.step a).map fun v => { w with service := v }
  | .unpair id =>
    if id = w.service.identity.machineId ∨ w.service.agent.doc.isNone then some w
    else (w.service.step (.edit (.removeMachine id))).map fun v =>
      { service := v, unpairing := w.unpairing ++ [id] }
  | .forget n => do
    let id ← w.unpairing[n]?
    let s := w.service.agent
    return {
      service := { w.service with agent := { s with online := s.online.erase id } }
      unpairing := w.unpairing.eraseIdx n }

/-- The agent acts on the event: on one about another workspace only by giving its own up. -/
def heeds (s : State) : NetEvent → Bool
  | .differentWorkspaces _ _ theirWorkspace theirSize =>
    s.doc.any fun doc => shouldYield doc theirWorkspace theirSize
  | _ => true

/-- The next event is missed or not acted on, and says of a machine what the set does not. -/
def loses (w : Service) (missed : Bool) : Option (MachineId × Bool) := do
  let e ← w.events.head?
  let p ← e.tells
  if (missed || !heeds w.agent e) && decide (p.1 ∈ w.agent.online) != p.2 then some p else none

/-- Keeps a record of the machines of which the agent has missed what was new, or which an `unpair`
has taken from the set, and of which it has heard nothing since. -/
def note (x : Watch × Finset MachineId) : Action → Finset MachineId
  | .service (.agentEvent missed) =>
    match loses x.1.service missed, x.1.service.events.head?.bind NetEvent.tells with
    | some p, _ => insert p.1 x.2
    | none, some p => x.2.erase p.1
    | none, none => x.2
  | .forget n =>
    match x.1.unpairing[n]? with
    | some id => if id ∈ x.1.service.agent.online then insert id x.2 else x.2
    | none => x.2
  | _ => x.2

section Sight
variable (w : Service) (overlooked : Finset MachineId)

/-- A machine that was overlooked comes into the document only if there is more to be heard of
it. -/
def Enters (id : MachineId) : Prop := id ∈ overlooked → Mentions w.events id

/-- The last that is heard of a machine is not missed when it is that it has gone, nor, while the
machine is in the document, when it is that it has come. -/
def Attends : Service.Action → Prop
  | .agentEvent missed => ∀ p ∈ loses w missed,
      Mentions w.events.tail p.1 ∨ p.2 = true ∧ w.agent.machine p.1 = none
  | .edit op => ∀ r ∈ op.record, Enters w overlooked r.id
  | .pair id => ∀ c ∈ w.agent.candidates[id]?, Enters w overlooked c.machineId
  | .session _ (.read m) => ∀ id ∈ m.brings, Enters w overlooked id
  | _ => True

end Sight

/-- Nor does an `unpair` take a machine from the online set that is in the document, unless there is
more to be heard of it. -/
def KeepsSight (x : Watch × Finset MachineId) : Action → Prop
  | .service a => Attends x.1.service x.2 a
  | .forget n => ∀ id ∈ x.1.unpairing[n]?, id ∈ x.1.service.agent.online →
      x.1.service.agent.machine id = none ∨ Mentions x.1.service.events id
  | .unpair _ => True

/-- A machine of the document is in the online set exactly when its slot is online, once all events
are handled. -/
def Faithful (w : Watch) : Prop :=
  w.service.events = [] → ∀ id r, w.service.agent.machine id = some r →
    (id ∈ w.service.agent.online ↔ w.service.actor.reaches id = true)

end Watch

/-! What each step does to the machines of the document and to the online set. -/

namespace State

theorem Took.brings {s t : State} {m : Message} (h : Took s m t) {id : MachineId}
    (hp : (t.machine id).isSome = true) : (s.machine id).isSome = true ∨ id ∈ m.brings := by
  rw [machine_eq] at hp ⊢
  obtain hsame | ⟨slot, hin, hnow, -⟩ := h.slot id
  · exact .inl (hsame ▸ hp)
  · rw [hnow] at hp
    refine .inr ?_
    have hslot : ∀ {d : WorkspaceDoc}, d.machines[id]? = some slot →
        id ∈ Message.brings (.docFull d) := fun hd => List.mem_map.mpr
      ⟨(id, slot), List.mem_filter.mpr
        ⟨Std.ExtTreeMap.mem_toList_iff_getElem?_eq_some.mpr hd, hp⟩, rfl⟩
    cases m with
    | docFull doc =>
      simp only [incoming] at hin
      split at hin
      · split_ifs at hin
        exact hslot hin
      · exact hslot hin
    | update u =>
      simp only [incoming] at hin
      split at hin
      · split_ifs at hin
        obtain ⟨record, hop, rfl, -⟩ | ⟨-, hstate⟩ := WorkspaceUpdate.slot_eq_some hin
        · simp [Message.brings, hop, Op.record]
        · simp [hstate, SlotState.record] at hp
      · cases hin
    | _ => cases hin

theorem merge_online {s t : State} {incoming : WorkspaceDoc} {c : Bool}
    (h : s.merge incoming = .ok (t, c)) : t.online = s.online := by
  unfold merge at h
  cases hd : s.doc with
  | none =>
    simp only [hd, Except.ok.injEq, Prod.mk.injEq] at h
    obtain ⟨rfl, -⟩ := h
    rfl
  | some doc =>
    simp only [hd] at h
    cases hm : doc.merge incoming with
    | error err => simp [hm, bind, Except.bind] at h
    | ok p =>
      simp only [hm, bind, Except.bind, pure, Except.pure, Except.ok.injEq, Prod.mk.injEq] at h
      obtain ⟨rfl, -⟩ := h
      split <;> rfl

theorem apply_online {s t : State} {u : WorkspaceUpdate} {c : Bool}
    (h : s.apply u = .ok (t, c)) : t.online = s.online := by
  cases hd : s.doc with
  | none =>
    obtain ⟨rfl, -⟩ := apply_none hd h
    rfl
  | some doc =>
    obtain ⟨e, -, rfl⟩ := apply_some hd h
    rfl

theorem mutate_brings {s t : State} {me : MachineId} {now : ℕ} {op : Op} {u : WorkspaceUpdate}
    (h : s.mutate me now op = .ok (t, u)) {id : MachineId} (hp : (t.machine id).isSome = true) :
    (s.machine id).isSome = true ∨ ∃ r ∈ op.record, r.id = id := by
  rw [machine_eq] at hp ⊢
  have hop := mutate_update_op h
  rw [mutate_slot h id] at hp
  cases hu : u.slot id with
  | none => exact .inl (by simpa [hu] using hp)
  | some slot =>
    obtain ⟨record, hrecord, hid, -⟩ | ⟨-, hstate⟩ := WorkspaceUpdate.slot_eq_some hu
    · exact .inr ⟨record, by rw [← hop, hrecord]; rfl, hid⟩
    · simp [hu, hstate, SlotState.record] at hp

theorem onNetEvent_online {s : State} {now : ℕ} {e : NetEvent} (he : Watch.heeds s e = true)
    (id : MachineId) :
    decide (id ∈ (s.onNetEvent now e).online) = e.hear id (decide (id ∈ s.online)) := by
  cases e with
  | online k | offline k =>
    by_cases hk : k = id
    · simp [onNetEvent, NetEvent.hear, NetEvent.tells, hk]
    · simp [onNetEvent, NetEvent.hear, NetEvent.tells, hk, Ne.symm hk]
  | candidate | rejected => rfl
  | differentWorkspaces k key theirs size =>
    obtain ⟨doc, hd, hy⟩ := (Option.any_eq_true _ _).mp he
    by_cases hk : k = id
    · simp [onNetEvent, adoptConfigurationOf, NetEvent.hear, NetEvent.tells, hd, hy, hk]
    · simp [onNetEvent, adoptConfigurationOf, NetEvent.hear, NetEvent.tells, hd, hy, hk,
        Ne.symm hk]

theorem onNetEvent_of_not_heeds {s : State} {now : ℕ} {e : NetEvent}
    (he : Watch.heeds s e = false) : s.onNetEvent now e = s := by
  cases e with
  | differentWorkspaces k key theirs size =>
    cases hd : s.doc with
    | none => simp [onNetEvent, hd]
    | some doc =>
      have hy : shouldYield doc theirs size = false := by simpa [Watch.heeds, hd] using he
      simp [onNetEvent, hd, hy]
  | _ => cases he

theorem onNetEvent_machine {s : State} {now : ℕ} {e : NetEvent} {id : MachineId}
    (h : s.machine id = none) : (s.onNetEvent now e).machine id = none := by
  cases e with
  | differentWorkspaces k key theirs size =>
    simp only [onNetEvent]
    split
    · split
      · rfl
      · exact h
    · exact h
  | _ => exact h

end State

namespace Watch

/-- Of a machine that was not overlooked the agent expects what is so; an overlooked one it takes
for gone, and is not in the document, unless there is more to be heard of it. -/
structure InSight (w : Service) (overlooked : Finset MachineId) : Prop where
  expects : ∀ id, (id ∈ overlooked → Mentions w.events id) →
    w.expects id = w.actor.reaches id
  overlooked : ∀ id ∈ overlooked, Mentions w.events id ∨
    id ∉ w.agent.online ∧ w.agent.machine id = none

section InSight
variable {w : Service} {overlooked : Finset MachineId}

theorem InSight.of_same (h : InSight w overlooked) {v : Service}
    (hev : v.events = w.events) (hon : v.agent.online = w.agent.online)
    (hp : v.actor.peers = w.actor.peers)
    (hin : ∀ id, (v.agent.machine id).isSome = true →
      (w.agent.machine id).isSome = true ∨ Enters w overlooked id) :
    InSight v overlooked := by
  refine ⟨fun id hid => ?_, fun id hid => ?_⟩
  · have hexp : v.expects id = w.expects id := by
      unfold Service.expects
      rw [hev, hon]
    have hreach : v.actor.reaches id = w.actor.reaches id := by
      unfold Actor.reaches
      rw [hp]
    rw [hexp, hreach]
    exact h.expects id fun ho => hev ▸ hid ho
  · rw [hev, hon]
    obtain hm | ⟨hno, hnone⟩ := h.overlooked id hid
    · exact .inl hm
    · cases hrec : v.agent.machine id with
      | none => exact .inr ⟨hno, rfl⟩
      | some r =>
        obtain hold | henter := hin id (by rw [hrec]; rfl)
        · rw [hnone] at hold
          cases hold
        · exact .inl (henter hid)

theorem InSight.edit (h : InSight w overlooked) {me : MachineId} {now : ℕ} {op : Op} {s : State}
    {u : WorkspaceUpdate} (hm : w.agent.mutate me now op = .ok (s, u))
    (hok : ∀ r ∈ op.record, Enters w overlooked r.id) {t : State} (hd : t.doc = s.doc)
    (hon : t.online = w.agent.online) (o : Option WorkspaceUpdate) :
    InSight (w.mutated t o) overlooked := by
  have hagent : (w.mutated t o).agent = t := by cases o <;> rfl
  refine h.of_same (by cases o <;> rfl) (by rw [hagent, hon]) (by cases o <;> rfl) fun id hid => ?_
  rw [hagent, State.machine, hd] at hid
  obtain hold | ⟨r, hr, rfl⟩ := State.mutate_brings hm hid
  · exact .inl hold
  · exact .inr (hok r hr)

theorem InSight.moved (h : InSight w overlooked) {i : ℕ} {e : SessionTask.Event}
    {t u : SessionTask} {s : State} {os : List SessionOutcome}
    (hok : ∀ m, e = .read m → ∀ id ∈ m.brings, Enters w overlooked id)
    (hstep : SessionTask.Stepped t w.agent e u s os) :
    InSight (w.onStep i u s os) overlooked := by
  have hfinish : ∀ s : State, s.online = w.agent.online →
      (∀ id, (s.machine id).isSome = true →
        (w.agent.machine id).isSome = true ∨ Enters w overlooked id) →
      InSight (w.onStep i u s os) overlooked :=
    fun s hon hin => h.of_same rfl hon (Service.onStep_peers ..) hin
  cases hstep with
  | @read peer m stage s os hst hr =>
    have hsame := hfinish w.agent rfl fun id hid => .inl hid
    have htook : ∀ {m' : Message} {s' : State}, m' = m → State.Took w.agent m' s' →
        ∀ id, (s'.machine id).isSome = true →
          (w.agent.machine id).isSome = true ∨ Enters w overlooked id := fun hm ht id hid =>
      (ht.brings hid).imp_right (hok m rfl id <| hm ▸ ·)
    unfold SessionTask.onRead at hr
    split at hr
    · split at hr
      · rename_i hm
        obtain ⟨-, rfl, -⟩ := hr
        exact hfinish _ (State.merge_online hm) (htook rfl (State.took_merge hm))
      · obtain ⟨-, rfl, -⟩ := hr
        exact hsame
    · split at hr
      · rename_i hm
        obtain ⟨-, rfl, -⟩ := hr
        exact hfinish _ (State.apply_online hm) (htook rfl (State.took_apply hm))
      · obtain ⟨-, rfl, -⟩ := hr
        exact hsame
    all_goals
      obtain ⟨-, rfl, -⟩ := hr
      exact hsame
  | _ => exact hfinish w.agent rfl fun id hid => .inl hid

theorem InSight.reported (h : InSight w overlooked) {m : Internal} {b : Actor}
    {events : List NetEvent} {dials : List (MachineId × String)} {rest : List Internal}
    {tasks : List SessionTask} (hb : w.actor.handle w.agent w.now m = (b, events, dials)) :
    InSight { w with actor := b, inbox := rest, events := w.events ++ events, tasks := tasks }
      overlooked := by
  have hmono : ∀ {id}, Mentions w.events id → Mentions (w.events ++ events) id :=
    fun ⟨e, he, hp⟩ => ⟨e, List.mem_append_left _ he, hp⟩
  refine ⟨fun id hid => ?_, fun id hid => (h.overlooked id hid).imp_left hmono⟩
  have hreach := Actor.handle_reaches hb id
  have hexp : (w.events ++ events).foldl (NetEvent.hear id) (decide (id ∈ w.agent.online)) =
      events.foldl (NetEvent.hear id) (w.expects id) := List.foldl_append
  refine Eq.trans hexp (Eq.trans ?_ hreach.symm)
  by_cases hnew : Mentions events id
  · exact foldl_hear_of_mentions hnew _ _
  · rw [h.expects id fun ho => ?_]
    obtain ⟨e, he, hp⟩ := hid ho
    obtain he | he := List.mem_append.mp he
    · exact ⟨e, he, hp⟩
    · exact absurd ⟨e, he, hp⟩ hnew

theorem mentions_cons {e : NetEvent} {rest : List NetEvent} {id : MachineId} :
    Mentions (e :: rest) id ↔ (∃ b, e.tells = some (id, b)) ∨ Mentions rest id := by
  unfold Mentions
  simp only [List.mem_cons, exists_eq_or_imp]
  refine or_congr_left ⟨?_, ?_⟩
  · rintro ⟨⟨k, b⟩, hp, rfl⟩
    exact ⟨b, hp⟩
  · rintro ⟨b, hb⟩
    exact ⟨_, hb, rfl⟩

theorem hear_of_tells {e : NetEvent} {id : MachineId} {b : Bool} (h : e.tells = some (id, b))
    (c : Bool) : e.hear id c = b := by
  simp [NetEvent.hear, h]

theorem hear_of_not_tells {e : NetEvent} {id : MachineId} (h : ∀ b, e.tells ≠ some (id, b))
    (c : Bool) : e.hear id c = c := by
  unfold NetEvent.hear
  split
  · rename_i k now ht
    rw [if_neg]
    rintro rfl
    exact h now ht
  · rfl

section Event
variable {e : NetEvent} {rest : List NetEvent}

theorem expects_cons (he : w.events = e :: rest) (id : MachineId) :
    w.expects id = rest.foldl (NetEvent.hear id) (e.hear id (decide (id ∈ w.agent.online))) := by
  rw [Service.expects, he, List.foldl_cons]

theorem loses_eq (he : w.events = e :: rest) (missed : Bool) : loses w missed =
    e.tells.bind fun p =>
      if (missed || !heeds w.agent e) && decide (p.1 ∈ w.agent.online) != p.2 then some p
      else none := by
  simp [loses, he]

theorem loses_some (he : w.events = e :: rest) {missed : Bool} {p : MachineId × Bool}
    (h : loses w missed = some p) : e.tells = some p ∧ (missed || !heeds w.agent e) = true ∧
      decide (p.1 ∈ w.agent.online) ≠ p.2 := by
  rw [loses_eq he, Option.bind_eq_some_iff] at h
  obtain ⟨q, hq, h⟩ := h
  obtain ⟨hlost, h⟩ := Option.ite_none_right_eq_some.mp h
  obtain rfl := Option.some.inj h
  rw [Bool.and_eq_true, bne_iff_ne] at hlost
  exact ⟨hq, hlost⟩

/-- What is skipped without a loss says what the set says. -/
theorem hear_of_loses_none (he : w.events = e :: rest) {missed : Bool}
    (h : loses w missed = none) (hskip : (missed || !heeds w.agent e) = true) (id : MachineId) :
    e.hear id (decide (id ∈ w.agent.online)) = decide (id ∈ w.agent.online) := by
  rw [loses_eq he, Option.bind_eq_none_iff] at h
  by_cases htells : ∃ b, e.tells = some (id, b)
  · obtain ⟨b, hb⟩ := htells
    have hkept := h _ hb
    rw [hskip, Bool.true_and, ite_eq_right_iff] at hkept
    by_contra hne
    rw [hear_of_tells hb] at hne
    exact absurd (hkept (bne_iff_ne.mpr (Ne.symm hne))) (Option.some_ne_none _)
  · exact hear_of_not_tells (not_exists.mp htells) _

/-- Whom the event is about is no longer overlooked. -/
def without (overlooked : Finset MachineId) (e : NetEvent) : Finset MachineId :=
  (e.tells.map Prod.fst).elim overlooked overlooked.erase

theorem mem_without {id : MachineId} :
    id ∈ without overlooked e ↔ id ∈ overlooked ∧ ∀ b, e.tells ≠ some (id, b) := by
  cases htells : e.tells with
  | none => simp [without, htells]
  | some p => simp [without, htells, and_comm, eq_comm, Prod.ext_iff]

theorem note_of_loses_none (he : w.events = e :: rest) {missed : Bool}
    (h : loses w missed = none) (us : List MachineId) :
    note (⟨w, us⟩, overlooked) (.service (.agentEvent missed)) = without overlooked e := by
  simp only [note, h, he, List.head?_cons, Option.bind_some, without]
  cases e.tells <;> rfl

theorem InSight.heard (h : InSight w overlooked) (he : w.events = e :: rest) {agent : State}
    (hset : ∀ id, decide (id ∈ agent.online) = e.hear id (decide (id ∈ w.agent.online)))
    (hnone : ∀ id, w.agent.machine id = none → agent.machine id = none) :
    InSight { w with agent := agent, events := rest } (without overlooked e) := by
  refine ⟨fun id hid => ?_, fun id hid => ?_⟩
  · have hexp : rest.foldl (NetEvent.hear id) (decide (id ∈ agent.online)) = w.expects id := by
      rw [hset, expects_cons he]
    refine Eq.trans hexp (h.expects id fun hin => ?_)
    rw [he, mentions_cons]
    by_cases htells : ∃ b, e.tells = some (id, b)
    · exact .inl htells
    · exact .inr (hid (mem_without.mpr ⟨hin, not_exists.mp htells⟩))
  · obtain ⟨hin, hno⟩ := mem_without.mp hid
    obtain hm | ⟨hoff, hgone⟩ := h.overlooked id hin
    · rw [he, mentions_cons] at hm
      exact .inl (hm.resolve_left (not_exists.mpr hno))
    · refine .inr ⟨fun hon => ?_, hnone id hgone⟩
      have hsame := hset id
      rw [hear_of_not_tells hno] at hsame
      exact hoff (by simpa [hon] using hsame.symm)

/-- What is said of the machine `k` is lost, and the set says something else. -/
theorem InSight.lost (h : InSight w overlooked) (he : w.events = e :: rest) {k : MachineId}
    {b : Bool} (htells : e.tells = some (k, b)) (hne : decide (k ∈ w.agent.online) ≠ b)
    (hok : Mentions rest k ∨ b = true ∧ w.agent.machine k = none) :
    InSight { w with events := rest } (insert k overlooked) := by
  have hother : ∀ {id}, id ≠ k → ∀ c, e.tells ≠ some (id, c) := by
    intro id hid c hc
    exact hid (Prod.mk.inj (Option.some.inj (hc.symm.trans htells))).1
  have hk : Mentions rest k ∨ k ∉ w.agent.online ∧ w.agent.machine k = none := by
    refine hok.imp_right fun ⟨hb, hnone⟩ => ⟨fun hon => hne ?_, hnone⟩
    rw [hb]
    exact decide_eq_true hon
  refine ⟨fun id hid => ?_, fun id hid => ?_⟩
  · obtain rfl | hne := eq_or_ne id k
    · have hm : Mentions w.events id := by
        rw [he, mentions_cons]
        exact .inl ⟨b, htells⟩
      refine Eq.trans ?_ (h.expects id fun _ => hm)
      rw [expects_cons he]
      exact foldl_hear_of_mentions (hid (Finset.mem_insert_self ..)) _ _
    · refine Eq.trans ?_ (h.expects id fun hin => ?_)
      · rw [expects_cons he, hear_of_not_tells (hother hne)]
        rfl
      · rw [he, mentions_cons]
        exact .inr (hid (Finset.mem_insert_of_mem hin))
  · obtain rfl | hne := eq_or_ne id k
    · exact hk
    · refine (h.overlooked id (Finset.mem_of_mem_insert_of_ne hid hne)).imp_left fun hm => ?_
      rw [he, mentions_cons] at hm
      exact hm.resolve_left (not_exists.mpr (hother hne))

theorem InSight.event {us : List MachineId} (h : InSight w overlooked) {missed : Bool}
    (he : w.events = e :: rest) (hok : Attends w overlooked (.agentEvent missed)) :
    InSight
      { w with
        agent := if missed then w.agent else w.agent.onNetEvent w.now e
        events := rest }
      (note (⟨w, us⟩, overlooked) (.service (.agentEvent missed))) := by
  have hskipped : (missed || !heeds w.agent e) = true →
      (if missed then w.agent else w.agent.onNetEvent w.now e) = w.agent := by
    intro hskip
    cases missed with
    | true => rfl
    | false => exact State.onNetEvent_of_not_heeds (by simpa using hskip)
  cases hloses : loses w missed with
  | some p =>
    obtain ⟨htells, hskip, hne⟩ := loses_some he hloses
    have hrest := hok p hloses
    rw [he] at hrest
    have hnote : note (⟨w, us⟩, overlooked) (.service (.agentEvent missed)) =
        insert p.1 overlooked := by simp only [note, hloses]
    rw [hskipped hskip, hnote]
    exact h.lost he htells hne hrest
  | none =>
    rw [note_of_loses_none he hloses]
    refine h.heard he (fun id => ?_) fun id hid => ?_
    · cases hskip : missed || !heeds w.agent e with
      | true => rw [hskipped hskip, hear_of_loses_none he hloses hskip]
      | false =>
        obtain ⟨rfl, hheeds⟩ : missed = false ∧ heeds w.agent e = true := by simpa using hskip
        exact State.onNetEvent_online hheeds id
    · split_ifs
      · exact hid
      · exact State.onNetEvent_machine hid

end Event

theorem InSight.service {v : Service} {a : Service.Action} {u : List MachineId}
    (h : InSight w overlooked) (hok : Attends w overlooked a) (ha : isUnpair a = false)
    (hs : w.step a = some v) : InSight v (note (⟨w, u⟩, overlooked) (.service a)) := by
  have hpresent : ∀ id, (w.agent.machine id).isSome = true →
      (w.agent.machine id).isSome = true ∨ Enters w overlooked id := fun id hid => .inl hid
  cases a with
  | handle =>
    simp only [Service.step] at hs
    split at hs
    · cases hs
    · obtain rfl := Option.some.inj hs
      exact h.reported rfl
  | send m =>
    obtain ⟨-, hs⟩ := Option.ite_none_right_eq_some.mp hs
    obtain rfl := Option.some.inj hs
    exact h.of_same rfl rfl rfl hpresent
  | accept addr | elapse ms =>
    obtain rfl := Option.some.inj hs
    exact h.of_same rfl rfl rfl hpresent
  | session i e =>
    simp only [Service.step, Option.bind_eq_bind, Option.bind_eq_some_iff] at hs
    obtain ⟨t, -, ⟨u, s, os⟩, hu, hs⟩ := hs
    obtain ⟨-, hs⟩ := Option.ite_none_right_eq_some.mp hs
    obtain rfl := Option.some.inj hs
    refine h.moved (fun m hm => ?_) (SessionTask.stepped hu)
    subst hm
    exact hok
  | write i written =>
    simp only [Service.step, Option.bind_eq_bind, Option.bind_eq_some_iff] at hs
    obtain ⟨t, -, hs⟩ := hs
    obtain ⟨-, hs⟩ := Option.ite_none_left_eq_some.mp hs
    split at hs
    · obtain rfl := Option.some.inj hs
      exact h.of_same rfl rfl rfl hpresent
    · cases hs
    · obtain rfl := Option.some.inj hs
      exact h.of_same rfl rfl rfl hpresent
  | edit op =>
    simp only [Service.step] at hs
    split at hs
    · rename_i s u hm
      obtain rfl := Option.some.inj hs
      obtain ⟨d, -, hst, -⟩ := State.mutate_some hm
      exact h.edit hm hok rfl (by rw [hst]) _
    · obtain rfl := Option.some.inj hs
      exact h
  | pair id =>
    simp only [Service.step] at hs
    split at hs
    · rename_i s o hp
      obtain rfl := Option.some.inj hs
      obtain ⟨c, hc, ⟨hnone, rfl, rfl⟩ | ⟨record, x, u, hid, -, rfl, hm, rfl⟩⟩ :=
        State.pair_some hp
      · exact h.of_same rfl rfl rfl hpresent
      · obtain ⟨d, -, hst, -⟩ := State.mutate_some hm
        refine h.edit (t := { x with candidates := x.candidates.erase id }) hm (fun r hr => ?_) rfl
          (by rw [hst]) _
        obtain rfl := Option.some.inj hr
        rw [hid]
        exact hok c hc
    · obtain rfl := Option.some.inj hs
      exact h
  | unpair id => cases ha
  | push n =>
    simp only [Service.step] at hs
    split at hs
    · obtain ⟨-, hs⟩ := Option.ite_none_right_eq_some.mp hs
      obtain rfl := Option.some.inj hs
      exact h.of_same rfl rfl rfl hpresent
    · cases hs
  | agentEvent missed =>
    simp only [Service.step] at hs
    split at hs
    · cases hs
    · rename_i e rest he
      obtain rfl := Option.some.inj hs
      exact h.event he hok

theorem InSight.forget (h : InSight w overlooked) {k : MachineId}
    (hok : k ∈ w.agent.online → w.agent.machine k = none ∨ Mentions w.events k) :
    InSight { w with agent := { w.agent with online := w.agent.online.erase k } }
      (if k ∈ w.agent.online then insert k overlooked else overlooked) := by
  by_cases hon : k ∈ w.agent.online
  swap
  · rw [if_neg hon]
    exact h.of_same rfl (Finset.erase_eq_of_notMem hon) rfl fun id hid => .inl hid
  rw [if_pos hon]
  refine ⟨fun id hid => ?_, fun id hid => ?_⟩
  · obtain rfl | hne := eq_or_ne id k
    · have hm := hid (Finset.mem_insert_self ..)
      exact (foldl_hear_of_mentions hm _ _).trans (h.expects id fun _ => hm)
    · refine Eq.trans ?_ (h.expects id fun hin => hid (Finset.mem_insert_of_mem hin))
      simp [Service.expects, hne]
  · obtain rfl | hne := eq_or_ne id k
    · exact (hok hon).symm.imp_right fun hnone => ⟨Finset.notMem_erase _ _, hnone⟩
    · obtain hm | ⟨hoff, hnone⟩ := h.overlooked id (Finset.mem_of_mem_insert_of_ne hid hne)
      · exact .inl hm
      · exact .inr ⟨fun ho => hoff (Finset.mem_of_mem_erase ho), hnone⟩

/-- With nothing left to be heard, what is in the set is reachable, and of the document also the
other way round. -/
theorem InSight.quiet (h : InSight w overlooked) (hquiet : w.events = []) {id : MachineId} :
    (id ∈ w.agent.online → w.actor.reaches id = true) ∧
      ((w.agent.machine id).isSome = true → w.actor.reaches id = true → id ∈ w.agent.online) := by
  have hno : ¬ Mentions w.events id := by simp [hquiet, Mentions]
  have hsame : id ∉ overlooked → (id ∈ w.agent.online ↔ w.actor.reaches id = true) := fun hin => by
    have hid := h.expects id fun ho => absurd ho hin
    simp only [Service.expects, hquiet, List.foldl_nil] at hid
    rw [← hid, decide_eq_true_eq]
  by_cases hin : id ∈ overlooked
  · obtain ⟨hoff, hnone⟩ := (h.overlooked id hin).resolve_left hno
    exact ⟨fun hon => absurd hon hoff, fun hid => by simp [hnone] at hid⟩
  · exact ⟨(hsame hin).mp, fun _ => (hsame hin).mpr⟩

end InSight

theorem InSight.step {x y : Watch × Finset MachineId} {a : Action} (h : InSight x.1.service x.2)
    (hok : KeepsSight x a) (hs : recording step note x a = some y) :
    InSight y.1.service y.2 := by
  obtain ⟨⟨w, us⟩, overlooked⟩ := x
  obtain ⟨hs, hy⟩ := recording_eq_some.mp hs
  rw [← hy]
  cases a with
  | service a =>
    obtain ⟨ha, hs⟩ := Option.ite_none_left_eq_some.mp hs
    obtain ⟨v, hv, hw⟩ := Option.map_eq_some_iff.mp hs
    rw [← hw]
    exact h.service hok (by simpa using ha) hv
  | unpair id =>
    simp only [Watch.step] at hs
    split_ifs at hs with hno
    · rw [← Option.some.inj hs]
      exact h
    · obtain ⟨v, hv, hw⟩ := Option.map_eq_some_iff.mp hs
      rw [← hw]
      exact h.service (u := us) (a := .edit (.removeMachine id)) (fun r hr => by cases hr) rfl hv
  | forget n =>
    simp only [Watch.step, Option.bind_eq_bind, Option.bind_eq_some_iff, Option.pure_def,
      Option.some.injEq] at hs
    obtain ⟨k, hk, hw⟩ := hs
    rw [← hw]
    simpa only [note, hk] using h.forget (hok k hk)

/-- As long as the agent does not miss the last that is heard of a machine, where it is that the
machine has gone or the machine is in the document, and no machine it has overlooked comes into the
document, the agent knows who is reachable; so the loop neither leaves the pointer on a machine
whose session has ended, nor sends it there. -/
theorem faithful_of_keepsSight {τ : Type} {identity : Identity} {agent : State} {now : ℕ}
    {as : List Action} {w : Watch} {overlooked : Finset MachineId} (hstart : agent.online = ∅)
    (hrun : Run (recording step note) KeepsSight (start identity agent now, ∅) as
      (w, overlooked)) : Faithful w ∧
    (w.service.events = [] → ∀ (os : Os) (env : Env) (tag : τ) (r t : Router τ),
      env.online = w.service.agent.online →
      (t = r.onHeartbeat os env tag ∨
        ∃ s source, t = r.handle os env tag s source ∧ t.owner ≠ r.owner) →
      t.owner = r.me ∨ w.service.actor.reaches t.owner = true) := by
  have hsight : InSight w.service overlooked := by
    refine hrun.invariant (I := fun x => InSight x.1.service x.2)
      (fun _ _ _ h hok hs => h.step hok hs) ⟨fun id _ => ?_, fun id hid => by simp at hid⟩
    simp [Service.expects, start, Service.start, hstart, Actor.reaches]
  refine ⟨fun hquiet id r hr => ⟨(hsight.quiet hquiet).1,
    (hsight.quiet hquiet).2 (by rw [hr]; rfl)⟩, fun hquiet os env tag r t henv ht => ?_⟩
  have honline : t.owner ∈ env.online → w.service.actor.reaches t.owner = true := fun hon =>
    (hsight.quiet hquiet).1 (henv ▸ hon)
  obtain rfl | ⟨s, source, rfl, hne⟩ := ht
  · rw [Router.onHeartbeat_owner] at honline ⊢
    split_ifs with hown
    · rw [if_pos hown] at honline
      exact hown.imp_right honline
    · exact .inl rfl
  · cases Router.handle_spec os env tag s source r with
    | quiet _ hq => exact absurd hq.owner hne
    | queued hs ho hq => exact absurd (by rw [hq]) hne
    | entered x y hs he ho hn => exact .inl hn.owner
    | crossed doc m p ho hd hm hon he hn => exact .inr (honline (hn.owner.symm ▸ hon))

instance (events : List NetEvent) (id : MachineId) : Decidable (Mentions events id) :=
  inferInstanceAs (Decidable (∃ e ∈ events, ∃ p ∈ e.tells, p.1 = id))

instance (w : Service) (overlooked : Finset MachineId) (id : MachineId) :
    Decidable (Enters w overlooked id) :=
  inferInstanceAs (Decidable (id ∈ overlooked → _))

instance (w : Service) (overlooked : Finset MachineId) (a : Service.Action) :
    Decidable (Attends w overlooked a) :=
  match a with
  | .agentEvent missed => inferInstanceAs (Decidable (∀ p ∈ loses w missed,
      Mentions w.events.tail p.1 ∨ p.2 = true ∧ w.agent.machine p.1 = none))
  | .edit op => inferInstanceAs (Decidable (∀ r ∈ op.record, Enters w overlooked r.id))
  | .pair id =>
    inferInstanceAs (Decidable (∀ c ∈ w.agent.candidates[id]?, Enters w overlooked c.machineId))
  | .session _ (.read m) => inferInstanceAs (Decidable (∀ id ∈ m.brings, Enters w overlooked id))
  | .session _ .connected | .session _ (.hello _) | .session _ (.panicked _)
  | .session _ .identify | .session _ .authorise
  | .session _ (.identified _) | .session _ .snapshot | .session _ (.docFull ..)
  | .session _ (.failed _) | .session _ .close | .session _ .report
  | .handle | .send _ | .accept _ | .write .. | .unpair _ | .push _ | .elapse _ => .isTrue trivial

instance (x : Watch × Finset MachineId) (a : Action) : Decidable (KeepsSight x a) :=
  match a with
  | .service a => inferInstanceAs (Decidable (Attends x.1.service x.2 a))
  | .forget n => inferInstanceAs (Decidable (∀ id ∈ x.1.unpairing[n]?,
      id ∈ x.1.service.agent.online → _ ∨ Mentions x.1.service.events id))
  | .unpair _ => .isTrue trivial

/-- The studio connects to the laptop and the agent hears of it. -/
def connects (i : ℕ) : List Action :=
  (Service.accepting i ++ [Service.Action.handle, .agentEvent false]).map .service

/-- The studio, no longer paired, is announced, offered for pairing, and admitted. -/
def admits : List Action :=
  [.send (.sighting ⟨1, "Studio", 11, some 7, [], "10.0.0.1"⟩), .handle, .agentEvent false,
    .pair 1].map .service

def unpairs : List Action := [.unpair 1, .forget 0]

/-- The studio's session ends, and the agent hears of that. -/
def leaves : List Action :=
  [.session 0 .snapshot, .session 0 (.docFull 900 none), .session 0 (.failed .timeout),
    .session 0 .close, .handle, .agentEvent false].map .service

/-- Unpaired, gone, admitted again, and back. -/
theorem faithful_of_keepsSight_again : ∃ w overlooked, Run (recording step note) KeepsSight
      (start ⟨2, 12⟩ (.ofDoc together) 0, ∅)
      (connects 0 ++ unpairs ++ leaves ++ admits ++ connects 1) (w, overlooked) ∧
    w.service.events.isEmpty = true ∧ w.service.actor.reaches 1 = true ∧ Faithful w := by
  obtain ⟨⟨w, overlooked⟩, hrun, hw⟩ := run_of_replay (recording step note) KeepsSight
    (start ⟨2, 12⟩ (.ofDoc together) 0, ∅)
    (connects 0 ++ unpairs ++ leaves ++ admits ++ connects 1)
    (fun x => (x.1.service.events.isEmpty, x.1.service.actor.reaches 1)) (b := (true, true))
    (by decide +kernel)
  obtain ⟨hquiet, hreach⟩ := Prod.mk.inj hw
  exact ⟨w, overlooked, hrun, hquiet, hreach, (faithful_of_keepsSight (τ := Unit) rfl hrun).1⟩

/-- The channel holds this many events: one is missed only when more are waiting. -/
def eventCapacity : ℕ := 256

def Overflows (w : Watch) : Action → Prop
  | .service (.agentEvent missed) => missed = true → eventCapacity < w.service.events.length
  | _ => True

instance (w : Watch) (a : Action) : Decidable (Overflows w a) :=
  match a with
  | .service (.agentEvent missed) =>
    inferInstanceAs (Decidable (missed = true → eventCapacity < w.service.events.length))
  | .service .handle | .service (.send _) | .service (.accept _) | .service (.session ..)
  | .service (.write ..) | .service (.edit _) | .service (.pair _) | .service (.unpair _)
  | .service (.push _) | .service (.elapse _) | .unpair _ | .forget _ => .isTrue trivial

/-- What tells that the studio is in the document, with a live session, and not in the set. -/
def unseen (w : Watch) : Bool × Bool × Bool × Bool :=
  (w.service.events.isEmpty, (w.service.agent.machine 1).isSome,
    decide (1 ∈ w.service.agent.online), w.service.actor.reaches 1)

theorem not_faithful {w : Watch} (h : unseen w = (true, true, false, true)) : ¬ Faithful w := by
  simp only [unseen, Prod.mk.injEq, List.isEmpty_iff, Option.isSome_iff_exists,
    decide_eq_false_iff_not] at h
  obtain ⟨hquiet, ⟨r, hr⟩, hon, hreach⟩ := h
  exact fun hf => hon ((hf hquiet 1 r hr).mpr hreach)

/-- Unpaired and admitted again while the session is live: the agent takes the studio for gone. -/
theorem paired_again_unseen : ∃ w, Run step Overflows (start ⟨2, 12⟩ (.ofDoc together) 0)
      (connects 0 ++ unpairs ++ admits) w ∧ ¬ Faithful w := by
  obtain ⟨w, hrun, hw⟩ := run_of_replay step Overflows (start ⟨2, 12⟩ (.ofDoc together) 0)
    (connects 0 ++ unpairs ++ admits) unseen (b := (true, true, false, true)) (by decide +kernel)
  exact ⟨w, hrun, not_faithful hw⟩

/-- While the agent is busy a guest is sighted 256 times behind the studio's arrival. -/
def crowd : List Action :=
  let sighted : List Service.Action :=
    [.send (.sighting ⟨5, "Guest", 15, none, [], "10.0.0.5"⟩), .handle]
  (Service.accepting 0 ++ [Service.Action.handle] ++ (List.replicate 256 sighted).flatten ++
    [Service.Action.agentEvent true] ++
      List.replicate 256 (Service.Action.agentEvent false)).map .service

set_option maxRecDepth 20000 in
/-- The arrival is pushed out of the channel and never heard of. -/
theorem arrival_pushed_out : ∃ w, Run step Overflows (start ⟨2, 12⟩ (.ofDoc together) 0) crowd w ∧
    ¬ Faithful w := by
  obtain ⟨w, hrun, hw⟩ := run_of_replay step Overflows (start ⟨2, 12⟩ (.ofDoc together) 0) crowd
    unseen (b := (true, true, false, true)) (by decide +kernel)
  exact ⟨w, hrun, not_faithful hw⟩

end Watch
end InputShare

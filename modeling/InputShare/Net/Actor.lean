import InputShare.Agent.Core
import InputShare.Net.Crypto

/-! The networking actor: what it knows of each peer at runtime, and what it does with everything
that arrives on its inbox. Times are milliseconds. A session's queue is named by the number of the
session. -/
namespace InputShare

inductive Status where
  | offline | connecting | online
deriving DecidableEq, Repr

/-- What is known about one machine at runtime. -/
structure PeerSlot where
  displayName : String
  addr : Option String
  /-- The workspace this peer last announced. -/
  lastWorkspace : Option (Option WorkspaceId)
  lastSeen : Option ℕ
  status : Status
  /-- The sending end of a session's queue. -/
  outbound : Option ℕ
  attempts : ℕ
  nextAttempt : ℕ
deriving DecidableEq, Repr

namespace PeerSlot

def new (displayName : String) (now : ℕ) : PeerSlot :=
  ⟨displayName, none, none, none, .offline, none, 0, now⟩

/-- How long an address is believed after it was heard from. -/
def hintTtl : ℕ := 20000

def fresh (s : PeerSlot) (now : ℕ) : Bool :=
  match s.lastSeen with
  | some seen => decide (now - seen < hintTtl)
  | none => false

end PeerSlot

structure Queue where
  items : List Message
  /-- The session still takes from it. -/
  listening : Bool
  /-- Everything that was ever put into it. -/
  placed : List Message
deriving DecidableEq

namespace Queue

def new : Queue := ⟨[], true, []⟩

def capacity : ℕ := 128

def hasRoom (q : Queue) : Bool := q.listening && decide (q.items.length < capacity)

def trySend (q : Queue) (m : Message) : Queue :=
  if q.hasRoom then { q with items := q.items ++ [m], placed := q.placed ++ [m] } else q

def close (q : Queue) : Queue := { q with items := [], listening := false }

end Queue

inductive Reason where
  | quiet
  | error (e : NetError)
  | incompatible (e : CoreError)
  | rejectedUpdate (e : CoreError)
  | goodbye (text : String)
deriving DecidableEq, Repr

/-- What a session tells the actor about itself. -/
inductive SessionOutcome where
  | established (id : MachineId) (displayName : String) (outbound : ℕ)
  | closed (id : MachineId) (reason : Reason)
  | rejected (id : MachineId) (identityKey : PubKey) (addr : String)
  | differentWorkspaces (id : MachineId) (displayName : String) (identityKey : PubKey)
      (theirWorkspace : WorkspaceId) (theirSize : ℕ)
  | workspaceChanged
deriving DecidableEq, Repr

/-- An announcement, and where it came from. -/
structure Sighting where
  machineId : MachineId
  displayName : String
  identityKey : PubKey
  workspaceId : Option WorkspaceId
  invitations : List MachineId
  addr : String
deriving DecidableEq, Repr

/-- Messages into the actor. It does not read which session an outcome comes from, nor which of
the edits an update is. -/
inductive Internal where
  | sighting (s : Sighting)
  | session (i : ℕ) (outcome : SessionOutcome)
  | broadcast (k : ℕ) (update : WorkspaceUpdate)
  | sendInput (dest : MachineId) (events : List InputEvent)
  | announceCursorOwner (machine : MachineId)
  | rescan
  | tick
deriving DecidableEq

abbrev Peers := Std.ExtTreeMap MachineId PeerSlot

structure Actor where
  me : MachineId
  peers : Peers
  queues : ℕ → Queue

namespace Actor

def setQueue (a : Actor) (i : ℕ) (q : Queue) : Actor :=
  { a with queues := Function.update a.queues i q }

def hasRoom (a : Actor) (slot : PeerSlot) : Bool :=
  match slot.outbound with
  | some q => (a.queues q).hasRoom
  | none => false

/-- Tries to send a message to every peer that `pick` picks; no two peers share a queue. -/
def trySend (a : Actor) (pick : MachineId → Bool) (m : Message) (q : ℕ) : Queue :=
  if a.peers.toList.any fun p => pick p.1 && p.2.outbound = some q then (a.queues q).trySend m
  else a.queues q

def keepUp (a : Actor) (slot : PeerSlot) : PeerSlot :=
  if a.hasRoom slot then slot else { slot with outbound := none }

/-- A machine this one may talk to is remembered, any other one is offered for pairing. -/
def onSighting (authorised : Bool) (now : ℕ) (s : Sighting) (a : Actor) : Actor × List NetEvent :=
  if s.machineId = a.me then (a, [])
  else if !authorised then
    (a, [.candidate s.machineId s.displayName s.identityKey s.workspaceId s.addr
      (decide (a.me ∈ s.invitations))])
  else
    let slot := (a.peers[s.machineId]?).getD (.new s.displayName now)
    let wasStale := !slot.fresh now
    let changedWorkspace := slot.lastWorkspace.any (· ≠ s.workspaceId)
    let slot := { slot with
      displayName := s.displayName
      addr := some s.addr
      lastWorkspace := some s.workspaceId
      lastSeen := some now }
    let slot := if wasStale || changedWorkspace then { slot with attempts := 0, nextAttempt := now }
      else slot
    ({ a with peers := a.peers.insert s.machineId slot }, [])

def backoff (attempts : ℕ) : ℕ := min (1000 * 2 ^ min attempts 5) 30000

def onSession (now : ℕ) (o : SessionOutcome) (a : Actor) : Actor × List NetEvent :=
  match o with
  | .established id displayName outbound =>
    let slot := (a.peers[id]?).getD (.new displayName now)
    ({ a with peers := a.peers.insert id { slot with
        displayName := displayName
        status := .online
        outbound := some outbound
        attempts := 0
        lastSeen := some now } }, [.online id])
  | .closed id _ =>
    let peers :=
      match a.peers[id]? with
      | some slot =>
        let attempts := min (slot.attempts + 1) 4294967295
        a.peers.insert id { slot with
          status := .offline
          outbound := none
          attempts := attempts
          nextAttempt := now + backoff attempts }
      | none => a.peers
    ({ a with peers := peers }, [.offline id])
  | .rejected id identityKey addr => (a, [.rejected id identityKey addr])
  | .differentWorkspaces id _ identityKey theirWorkspace theirSize =>
    let peers :=
      match a.peers[id]? with
      | some slot => a.peers.insert id { slot with
          status := .offline
          outbound := none
          attempts := max slot.attempts 5
          nextAttempt := now + 30000 }
      | none => a.peers
    ({ a with peers := peers }, [.differentWorkspaces id identityKey theirWorkspace theirSize])
  | .workspaceChanged => (a, [])

def onBroadcast (u : WorkspaceUpdate) (a : Actor) : Actor :=
  { a with
    peers := a.peers.map fun _ slot => a.keepUp slot
    queues := a.trySend (fun _ => true) (.update u) }

def onAnnounceOwner (machine : MachineId) (a : Actor) : Actor :=
  { a with queues := a.trySend (fun _ => true) (.cursorOwner machine) }

def onSendInput (dest : MachineId) (events : List InputEvent) (a : Actor) : Actor :=
  { a with
    peers := a.peers.modify dest a.keepUp
    queues := a.trySend (· = dest) (.input events) }

def onRescan (now : ℕ) (a : Actor) : Actor :=
  { a with peers := a.peers.map fun _ slot =>
      if slot.status = .offline then { slot with attempts := 0, nextAttempt := now } else slot }

/-- A peer to be dialled: offline, heard from recently, and of the two this is the one to dial. -/
def due (a : Actor) (now : ℕ) (id : MachineId) (slot : PeerSlot) : Option String :=
  if slot.status = .offline ∧ a.me < id ∧ slot.fresh now = true ∧ slot.nextAttempt ≤ now then
    slot.addr
  else none

/-- Dials the peers that are due and forgets the addresses of those that stopped announcing. -/
def onTick (now : ℕ) (a : Actor) : Actor × List (MachineId × String) :=
  ({ a with peers := a.peers.map fun id slot =>
      if (a.due now id slot).isSome then { slot with status := .connecting }
      else if slot.status = .offline ∧ slot.fresh now = false then { slot with addr := none }
      else slot },
    a.peers.toList.filterMap fun p => (a.due now p.1 p.2).map fun addr => (p.1, addr))

/-- The events reported, the sessions to be dialled. -/
def handle (agent : State) (now : ℕ) (m : Internal) (a : Actor) :
    Actor × List NetEvent × List (MachineId × String) :=
  match m with
  | .sighting s =>
    let (a, events) := a.onSighting (agent.authorize s.machineId s.identityKey) now s
    (a, events, [])
  | .session _ o =>
    let (a, events) := a.onSession now o
    (a, events, [])
  | .broadcast _ u => (a.onBroadcast u, [], [])
  | .sendInput dest events => (a.onSendInput dest events, [], [])
  | .announceCursorOwner machine => (a.onAnnounceOwner machine, [], [])
  | .rescan => (a.onRescan now, [], [])
  | .tick =>
    let (a, dials) := a.onTick now
    (a, [], dials)

def settles (p : MachineId) : SessionOutcome → Bool
  | .established id .. | .closed id _ | .differentWorkspaces id .. => id = p
  | .rejected .. | .workspaceChanged => false

theorem onSighting_status {a : Actor} {authorised : Bool} {now : ℕ} {s : Sighting}
    {p : MachineId} {slot : PeerSlot}
    (hp : (a.onSighting authorised now s).1.peers[p]? = some slot) :
    slot.status = .offline ∨ ∃ old, a.peers[p]? = some old ∧ slot.status = old.status := by
  unfold onSighting at hp
  split_ifs at hp with hme hauth
  · exact .inr ⟨slot, hp, rfl⟩
  · exact .inr ⟨slot, hp, rfl⟩
  all_goals
    simp only [Std.ExtTreeMap.getElem?_insert] at hp
    split at hp
    · rename_i hid
      obtain rfl := Option.some.inj hp
      rw [compare_eq_iff_eq] at hid
      subst hid
      cases hold : a.peers[s.machineId]? with
      | none =>
        refine .inl ?_
        split <;> rfl
      | some old =>
        refine .inr ⟨old, rfl, ?_⟩
        split <;> rfl
    · exact .inr ⟨slot, hp, rfl⟩

theorem onSession_status {a : Actor} {now : ℕ} {o : SessionOutcome} {p : MachineId}
    {slot : PeerSlot} (hp : (a.onSession now o).1.peers[p]? = some slot) :
    ((∃ name n, o = .established p name n) ∧ slot.status = .online) ∨
      (settles p o = true ∧ slot.status = .offline) ∨
      (settles p o = false ∧ a.peers[p]? = some slot) := by
  unfold onSession at hp
  cases o with
  | established id name n =>
    simp only [Std.ExtTreeMap.getElem?_insert] at hp
    split at hp
    · rename_i hid
      rw [compare_eq_iff_eq] at hid
      obtain rfl := Option.some.inj hp
      exact .inl ⟨⟨name, n, by rw [hid]⟩, rfl⟩
    · rename_i hid
      rw [compare_eq_iff_eq] at hid
      exact .inr (.inr ⟨by simpa [settles] using hid, hp⟩)
  | closed id reason | differentWorkspaces id name key theirs size =>
    cases hold : a.peers[id]? with
    | none =>
      simp only [hold] at hp
      by_cases hid : id = p
      · rw [← hid, hold] at hp
        cases hp
      · exact .inr (.inr ⟨by simpa [settles] using hid, hp⟩)
    | some old =>
      simp only [hold, Std.ExtTreeMap.getElem?_insert] at hp
      split at hp
      · rename_i hid
        rw [compare_eq_iff_eq] at hid
        obtain rfl := Option.some.inj hp
        exact .inr (.inl ⟨by simpa [settles] using hid, rfl⟩)
      · rename_i hid
        rw [compare_eq_iff_eq] at hid
        exact .inr (.inr ⟨by simpa [settles] using hid, hp⟩)
  | rejected id key addr => exact .inr (.inr ⟨rfl, hp⟩)
  | workspaceChanged => exact .inr (.inr ⟨rfl, hp⟩)

theorem keepUp_status (a : Actor) (slot : PeerSlot) : (a.keepUp slot).status = slot.status := by
  unfold keepUp
  split <;> rfl

theorem onTick_status {a : Actor} {now : ℕ} {p : MachineId} {slot : PeerSlot}
    (hp : (a.onTick now).1.peers[p]? = some slot) :
    (slot.status = .connecting ∧ ∃ addr, (p, addr) ∈ (a.onTick now).2) ∨
      ∃ old, a.peers[p]? = some old ∧ slot.status = old.status := by
  simp only [onTick, Std.ExtTreeMap.getElem?_map, Option.map_eq_some_iff] at hp
  obtain ⟨old, hold, rfl⟩ := hp
  by_cases hdue : (a.due now p old).isSome = true
  · obtain ⟨addr, haddr⟩ := Option.isSome_iff_exists.mp hdue
    refine .inl ⟨by simp only [hdue, if_true], addr, List.mem_filterMap.mpr ⟨(p, old), ?_, ?_⟩⟩
    · exact Std.ExtTreeMap.mem_toList_iff_getElem?_eq_some.mpr hold
    · simp [haddr]
  · refine .inr ⟨old, hold, ?_⟩
    simp only [hdue, Bool.false_eq_true, if_false]
    split <;> rfl

theorem handle_status {a b : Actor} {agent : State} {now : ℕ} {m : Internal}
    {events : List NetEvent} {dials : List (MachineId × String)}
    (h : a.handle agent now m = (b, events, dials)) {p : MachineId} {slot : PeerSlot}
    (hp : b.peers[p]? = some slot) :
    ((∃ i name n, m = .session i (.established p name n)) ∧ slot.status = .online) ∨
    slot.status = .offline ∨
    (slot.status = .connecting ∧ ∃ addr, (p, addr) ∈ dials) ∨
    ∃ old, a.peers[p]? = some old ∧ slot.status = old.status ∧
      ∀ i o, m = .session i o → settles p o = false := by
  cases m with
  | session i o =>
    simp only [handle, Prod.mk.injEq] at h
    obtain ⟨rfl, -, -⟩ := h
    obtain ⟨⟨name, n, rfl⟩, hs⟩ | ⟨-, hs⟩ | ⟨hno, hold⟩ := onSession_status hp
    · exact .inl ⟨⟨i, name, n, rfl⟩, hs⟩
    · exact .inr (.inl hs)
    · refine .inr (.inr (.inr ⟨slot, hold, rfl, fun j o' ho => ?_⟩))
      obtain ⟨-, rfl⟩ := Internal.session.inj ho
      exact hno
  | sighting s =>
    simp only [handle, Prod.mk.injEq] at h
    obtain ⟨rfl, -, -⟩ := h
    obtain hs | ⟨old, hold, hs⟩ := onSighting_status hp
    · exact .inr (.inl hs)
    · exact .inr (.inr (.inr ⟨old, hold, hs, by simp⟩))
  | broadcast k u =>
    simp only [handle, Prod.mk.injEq] at h
    obtain ⟨rfl, -, -⟩ := h
    simp only [onBroadcast, Std.ExtTreeMap.getElem?_map, Option.map_eq_some_iff] at hp
    obtain ⟨old, hold, rfl⟩ := hp
    exact .inr (.inr (.inr ⟨old, hold, a.keepUp_status old, by simp⟩))
  | sendInput dest events =>
    simp only [handle, Prod.mk.injEq] at h
    obtain ⟨rfl, -, -⟩ := h
    simp only [onSendInput, Std.ExtTreeMap.getElem?_modify] at hp
    split at hp
    · rename_i hid
      rw [compare_eq_iff_eq] at hid
      subst hid
      obtain ⟨old, hold, rfl⟩ := Option.map_eq_some_iff.mp hp
      exact .inr (.inr (.inr ⟨old, hold, a.keepUp_status old, by simp⟩))
    · exact .inr (.inr (.inr ⟨slot, hp, rfl, by simp⟩))
  | announceCursorOwner machine =>
    simp only [handle, Prod.mk.injEq] at h
    obtain ⟨rfl, -, -⟩ := h
    exact .inr (.inr (.inr ⟨slot, hp, rfl, by simp⟩))
  | rescan =>
    simp only [handle, Prod.mk.injEq] at h
    obtain ⟨rfl, -, -⟩ := h
    simp only [onRescan, Std.ExtTreeMap.getElem?_map, Option.map_eq_some_iff] at hp
    obtain ⟨old, hold, rfl⟩ := hp
    refine .inr (.inr (.inr ⟨old, hold, ?_, by simp⟩))
    split <;> rfl
  | tick =>
    simp only [handle, Prod.mk.injEq] at h
    obtain ⟨rfl, -, rfl⟩ := h
    obtain hdial | ⟨old, hold, hs⟩ := onTick_status hp
    · exact .inr (.inr (.inl hdial))
    · exact .inr (.inr (.inr ⟨old, hold, hs, by simp⟩))

/-! Queues: which of them the peers are given, and what is put into them. -/

theorem keepUp_outbound {a : Actor} {slot : PeerSlot} {q : ℕ}
    (h : (a.keepUp slot).outbound = some q) :
    slot.outbound = some q ∧ (a.queues q).hasRoom = true := by
  unfold keepUp at h
  split at h
  · rename_i hroom
    exact ⟨h, by simpa [hasRoom, h] using hroom⟩
  · cases h

theorem placed_trySend (q : Queue) (m : Message) : q.placed ⊆ (q.trySend m).placed := by
  unfold Queue.trySend
  split
  · exact List.subset_append_left _ _
  · exact List.Subset.refl _

theorem placed_trySend_all (a : Actor) (pick : MachineId → Bool) (m : Message) (q : ℕ) :
    (a.queues q).placed ⊆ (a.trySend pick m q).placed := by
  unfold trySend
  split
  · exact placed_trySend _ _
  · exact List.Subset.refl _

theorem onSession_outbound {a : Actor} {now : ℕ} {o : SessionOutcome} {p : MachineId}
    {slot : PeerSlot} {q : ℕ} (hp : (a.onSession now o).1.peers[p]? = some slot)
    (hq : slot.outbound = some q) :
    (∃ old, a.peers[p]? = some old ∧ old.outbound = some q) ∨
      ∃ name, o = .established p name q := by
  cases o with
  | established id name n =>
    simp only [onSession, Std.ExtTreeMap.getElem?_insert] at hp
    split at hp
    · rename_i hid
      rw [compare_eq_iff_eq] at hid
      obtain rfl := Option.some.inj hp
      obtain rfl := Option.some.inj hq
      exact .inr ⟨name, by rw [hid]⟩
    · exact .inl ⟨slot, hp, hq⟩
  | closed id reason | differentWorkspaces id name key theirs size =>
    simp only [onSession] at hp
    cases hold : a.peers[id]? with
    | none =>
      simp only [hold] at hp
      exact .inl ⟨slot, hp, hq⟩
    | some old =>
      simp only [hold, Std.ExtTreeMap.getElem?_insert] at hp
      split at hp
      · obtain rfl := Option.some.inj hp
        cases hq
      · exact .inl ⟨slot, hp, hq⟩
  | rejected id key addr => exact .inl ⟨slot, hp, hq⟩
  | workspaceChanged => exact .inl ⟨slot, hp, hq⟩

theorem onSighting_outbound {a : Actor} {authorised : Bool} {now : ℕ} {s : Sighting} {p : MachineId}
    {slot : PeerSlot} {q : ℕ} (hp : (a.onSighting authorised now s).1.peers[p]? = some slot)
    (hq : slot.outbound = some q) : ∃ old, a.peers[p]? = some old ∧ old.outbound = some q := by
  unfold onSighting at hp
  split_ifs at hp
  · exact ⟨slot, hp, hq⟩
  · exact ⟨slot, hp, hq⟩
  all_goals
    simp only [Std.ExtTreeMap.getElem?_insert] at hp
    split at hp
    · rename_i hid
      rw [compare_eq_iff_eq] at hid
      subst hid
      obtain rfl := Option.some.inj hp
      cases hold : a.peers[s.machineId]? with
      | none =>
        simp only [hold, Option.getD_none] at hq
        split at hq <;> cases hq
      | some old =>
        refine ⟨old, rfl, ?_⟩
        simp only [hold, Option.getD_some] at hq
        split at hq <;> exact hq
    · exact ⟨slot, hp, hq⟩

theorem handle_outbound {a b : Actor} {agent : State} {now : ℕ} {m : Internal}
    {events : List NetEvent} {dials : List (MachineId × String)}
    (h : a.handle agent now m = (b, events, dials)) {p : MachineId} {slot : PeerSlot} {q : ℕ}
    (hp : b.peers[p]? = some slot) (hq : slot.outbound = some q) :
    (∃ old, a.peers[p]? = some old ∧ old.outbound = some q) ∨
      ∃ i name, m = .session i (.established p name q) := by
  cases m with
  | session i o =>
    simp only [handle, Prod.mk.injEq] at h
    obtain ⟨rfl, -, -⟩ := h
    obtain hold | ⟨name, rfl⟩ := onSession_outbound hp hq
    · exact .inl hold
    · exact .inr ⟨i, name, rfl⟩
  | sighting s =>
    simp only [handle, Prod.mk.injEq] at h
    obtain ⟨rfl, -, -⟩ := h
    exact .inl (onSighting_outbound hp hq)
  | broadcast k u =>
    simp only [handle, Prod.mk.injEq] at h
    obtain ⟨rfl, -, -⟩ := h
    simp only [onBroadcast, Std.ExtTreeMap.getElem?_map, Option.map_eq_some_iff] at hp
    obtain ⟨old, hold, rfl⟩ := hp
    exact .inl ⟨old, hold, (keepUp_outbound hq).1⟩
  | sendInput dest events =>
    simp only [handle, Prod.mk.injEq] at h
    obtain ⟨rfl, -, -⟩ := h
    simp only [onSendInput, Std.ExtTreeMap.getElem?_modify] at hp
    split at hp
    · rename_i hid
      rw [compare_eq_iff_eq] at hid
      subst hid
      obtain ⟨old, hold, rfl⟩ := Option.map_eq_some_iff.mp hp
      exact .inl ⟨old, hold, (keepUp_outbound hq).1⟩
    · exact .inl ⟨slot, hp, hq⟩
  | announceCursorOwner machine =>
    simp only [handle, Prod.mk.injEq] at h
    obtain ⟨rfl, -, -⟩ := h
    exact .inl ⟨slot, hp, hq⟩
  | rescan =>
    simp only [handle, Prod.mk.injEq] at h
    obtain ⟨rfl, -, -⟩ := h
    simp only [onRescan, Std.ExtTreeMap.getElem?_map, Option.map_eq_some_iff] at hp
    obtain ⟨old, hold, rfl⟩ := hp
    refine .inl ⟨old, hold, ?_⟩
    split at hq <;> exact hq
  | tick =>
    simp only [handle, Prod.mk.injEq] at h
    obtain ⟨rfl, -, -⟩ := h
    simp only [onTick, Std.ExtTreeMap.getElem?_map, Option.map_eq_some_iff] at hp
    obtain ⟨old, hold, rfl⟩ := hp
    refine .inl ⟨old, hold, ?_⟩
    split_ifs at hq <;> exact hq

theorem handle_placed {a b : Actor} {agent : State} {now : ℕ} {m : Internal}
    {events : List NetEvent} {dials : List (MachineId × String)}
    (h : a.handle agent now m = (b, events, dials)) (q : ℕ) :
    (a.queues q).placed ⊆ (b.queues q).placed := by
  cases m with
  | broadcast k u | sendInput dest events | announceCursorOwner machine =>
    simp only [handle, Prod.mk.injEq] at h
    obtain ⟨rfl, -, -⟩ := h
    exact a.placed_trySend_all _ _ q
  | session i o =>
    simp only [handle, Prod.mk.injEq] at h
    obtain ⟨rfl, -, -⟩ := h
    cases o <;> exact List.Subset.refl _
  | sighting s =>
    simp only [handle, Prod.mk.injEq] at h
    obtain ⟨rfl, -, -⟩ := h
    unfold onSighting
    split_ifs <;> exact List.Subset.refl _
  | rescan | tick =>
    simp only [handle, Prod.mk.injEq] at h
    obtain ⟨rfl, -, -⟩ := h
    exact List.Subset.refl _

theorem onBroadcast_queue {a : Actor} {u : WorkspaceUpdate} {p : MachineId} {slot : PeerSlot}
    {q : ℕ} (hp : (a.onBroadcast u).peers[p]? = some slot) (hq : slot.outbound = some q) :
    (a.onBroadcast u).queues q = { a.queues q with
      items := (a.queues q).items ++ [.update u]
      placed := (a.queues q).placed ++ [.update u] } := by
  simp only [onBroadcast, Std.ExtTreeMap.getElem?_map, Option.map_eq_some_iff] at hp
  obtain ⟨old, hold, rfl⟩ := hp
  obtain ⟨hout, hroom⟩ := keepUp_outbound hq
  have hany : (a.peers.toList.any fun p => true && p.2.outbound = some q) = true := by
    rw [List.any_eq_true]
    exact ⟨(p, old), Std.ExtTreeMap.mem_toList_iff_getElem?_eq_some.mpr hold, by simp [hout]⟩
  simp only [onBroadcast, trySend, hany, if_true, Queue.trySend, hroom]

theorem onBroadcast_placed {a : Actor} {u : WorkspaceUpdate} {p : MachineId} {slot : PeerSlot}
    {q : ℕ} (hp : (a.onBroadcast u).peers[p]? = some slot) (hq : slot.outbound = some q) :
    .update u ∈ ((a.onBroadcast u).queues q).placed := by
  rw [onBroadcast_queue hp hq]
  exact List.mem_append_right _ (List.mem_singleton.mpr rfl)

end Actor
end InputShare

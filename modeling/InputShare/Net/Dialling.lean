import InputShare.Lib.Retries
import InputShare.Lib.Runs
import InputShare.Net.Actor

/-! Whom the networking actor dials, where, and how often, whatever arrives on its inbox. -/
namespace InputShare.Dialling
open Runs Retries

/-- What a message came to, of all that a dial may depend on. -/
inductive Note where
  /-- An announcement with a key that the agent accepts. -/
  | sighted (id : MachineId) (addr : String)
  /-- An accepted announcement after a silence, or with another workspace: the backoff is wiped. -/
  | renewed (id : MachineId)
  | established (id : MachineId)
  | closed (id : MachineId)
  | parted (id : MachineId)
  | rescanned
  | dialled (id : MachineId) (addr : String)
deriving DecidableEq, Repr

structure World where
  actor : Actor
  now : ℕ
  /-- Everything that was noted and when, the newest first. -/
  log : List (ℕ × Note)

inductive Action where
  /-- The actor handles a message; the agent is what it is at that moment. -/
  | handle (m : Internal) (agent : State)
  | elapse (ms : ℕ)

/-- The machine was silent for long, or has announced another workspace before. -/
def renews (a : Actor) (now : ℕ) (s : Sighting) : Bool :=
  match a.peers[s.machineId]? with
  | some slot => !slot.fresh now || slot.lastWorkspace.any (· ≠ s.workspaceId)
  | none => true

def notes (a : Actor) (agent : State) (now : ℕ) (m : Internal) : List Note :=
  match m with
  | .sighting s =>
    if s.machineId = a.me ∨ agent.authorize s.machineId s.identityKey = false then []
    else if renews a now s then [.renewed s.machineId, .sighted s.machineId s.addr]
    else [.sighted s.machineId s.addr]
  | .session _ (.established id ..) => [.established id]
  | .session _ (.closed id _) => [.closed id]
  | .session _ (.differentWorkspaces id ..) => [.parted id]
  | .rescan => [.rescanned]
  | _ => []

def dialNotes (dials : List (MachineId × String)) : List Note := dials.map fun d => .dialled d.1 d.2

def World.note (w : World) (actor : Actor) (ns : List Note) : World :=
  { w with actor := actor, log := ns.map (w.now, ·) ++ w.log }

def step (w : World) : Action → Option World
  | .handle m agent =>
    let (actor, _, dials) := w.actor.handle agent w.now m
    some (w.note actor (dialNotes dials ++ notes w.actor agent w.now m))
  | .elapse ms => some { w with now := w.now + ms }

def start (me : MachineId) (now : ℕ) : World := ⟨⟨me, ∅, fun _ => .new⟩, now, []⟩

def mark (id : MachineId) : Note → Mark
  | .dialled i _ => if i = id then .begun else .other
  | .established i => if i = id then .settled else .other
  | .closed i => if i = id then .failed else .other
  | .parted i => if i = id then .refused 4 else .other
  | .renewed i => if i = id then .wiped else .other
  | .rescanned => .wiped
  | .sighted .. => .other

def tried (id : MachineId) (log : List (ℕ × Note)) : History :=
  log.map fun e => (e.1, mark id e.2)

def addrOf (id : MachineId) : Note → Option String
  | .sighted i addr => if i = id then some addr else none
  | _ => none

def contacts (id : MachineId) : Note → Bool
  | .sighted i _ | .established i => i = id
  | _ => false

def lastAddr (id : MachineId) (log : List (ℕ × Note)) : Option String :=
  log.findSome? fun e => addrOf id e.2

def lastContact (id : MachineId) (log : List (ℕ × Note)) : Option ℕ :=
  (log.find? fun e => contacts id e.2).map Prod.fst

/-- The actor takes a dial, or the session it led to, to have come to an end. -/
def ends (id : MachineId) : Note → Bool
  | .closed i | .parted i => i = id
  | _ => false

/-- When a dial of the machine, or a session with it, has come to an end last. -/
def lastEnd (id : MachineId) (log : List (ℕ × Note)) : Option ℕ :=
  (log.find? fun e => ends id e.2).map Prod.fst

/-- Of two machines only the one with the lower id dials, and only a machine that was heard from
recently, where it was announced last with a key that was accepted then. -/
def Pointed (me : MachineId) (log : List (ℕ × Note)) : Prop :=
  ∀ t id addr older, (t, .dialled id addr) :: older <:+ log →
    me < id ∧ lastAddr id older = some addr ∧
      ∃ c, lastContact id older = some c ∧ t < c + PeerSlot.hintTtl

/-- What the actor knows of a peer is what the log says, and it waits at least as long. -/
structure Tracked (id : MachineId) (log : List (ℕ × Note)) (slot : PeerSlot) : Prop where
  addr : ∀ a ∈ slot.addr, lastAddr id log = some a
  seen : slot.lastSeen = lastContact id log
  due : notBefore Actor.backoff (tried id log) ≤ slot.nextAttempt
  tries : min (tries (tried id log)) 5 ≤ slot.attempts
  busy : busy (tried id log) = true → slot.status ≠ .offline

theorem backoff_mono : Monotone Actor.backoff := by
  intro m n h
  refine min_le_min_right _ (Nat.mul_le_mul_left _ (Nat.pow_le_pow_right (by omega) ?_))
  exact min_le_min_right _ h

theorem backoff_min (n : ℕ) : Actor.backoff (min n 5) = Actor.backoff n := by
  simp [Actor.backoff]

theorem backoff_le {m n : ℕ} (h : min m 5 ≤ n) : Actor.backoff m ≤ Actor.backoff n := by
  rw [← backoff_min]
  exact backoff_mono h

/-! What notes that are not about a machine leave as it was. -/

section Aside
variable {id : MachineId} {log new : List (ℕ × Note)} {slot : PeerSlot}

theorem tried_append : tried id (new ++ log) = tried id new ++ tried id log := List.map_append

theorem mem_tried {e : ℕ × Mark} (h : e ∈ tried id log) : ∃ n ∈ log, e = (n.1, mark id n.2) := by
  obtain ⟨n, hn, rfl⟩ := List.mem_map.mp h
  exact ⟨n, hn, rfl⟩

theorem lastAddr_append (h : ∀ e ∈ new, addrOf id e.2 = none) :
    lastAddr id (new ++ log) = lastAddr id log := by
  rw [lastAddr, List.findSome?_append, List.findSome?_eq_none_iff.mpr h, Option.none_or]
  rfl

theorem lastContact_append (h : ∀ e ∈ new, contacts id e.2 = false) :
    lastContact id (new ++ log) = lastContact id log := by
  have hnone : new.find? (fun e => contacts id e.2) = none := by
    rw [List.find?_eq_none]
    intro e he
    simp [h e he]
  rw [lastContact, List.find?_append, hnone, Option.none_or]
  rfl

theorem Tracked.aside (h : Tracked id log slot) (hmark : ∀ e ∈ new, mark id e.2 = .other)
    (haddr : ∀ e ∈ new, addrOf id e.2 = none) (hcontact : ∀ e ∈ new, contacts id e.2 = false) :
    Tracked id (new ++ log) slot := by
  have hother : ∀ e ∈ tried id new, e.2 = .other := by
    intro e he
    obtain ⟨n, hn, rfl⟩ := mem_tried he
    exact hmark n hn
  have heither : ∀ e ∈ tried id new, e.2 = .begun ∨ e.2 = .other := fun e he => .inr (hother e he)
  refine ⟨?_, ?_, ?_, ?_, ?_⟩
  · rw [lastAddr_append haddr]
    exact h.addr
  · rw [lastContact_append hcontact]
    exact h.seen
  · rw [tried_append, notBefore_append heither]
    exact h.due
  · rw [tried_append, tries_append heither]
    exact h.tries
  · rw [tried_append, busy_append hother]
    exact h.busy

theorem Tracked.congr {s : PeerSlot} (h : Tracked id log slot) (haddr : s.addr = slot.addr)
    (hseen : s.lastSeen = slot.lastSeen) (hdue : s.nextAttempt = slot.nextAttempt)
    (htries : s.attempts = slot.attempts) (hstatus : s.status = slot.status) :
    Tracked id log s :=
  ⟨by rw [haddr]; exact h.addr, by rw [hseen]; exact h.seen, by rw [hdue]; exact h.due,
    by rw [htries]; exact h.tries, by rw [hstatus]; exact h.busy⟩

theorem keepUp_tracked {a : Actor} (h : Tracked id log slot) : Tracked id log (a.keepUp slot) := by
  unfold Actor.keepUp
  split
  · exact h
  · exact h.congr rfl rfl rfl rfl rfl

end Aside

/-! What handling a message makes of what is tracked. -/

/-- The slots are tracked, and nothing is going on with a machine that has none. -/
structure Slots (a : Actor) (log : List (ℕ × Note)) : Prop where
  tracked : ∀ id slot, a.peers[id]? = some slot → Tracked id log slot
  absent : ∀ id, a.peers[id]? = none → busy (tried id log) = false

section Handled
variable {a : Actor} {log : List (ℕ × Note)} {now : ℕ}

/-- Of a machine that none of the notes is about. -/
structure Foreign (id : MachineId) (n : Note) : Prop where
  mark : mark id n = .other
  addr : addrOf id n = none
  contact : contacts id n = false

theorem Tracked.foreign {id : MachineId} {slot : PeerSlot} {ns : List Note}
    (h : Tracked id log slot) (hns : ∀ n ∈ ns, Foreign id n) :
    Tracked id (ns.map (now, ·) ++ log) slot := by
  refine h.aside (fun e he => ?_) (fun e he => ?_) fun e he => ?_
  all_goals
    obtain ⟨n, hn, rfl⟩ := List.mem_map.mp he
  · exact (hns n hn).mark
  · exact (hns n hn).addr
  · exact (hns n hn).contact

theorem busy_foreign {id : MachineId} {ns : List Note} (hns : ∀ n ∈ ns, Foreign id n) :
    busy (tried id (ns.map (now, ·) ++ log)) = busy (tried id log) := by
  rw [tried_append]
  refine busy_append fun e he => ?_
  obtain ⟨x, hx, rfl⟩ := mem_tried he
  obtain ⟨n, hn, rfl⟩ := List.mem_map.mp hx
  exact (hns n hn).mark

theorem Slots.insert (h : Slots a log) {p : MachineId} {slot : PeerSlot} {ns : List Note}
    (hslot : Tracked p (ns.map (now, ·) ++ log) slot)
    (hns : ∀ id, p ≠ id → ∀ n ∈ ns, Foreign id n) (queues : ℕ → Queue) :
    Slots ⟨a.me, a.peers.insert p slot, queues⟩ (ns.map (now, ·) ++ log) := by
  constructor
  · intro id s hs
    simp only [Std.ExtTreeMap.getElem?_insert, compare_eq_iff_eq] at hs
    split at hs
    · rename_i hid
      subst hid
      obtain rfl := Option.some.inj hs
      exact hslot
    · rename_i hid
      exact (h.tracked id s hs).foreign (hns id hid)
  · intro id hs
    simp only [Std.ExtTreeMap.getElem?_insert, compare_eq_iff_eq] at hs
    split at hs
    · cases hs
    · rename_i hid
      rw [busy_foreign (hns id hid)]
      exact h.absent id hs

theorem Slots.unknown (h : Slots a log) {p : MachineId} {ns : List Note}
    (hp : a.peers[p]? = none) (hns : ∀ id, p ≠ id → ∀ n ∈ ns, Foreign id n)
    (hbusy : busy (tried p (ns.map (now, ·) ++ log)) = false) :
    Slots a (ns.map (now, ·) ++ log) := by
  constructor
  · intro id slot hs
    refine (h.tracked id slot hs).foreign (hns id fun hid => ?_)
    rw [← hid, hp] at hs
    cases hs
  · intro id hs
    obtain rfl | hid := eq_or_ne p id
    · exact hbusy
    · rw [busy_foreign (hns id hid)]
      exact h.absent id hs

theorem Slots.known (h : Slots a log) (id : MachineId) (name : String) (now : ℕ) :
    let slot := (a.peers[id]?).getD (.new name now)
    busy (tried id log) = true → slot.status ≠ .offline := by
  intro slot hbusy
  cases hold : a.peers[id]? with
  | none => simp [h.absent id hold] at hbusy
  | some old =>
    simp only [slot, hold, Option.getD_some]
    exact (h.tracked id old hold).busy hbusy

def heard (slot : PeerSlot) (now : ℕ) (s : Sighting) (renewed : Bool) : PeerSlot :=
  { slot with
    displayName := s.displayName
    addr := some s.addr
    lastWorkspace := some s.workspaceId
    lastSeen := some now
    attempts := if renewed then 0 else slot.attempts
    nextAttempt := if renewed then now else slot.nextAttempt }

theorem onSighting_peers {s : Sighting} (hme : s.machineId ≠ a.me) :
    let slot := (a.peers[s.machineId]?).getD (.new s.displayName now)
    (a.onSighting true now s).1 =
      { a with peers := a.peers.insert s.machineId (heard slot now s (renews a now s)) } := by
  intro slot
  have hrenews : renews a now s =
      (!slot.fresh now || slot.lastWorkspace.any (· ≠ s.workspaceId)) := by
    simp only [slot]
    unfold renews
    cases a.peers[s.machineId]? with
    | none => rfl
    | some old => rfl
  rw [hrenews]
  simp only [Actor.onSighting, if_neg hme, Bool.not_true, Bool.false_eq_true, if_false]
  congr 2
  unfold heard
  split <;> simp only [slot]

theorem Slots.sighting (h : Slots a log) (agent : State) (s : Sighting) :
    Slots (a.onSighting (agent.authorize s.machineId s.identityKey) now s).1
      ((notes a agent now (.sighting s)).map (now, ·) ++ log) := by
  by_cases hme : s.machineId = a.me
  · simpa [notes, hme, Actor.onSighting] using h
  cases hauth : agent.authorize s.machineId s.identityKey with
  | false => simpa [notes, hme, hauth, Actor.onSighting] using h
  | true =>
    rw [onSighting_peers hme]
    have hknown := h.known s.machineId s.displayName now
    cases hr : renews a now s with
    | true =>
      have hnotes : notes a agent now (.sighting s) =
          [.renewed s.machineId, .sighted s.machineId s.addr] := by simp [notes, hme, hauth, hr]
      rw [hnotes]
      refine h.insert ⟨?_, ?_, ?_, ?_, ?_⟩ (fun id hid n hn => ?_) _
      · simp [heard, lastAddr, addrOf]
      · simp [heard, lastContact, contacts]
      · simp [tried, mark, notBefore]
      · simp [tried, mark, tries]
      · simpa [heard, tried, mark, busy] using hknown
      · simp only [List.mem_cons, List.not_mem_nil, or_false] at hn
        obtain rfl | rfl := hn
        · exact ⟨by simp [mark, hid], rfl, rfl⟩
        · exact ⟨rfl, by simp [addrOf, hid], by simp [contacts, hid]⟩
    | false =>
      obtain ⟨old, hold⟩ : ∃ old, a.peers[s.machineId]? = some old := by
        cases hold : a.peers[s.machineId]? with
        | none => simp [renews, hold] at hr
        | some old => exact ⟨old, rfl⟩
      have ht := h.tracked s.machineId old hold
      have hnotes : notes a agent now (.sighting s) = [.sighted s.machineId s.addr] := by
        simp [notes, hme, hauth, hr]
      rw [hnotes, hold, Option.getD_some]
      refine h.insert ⟨?_, ?_, ?_, ?_, ?_⟩ (fun id hid n hn => ?_) _
      · simp [heard, lastAddr, addrOf]
      · simp [heard, lastContact, contacts]
      · simpa [heard, tried, mark, notBefore] using ht.due
      · simpa [heard, tried, mark, tries] using ht.tries
      · simpa [heard, tried, mark, busy] using ht.busy
      · obtain rfl := List.mem_singleton.mp hn
        exact ⟨rfl, by simp [addrOf, hid], by simp [contacts, hid]⟩

theorem Slots.ended (h : Slots a log) {p : MachineId} {n : Note} {f : PeerSlot → PeerSlot}
    (hn : ∀ id, p ≠ id → Foreign id n) (hbusy : busy ((now, mark p n) :: tried p log) = false)
    (hf : ∀ slot, Tracked p log slot → Tracked p ((now, n) :: log) (f slot)) :
    let peers := match a.peers[p]? with
      | some slot => a.peers.insert p (f slot)
      | none => a.peers
    Slots { a with peers := peers } ((now, n) :: log) := by
  have hns : ∀ id, p ≠ id → ∀ x ∈ [n], Foreign id x := by
    intro id hid x hx
    obtain rfl := List.mem_singleton.mp hx
    exact hn id hid
  cases hold : a.peers[p]? with
  | none => exact h.unknown hold hns hbusy
  | some old => exact h.insert (hf old (h.tracked p old hold)) hns _

theorem Slots.session (h : Slots a log) (agent : State) (i : ℕ) (o : SessionOutcome) :
    Slots (a.onSession now o).1 ((notes a agent now (.session i o)).map (now, ·) ++ log) := by
  cases o with
  | established id name n =>
    have hforeign : ∀ i, id ≠ i → ∀ n ∈ [Note.established id], Foreign i n := by
      intro i hid n hn
      obtain rfl := List.mem_singleton.mp hn
      exact ⟨by simp [mark, hid], rfl, by simp [contacts, hid]⟩
    refine h.insert ⟨?_, ?_, ?_, ?_, ?_⟩ hforeign _
    · intro addr haddr
      cases hold : a.peers[id]? with
      | none => simp [hold, PeerSlot.new] at haddr
      | some old =>
        rw [lastAddr_append (by simp [addrOf])]
        exact (h.tracked id old hold).addr addr (by simpa [hold] using haddr)
    · simp [lastContact, contacts]
    · simp [tried, mark, notBefore]
    · simp [tried, mark, tries]
    · simp
  | closed id reason =>
    refine h.ended (fun i hid => ⟨by simp [mark, hid], rfl, rfl⟩) (by simp [mark, busy])
      fun slot ht => ⟨ht.addr, ht.seen, ?_, ?_, ?_⟩
    · have htries := ht.tries
      simp only [tried, List.map_cons, mark, if_true, notBefore]
      refine Nat.add_le_add_left (backoff_le ?_) now
      change min (tries (tried id log) + 1) 5 ≤ _
      omega
    · have htries := ht.tries
      simp only [tried, List.map_cons, mark, if_true, tries]
      change min (tries (tried id log) + 1) 5 ≤ _
      omega
    · simp [tried, mark, busy]
  | differentWorkspaces id name key theirs size =>
    refine h.ended (fun i hid => ⟨by simp [mark, hid], rfl, rfl⟩) (by simp [mark, busy])
      fun slot ht => ⟨ht.addr, ht.seen, ?_, ?_, ?_⟩
    · simp only [tried, List.map_cons, mark, if_true, notBefore]
      exact Nat.add_le_add_left (min_le_right _ _) now
    · have htries := ht.tries
      simp only [tried, List.map_cons, mark, if_true, tries]
      change min (max (tries (tried id log)) 5) 5 ≤ _
      omega
    · simp [tried, mark, busy]
  | rejected id key addr => exact h
  | workspaceChanged => exact h

theorem Slots.broadcast (h : Slots a log) (u : WorkspaceUpdate) : Slots (a.onBroadcast u) log := by
  constructor
  · intro id slot hs
    simp only [Actor.onBroadcast, Std.ExtTreeMap.getElem?_map, Option.map_eq_some_iff] at hs
    obtain ⟨old, hold, rfl⟩ := hs
    exact keepUp_tracked (h.tracked id old hold)
  · intro id hs
    simp only [Actor.onBroadcast, Std.ExtTreeMap.getElem?_map, Option.map_eq_none_iff] at hs
    exact h.absent id hs

theorem Slots.sendInput (h : Slots a log) (dest : MachineId) (events : List InputEvent) :
    Slots (a.onSendInput dest events) log := by
  constructor
  · intro id slot hs
    simp only [Actor.onSendInput, Std.ExtTreeMap.getElem?_modify] at hs
    split at hs
    · rename_i hid
      obtain ⟨old, hold, rfl⟩ := Option.map_eq_some_iff.mp hs
      rw [compare_eq_iff_eq] at hid
      subst hid
      exact keepUp_tracked (h.tracked dest old hold)
    · exact h.tracked id slot hs
  · intro id hs
    simp only [Actor.onSendInput, Std.ExtTreeMap.getElem?_modify] at hs
    split at hs
    · rename_i hid
      rw [compare_eq_iff_eq] at hid
      subst hid
      exact h.absent dest (Option.map_eq_none_iff.mp hs)
    · exact h.absent id hs

/-- A rescan wipes the backoff of the peers that are offline; of no other one does it matter. -/
theorem Slots.rescan (h : Slots a log) : Slots (a.onRescan now) ((now, .rescanned) :: log) := by
  constructor
  · intro id slot hs
    simp only [Actor.onRescan, Std.ExtTreeMap.getElem?_map, Option.map_eq_some_iff] at hs
    obtain ⟨old, hold, rfl⟩ := hs
    have ht := h.tracked id old hold
    refine ⟨?_, ?_, by simp [tried, mark, notBefore], by simp [tried, mark, tries], ?_⟩
    all_goals split
    · exact ht.addr
    · exact ht.addr
    · exact ht.seen
    · exact ht.seen
    · exact ht.busy
    · exact ht.busy
  · intro id hs
    simp only [Actor.onRescan, Std.ExtTreeMap.getElem?_map, Option.map_eq_none_iff] at hs
    exact h.absent id hs

/-- What makes a dial a good one, before it is made. -/
structure Ready (a : Actor) (log : List (ℕ × Note)) (now : ℕ) (d : MachineId × String) : Prop where
  lower : a.me < d.1
  addr : lastAddr d.1 log = some d.2
  seen : ∃ c, lastContact d.1 log = some c ∧ now < c + PeerSlot.hintTtl
  idle : busy (tried d.1 log) = false
  due : notBefore Actor.backoff (tried d.1 log) ≤ now

theorem due_iff {id : MachineId} {slot : PeerSlot} {addr : String} :
    a.due now id slot = some addr ↔ (slot.status = .offline ∧ a.me < id ∧ slot.fresh now = true ∧
      slot.nextAttempt ≤ now) ∧ slot.addr = some addr := by
  unfold Actor.due
  split_ifs with h
  · simp [h]
  · simp [h]

theorem Slots.ready (h : Slots a log) {d : MachineId × String} (hd : d ∈ (a.onTick now).2) :
    Ready a log now d := by
  obtain ⟨⟨id, slot⟩, hmem, hdue⟩ := List.mem_filterMap.mp hd
  obtain ⟨addr, haddr, rfl⟩ := Option.map_eq_some_iff.mp hdue
  have ht := h.tracked id slot (Std.ExtTreeMap.mem_toList_iff_getElem?_eq_some.mp hmem)
  obtain ⟨⟨hoff, hlower, hfresh, hnext⟩, haddr⟩ := due_iff.mp haddr
  refine ⟨hlower, ht.addr addr haddr, ?_, ?_, le_trans ht.due hnext⟩
  · cases hseen : slot.lastSeen with
    | none => simp [PeerSlot.fresh, hseen] at hfresh
    | some c =>
      refine ⟨c, ht.seen ▸ hseen, ?_⟩
      simp only [PeerSlot.fresh, hseen, decide_eq_true_eq] at hfresh
      simp only [PeerSlot.hintTtl] at hfresh ⊢
      omega
  · by_contra hbusy
    exact ht.busy (by simpa using hbusy) hoff

theorem nodup_dials (a : Actor) (now : ℕ) : ((a.onTick now).2.map Prod.fst).Nodup := by
  refine List.pairwise_map.mpr (List.Pairwise.filterMap _ ?_ Std.ExtTreeMap.distinct_keys_toList)
  rintro ⟨p, slot⟩ ⟨q, slot'⟩ hne d hd d' hd'
  obtain ⟨addr, -, rfl⟩ := Option.map_eq_some_iff.mp hd
  obtain ⟨addr', -, rfl⟩ := Option.map_eq_some_iff.mp hd'
  simpa [compare_eq_iff_eq] using hne

theorem foreign_dialNotes {id : MachineId} {dials : List (MachineId × String)}
    (h : ∀ d ∈ dials, d.1 ≠ id) : ∀ n ∈ dialNotes dials, Foreign id n := by
  intro n hn
  obtain ⟨d, hd, rfl⟩ := List.mem_map.mp hn
  exact ⟨by simp [mark, h d hd], rfl, rfl⟩

theorem mem_dialNotes {dials : List (MachineId × String)} {e : ℕ × Note}
    (he : e ∈ (dialNotes dials).map (now, ·)) : ∃ d ∈ dials, e = (now, .dialled d.1 d.2) := by
  obtain ⟨n, hn, rfl⟩ := List.mem_map.mp he
  obtain ⟨d, hd, rfl⟩ := List.mem_map.mp hn
  exact ⟨d, hd, rfl⟩

theorem Tracked.dialled {id : MachineId} {slot s : PeerSlot} (h : Tracked id log slot)
    (dials : List (MachineId × String)) (haddr : s.addr = slot.addr)
    (hseen : s.lastSeen = slot.lastSeen) (hdue : s.nextAttempt = slot.nextAttempt)
    (htries : s.attempts = slot.attempts) (hstatus : s.status ≠ .offline) :
    Tracked id ((dialNotes dials).map (now, ·) ++ log) s := by
  have hmark : ∀ e ∈ tried id ((dialNotes dials).map (now, ·)), e.2 = .begun ∨ e.2 = .other := by
    intro e he
    obtain ⟨x, hx, rfl⟩ := mem_tried he
    obtain ⟨d, -, rfl⟩ := mem_dialNotes hx
    simp only [mark]
    split
    · exact .inl rfl
    · exact .inr rfl
  refine ⟨?_, ?_, ?_, ?_, fun _ => hstatus⟩
  · rw [lastAddr_append fun e he => ?_, haddr]
    · exact h.addr
    · obtain ⟨d, -, rfl⟩ := mem_dialNotes he
      rfl
  · rw [lastContact_append fun e he => ?_, hseen]
    · exact h.seen
    · obtain ⟨d, -, rfl⟩ := mem_dialNotes he
      rfl
  · rw [tried_append, notBefore_append hmark, hdue]
    exact h.due
  · rw [tried_append, tries_append hmark, htries]
    exact h.tries

theorem Slots.tick (h : Slots a log) :
    Slots (a.onTick now).1 ((dialNotes (a.onTick now).2).map (now, ·) ++ log) := by
  constructor
  · intro id slot hs
    simp only [Actor.onTick, Std.ExtTreeMap.getElem?_map, Option.map_eq_some_iff] at hs
    obtain ⟨old, hold, rfl⟩ := hs
    have ht := h.tracked id old hold
    by_cases hdue : (a.due now id old).isSome = true
    · rw [if_pos hdue]
      exact ht.dialled _ rfl rfl rfl rfl (by simp)
    · have hns : ∀ n ∈ dialNotes (a.onTick now).2, Foreign id n := by
        refine foreign_dialNotes fun d hd => ?_
        rintro rfl
        obtain ⟨⟨id, slot⟩, hmem, hd⟩ := List.mem_filterMap.mp hd
        obtain ⟨addr, haddr, rfl⟩ := Option.map_eq_some_iff.mp hd
        have hsame := Std.ExtTreeMap.mem_toList_iff_getElem?_eq_some.mp hmem
        obtain rfl := Option.some.inj (hold.symm.trans hsame)
        simp [haddr] at hdue
      rw [if_neg hdue]
      split
      · have hforeign : Tracked id ((dialNotes (a.onTick now).2).map (now, ·) ++ log) old :=
          ht.foreign hns
        obtain ⟨-, hseen, hnext, htries, hbusy⟩ := hforeign
        exact ⟨by simp, hseen, hnext, htries, hbusy⟩
      · exact ht.foreign hns
  · intro id hs
    simp only [Actor.onTick, Std.ExtTreeMap.getElem?_map, Option.map_eq_none_iff] at hs
    rw [busy_foreign (foreign_dialNotes fun d hd => ?_)]
    · exact h.absent id hs
    · rintro rfl
      obtain ⟨⟨id, slot⟩, hmem, hd⟩ := List.mem_filterMap.mp hd
      obtain ⟨addr, -, rfl⟩ := Option.map_eq_some_iff.mp hd
      rw [Std.ExtTreeMap.mem_toList_iff_getElem?_eq_some.mp hmem] at hs
      cases hs

end Handled

/-! Whole runs. -/

section Batch
variable {me id : MachineId} {log : List (ℕ × Note)} {now : ℕ} {dials : List (MachineId × String)}

def Silent (ns : List Note) : Prop := ∀ n ∈ ns, ∀ id addr, n ≠ .dialled id addr

theorem Pointed.cons {n : Note} (h : Pointed me log)
    (hn : ∀ id addr, n = .dialled id addr → me < id ∧ lastAddr id log = some addr ∧
      ∃ c, lastContact id log = some c ∧ now < c + PeerSlot.hintTtl) :
    Pointed me ((now, n) :: log) := by
  intro t id addr older hs
  obtain heq | hs := List.suffix_cons_iff.mp hs
  · obtain ⟨hentry, rfl⟩ := List.cons.inj heq
    obtain ⟨rfl, rfl⟩ := Prod.mk.inj hentry
    exact hn id addr rfl
  · exact h t id addr older hs

theorem silent_notes (a : Actor) (agent : State) (now : ℕ) (m : Internal) :
    Silent (notes a agent now m) := by
  intro n hn id addr
  rintro rfl
  cases m with
  | sighting s =>
    simp only [notes] at hn
    split_ifs at hn <;> simp at hn
  | session i o => cases o <;> simp [notes] at hn
  | rescan => simp [notes] at hn
  | broadcast | sendInput | announceCursorOwner | tick => simp [notes] at hn

theorem Pointed.silent {ns : List Note} (h : Pointed me log) (hns : Silent ns) :
    Pointed me (ns.map (now, ·) ++ log) := by
  induction ns with
  | nil => exact h
  | cons n ns ih =>
    refine (ih fun m hm => hns m (List.mem_cons_of_mem _ hm)).cons fun id addr hn => ?_
    exact absurd hn (hns n List.mem_cons_self id addr)

theorem mark_begun {n : Note} (h : mark id n = .begun) : ∃ addr, n = .dialled id addr := by
  cases n with
  | dialled i addr =>
    simp only [mark, ite_eq_left_iff, reduceCtorEq, imp_false, not_not] at h
    exact ⟨addr, by rw [h]⟩
  | established | closed | parted | renewed =>
    simp only [mark] at h
    split at h <;> cases h
  | rescanned | sighted => cases h

theorem mark_settled {n : Note} (h : mark id n = .settled) : n = .established id := by
  cases n with
  | established i =>
    simp only [mark, ite_eq_left_iff, reduceCtorEq, imp_false, not_not] at h
    rw [h]
  | dialled | closed | parted | renewed =>
    simp only [mark] at h
    split at h <;> cases h
  | rescanned | sighted => cases h

theorem mark_wiped {n : Note} (h : mark id n = .wiped) : n = .renewed id ∨ n = .rescanned := by
  cases n with
  | renewed i =>
    simp only [mark, ite_eq_left_iff, reduceCtorEq, imp_false, not_not] at h
    exact .inl (by rw [h])
  | rescanned => exact .inr rfl
  | dialled | closed | parted | established =>
    simp only [mark] at h
    split at h <;> cases h
  | sighted => cases h

theorem mark_failed {n : Note} : mark id n = .failed ↔ n = .closed id := by
  constructor
  · intro h
    cases n with
    | closed i =>
      simp only [mark, ite_eq_left_iff, reduceCtorEq, imp_false, not_not] at h
      rw [h]
    | dialled | parted | established | renewed =>
      simp only [mark] at h
      split at h <;> cases h
    | rescanned | sighted => cases h
  · rintro rfl
    simp [mark]

theorem isEnd_mark (n : Note) : (mark id n).isEnd = ends id n := by
  cases n with
  | closed i | parted i | dialled i addr | established i | renewed i =>
    by_cases hid : i = id <;> simp [mark, ends, Mark.isEnd, hid]
  | rescanned | sighted => rfl

theorem lastEnd_tried (log : List (ℕ × Note)) :
    Retries.lastEnd (tried id log) = lastEnd id log := by
  have hends : (fun e : ℕ × Mark => e.2.isEnd) ∘ (fun e : ℕ × Note => (e.1, mark id e.2)) =
      fun e => ends id e.2 := by
    funext e
    exact isEnd_mark e.2
  rw [Retries.lastEnd, tried, List.find?_map, hends, Option.map_map]
  rfl

theorem paced_silent {ns : List Note} (h : Paced Actor.backoff (tried id log)) (hns : Silent ns) :
    Paced Actor.backoff (tried id (ns.map (now, ·) ++ log)) := by
  induction ns with
  | nil => exact h
  | cons n ns ih =>
    refine (ih fun m hm => hns m (List.mem_cons_of_mem _ hm)).cons fun hm => ?_
    obtain ⟨addr, rfl⟩ := mark_begun hm
    exact absurd rfl (hns _ List.mem_cons_self id addr)

theorem pointed_dials (h : Pointed me log) (hready : ∀ d ∈ dials, me < d.1 ∧
    lastAddr d.1 log = some d.2 ∧ ∃ c, lastContact d.1 log = some c ∧ now < c + PeerSlot.hintTtl) :
    Pointed me ((dialNotes dials).map (now, ·) ++ log) := by
  induction dials with
  | nil => exact h
  | cons d dials ih =>
    refine (ih fun d hd => hready d (List.mem_cons_of_mem _ hd)).cons fun id addr hn => ?_
    obtain ⟨rfl, rfl⟩ := Note.dialled.inj hn
    rw [lastAddr_append fun e he => ?_, lastContact_append fun e he => ?_]
    · exact hready d List.mem_cons_self
    all_goals
      obtain ⟨d', -, rfl⟩ := mem_dialNotes he
      rfl

theorem paced_dials (h : Paced Actor.backoff (tried id log))
    (hready : ∀ d ∈ dials, busy (tried d.1 log) = false ∧
      notBefore Actor.backoff (tried d.1 log) ≤ now)
    (hnodup : (dials.map Prod.fst).Nodup) :
    Paced Actor.backoff (tried id ((dialNotes dials).map (now, ·) ++ log)) := by
  induction dials with
  | nil => exact h
  | cons d dials ih =>
    obtain ⟨hfirst, hrest⟩ := List.nodup_cons.mp hnodup
    refine (ih (fun d hd => hready d (List.mem_cons_of_mem _ hd)) hrest).cons fun hm => ?_
    obtain ⟨addr, hn⟩ := mark_begun hm
    obtain ⟨rfl, rfl⟩ := Note.dialled.inj hn
    -- the other dials are of other machines
    have hother : ∀ e ∈ tried d.1 ((dialNotes dials).map (now, ·)), e.2 = .other := by
      intro e he
      obtain ⟨x, hx, rfl⟩ := mem_tried he
      obtain ⟨d', hd', rfl⟩ := mem_dialNotes hx
      simp only [mark, ite_eq_right_iff, reduceCtorEq, imp_false]
      intro heq
      exact hfirst (heq ▸ List.mem_map_of_mem hd')
    change busy (tried d.1 _) = false ∧ notBefore _ (tried d.1 _) ≤ now
    rw [tried_append, busy_append hother, notBefore_append fun e he => .inr (hother e he)]
    exact hready d List.mem_cons_self

end Batch

structure Inv (w : World) : Prop where
  slots : Slots w.actor w.log
  past : ∀ e ∈ w.log, e.1 ≤ w.now
  ordered : w.log.Pairwise fun a b => b.1 ≤ a.1
  pointed : Pointed w.actor.me w.log
  paced : ∀ id, Paced Actor.backoff (tried id w.log)

theorem handle_me (a : Actor) (agent : State) (now : ℕ) (m : Internal) :
    (a.handle agent now m).1.me = a.me := by
  cases m with
  | sighting s =>
    simp only [Actor.handle, Actor.onSighting]
    split_ifs <;> rfl
  | session i o => cases o <;> rfl
  | broadcast | sendInput | announceCursorOwner | rescan | tick => rfl

theorem Slots.handle {a : Actor} {log : List (ℕ × Note)} {now : ℕ} (h : Slots a log)
    (agent : State) (m : Internal) :
    Slots (a.handle agent now m).1 ((dialNotes (a.handle agent now m).2.2 ++
      notes a agent now m).map (now, ·) ++ log) := by
  cases m with
  | sighting s => exact h.sighting agent s
  | session i o => exact h.session agent i o
  | broadcast k u => exact h.broadcast u
  | sendInput dest events => exact h.sendInput dest events
  | announceCursorOwner machine => exact ⟨h.tracked, h.absent⟩
  | rescan => exact h.rescan
  | tick =>
    simp only [notes, List.append_nil]
    exact h.tick

theorem handle_dials (a : Actor) (agent : State) (now : ℕ) (m : Internal) :
    m = .tick ∨ (a.handle agent now m).2.2 = [] := by
  cases m with
  | tick => exact .inl rfl
  | sighting | session | broadcast | sendInput | announceCursorOwner | rescan => exact .inr rfl

theorem Inv.handle {w : World} (h : Inv w) (agent : State) (m : Internal) :
    Inv (w.note (w.actor.handle agent w.now m).1
      (dialNotes (w.actor.handle agent w.now m).2.2 ++ notes w.actor agent w.now m)) := by
  refine ⟨h.slots.handle agent m, fun e he => ?_, ?_, ?_, fun id => ?_⟩
  · obtain he | he := List.mem_append.mp he
    · obtain ⟨n, -, rfl⟩ := List.mem_map.mp he
      exact le_rfl
    · exact h.past e he
  · refine List.pairwise_append.mpr ⟨?_, h.ordered, fun e he e' he' => ?_⟩
    · exact List.pairwise_map.mpr (List.pairwise_of_forall fun _ _ => le_rfl)
    · obtain ⟨n, -, rfl⟩ := List.mem_map.mp he
      exact h.past e' he'
  · have hready := fun d (hd : d ∈ (w.actor.onTick w.now).2) => h.slots.ready hd
    rw [World.note, handle_me]
    obtain rfl | hnone := handle_dials w.actor agent w.now m
    · simp only [notes, List.append_nil]
      exact pointed_dials h.pointed fun d hd =>
        ⟨(hready d hd).lower, (hready d hd).addr, (hready d hd).seen⟩
    · rw [hnone]
      exact h.pointed.silent (silent_notes w.actor agent w.now m)
  · have hready := fun d (hd : d ∈ (w.actor.onTick w.now).2) => h.slots.ready hd
    rw [World.note]
    obtain rfl | hnone := handle_dials w.actor agent w.now m
    · simp only [notes, List.append_nil]
      exact paced_dials (h.paced id) (fun d hd => ⟨(hready d hd).idle, (hready d hd).due⟩)
        (nodup_dials w.actor w.now)
    · rw [hnone]
      exact paced_silent (h.paced id) (silent_notes w.actor agent w.now m)

theorem Inv.step {w v : World} {act : Action} (h : Inv w) (hs : step w act = some v) : Inv v := by
  cases act with
  | handle m agent =>
    obtain rfl := Option.some.inj hs
    exact h.handle agent m
  | elapse ms =>
    obtain rfl := Option.some.inj hs
    exact ⟨h.slots, fun e he => le_trans (h.past e he) (Nat.le_add_right _ _), h.ordered,
      h.pointed, h.paced⟩

theorem step_me {w v : World} {act : Action} (hs : step w act = some v) :
    v.actor.me = w.actor.me := by
  cases act with
  | handle m agent =>
    obtain rfl := Option.some.inj hs
    exact handle_me w.actor agent w.now m
  | elapse ms =>
    obtain rfl := Option.some.inj hs
    rfl

section Run
variable {me : MachineId} {now : ℕ} {as : List Action} {w : World}

theorem inv_run (h : Run step Any (start me now) as w) : Inv w ∧ w.actor.me = me := by
  refine h.invariant (I := fun w => Inv w ∧ w.actor.me = me)
    (fun w a v hw _ hs => ⟨hw.1.step hs, (step_me hs).trans hw.2⟩) ⟨⟨⟨?_, ?_⟩, ?_, ?_, ?_, ?_⟩, rfl⟩
  · simp [start]
  · simp [start, tried, busy]
  · simp [start]
  · exact .nil
  · intro t id addr older hs
    simp [start] at hs
  · exact fun id => .nil

/-- Whatever arrives and however long anything takes: only machines with a higher id are dialled,
where they announced themselves last with a key that was accepted, and within the time for which
an address is believed. -/
theorem dials_pointed (h : Run step Any (start me now) as w) : Pointed me w.log := by
  obtain ⟨hinv, hme⟩ := inv_run h
  exact hme ▸ hinv.pointed

/-- A machine is dialled again only after the last dial came to an end, by being closed or for a
mismatch of the workspaces, and when at least the shortest wait has passed since; without a success
in between the wait that is due for all the failures there were. -/
theorem dials_paced (h : Run step Any (start me now) as w) {id : MachineId} {t₁ t₂ : ℕ}
    {addr₁ addr₂ : String} {mid older : List (ℕ × Note)}
    (hs : (t₂, .dialled id addr₂) :: (mid ++ (t₁, .dialled id addr₁) :: older) <:+ w.log)
    (hmid : ∀ e ∈ mid, e.2 ≠ .renewed id ∧ e.2 ≠ .rescanned) :
    ∃ c, lastEnd id mid = some c ∧ t₁ ≤ c ∧ c + Actor.backoff 1 ≤ t₂ ∧
      ((∀ e ∈ mid, e.2 ≠ .established id) →
        c + Actor.backoff (max 1 (mid.countP (·.2 = .closed id))) ≤ t₂) := by
  obtain ⟨hinv, -⟩ := inv_run h
  have hordered : Ordered (tried id w.log) := List.pairwise_map.mpr hinv.ordered
  have hsuffix : (t₂, .begun) :: (tried id mid ++ (t₁, .begun) :: tried id older) <:+
      tried id w.log := by
    have := hs.map fun e => (e.1, mark id e.2)
    simpa [tried, mark] using this
  have hkept : ∀ e ∈ tried id mid, e.2 ≠ .wiped := by
    intro e he hm
    obtain ⟨n, hn, rfl⟩ := mem_tried he
    obtain hr | hr := mark_wiped hm
    · exact (hmid n hn).1 hr
    · exact (hmid n hn).2 hr
  have hcount : (tried id mid).countP (·.2 = .failed) = mid.countP (·.2 = .closed id) := by
    rw [tried, List.countP_map]
    exact List.countP_congr fun e _ => by simp [mark_failed]
  obtain ⟨c, hend, hlater, hmin, hall⟩ := (hinv.paced id).gap hordered backoff_mono hsuffix hkept
  refine ⟨c, (lastEnd_tried mid).symm.trans hend, hlater, hmin, fun hsettled => ?_⟩
  rw [← hcount]
  refine hall fun e he hm => ?_
  obtain ⟨n, hn, rfl⟩ := mem_tried he
  exact hsettled n hn (mark_settled hm)

end Run

/-- The laptop announces itself to the studio, with the key it has in the workspace; connecting to
it fails, and is tried again. -/
def redialled : List Action :=
  [.handle (.sighting ⟨2, "Laptop", 12, some 7, [], "10.0.0.2"⟩) (.ofDoc together),
    .handle .tick (.ofDoc together),
    .elapse 500, .handle (.session 0 (.closed 2 (.error .timeout))) (.ofDoc together),
    .elapse 1500, .handle .tick (.ofDoc together),
    .elapse 500, .handle .tick (.ofDoc together)]

theorem dials_pointed_redialled :
    ∃ w, Run step Any (start 1 0) redialled w ∧ Pointed 1 w.log ∧
      (2500, .dialled 2 "10.0.0.2") ∈ w.log := by
  obtain ⟨w, hrun, hw⟩ := run_of_replay step Any (start 1 0) redialled
    (fun w => w.log.head?) (b := some (2500, .dialled 2 "10.0.0.2")) (by decide +kernel)
  exact ⟨w, hrun, dials_pointed hrun, List.mem_of_mem_head? hw⟩

theorem dials_paced_redialled :
    ∃ w, Run step Any (start 1 0) redialled w ∧ 500 + Actor.backoff 1 ≤ 2500 := by
  obtain ⟨w, hrun, hw⟩ := run_of_replay step Any (start 1 0) redialled World.log
    (b := [(2500, .dialled 2 "10.0.0.2"), (500, .closed 2), (0, .dialled 2 "10.0.0.2"),
      (0, .renewed 2), (0, .sighted 2 "10.0.0.2")]) (by decide +kernel)
  have hs : ((2500, .dialled 2 "10.0.0.2") : ℕ × Note) :: ([(500, .closed 2)] ++
      (0, .dialled 2 "10.0.0.2") :: [(0, .renewed 2), (0, .sighted 2 "10.0.0.2")]) <:+ w.log := by
    rw [hw]
    exact List.suffix_refl _
  obtain ⟨c, hend, -, hmin, -⟩ := dials_paced hrun hs (by simp)
  obtain rfl := Option.some.inj hend
  exact ⟨w, hrun, hmin⟩

end InputShare.Dialling

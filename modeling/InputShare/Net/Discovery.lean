import InputShare.Lib.Runs
import InputShare.Net.Actor
import Mathlib.Data.List.Destutter

/-! Finding each other on the local network: what is announced, from which address and to whom, and
how a machine answers one that was given its address by hand. -/
namespace InputShare.Discovery
open Runs

abbrev Ipv4 := BitVec 32

inductive IpAddr where
  | v4 (ip : Ipv4)
  | v6 (ip : BitVec 128)
deriving DecidableEq, Repr

structure SocketAddr where
  ip : IpAddr
  port : ℕ
deriving DecidableEq, Repr

def group : Ipv4 := 0xEFFF2A62

/-- An interface as the system reports it. -/
structure Card where
  name : String
  loopback : Bool
  address : IpAddr
  broadcast : Option Ipv4
deriving DecidableEq, Repr

/-- One usable IPv4 interface on this machine. -/
structure Interface where
  name : String
  address : Ipv4
  broadcast : Option Ipv4
  selfAssigned : Bool
deriving DecidableEq, Repr

def Card.interface (c : Card) : Option Interface :=
  if c.loopback then none
  else match c.address with
    | .v4 ip => some ⟨c.name, ip, c.broadcast, ip >>> 16 = 0xA9FE⟩
    | .v6 _ => none

/-- Every IPv4 interface worth announcing on, each address once. -/
def interfaces (found : List Card) : List Interface :=
  ((found.filterMap Card.interface).mergeSort fun i j => i.address ≤ j.address).destutter
    fun i j => i.address ≠ j.address

def addresses (found : List Card) : List Ipv4 := (interfaces found).map Interface.address

structure Announcement where
  protocol : ℕ
  machineId : MachineId
  identityKey : PubKey
  displayName : String
  workspaceId : Option WorkspaceId
  transportPort : ℕ
  probe : Bool
  invitations : List MachineId
deriving DecidableEq, Repr

def Announcement.isCurrent (a : Announcement) : Bool := a.protocol = protocolVersion

structure Datagram where
  source : Ipv4
  target : SocketAddr
  announcement : Announcement
deriving DecidableEq, Repr

/-- The sockets of the announcing loop, one bound to each address, and the interfaces it knows. -/
structure Announcer where
  senders : List Ipv4
  known : List Interface
deriving DecidableEq, Repr

/-- Binds a sender to every interface that has none and lets itself be bound. -/
def bindSenders (bind : Ipv4 → Bool) (senders : List Ipv4) (on : List Interface) : List Ipv4 :=
  on.foldl (fun senders i =>
    if i.address ∈ senders then senders
    else if bind i.address then senders ++ [i.address] else senders) senders

/-- Rebuilds the senders when the interfaces have changed. -/
def Announcer.refresh (bind : Ipv4 → Bool) (current : List Interface) (a : Announcer) :
    Announcer :=
  if current ≠ a.known then
    { senders := bindSenders bind
        (a.senders.filter fun address => current.any fun i => i.address = address) current
      known := current }
  else a

def sameSubnet (i : Interface) (target : Ipv4) : Bool := i.address >>> 8 = target >>> 8

/-- One datagram to an address, from the interface that shares its subnet, or from all. -/
def sendUnicast (senders : List Ipv4) (on : List Interface) (target : SocketAddr)
    (payload : Announcement) : List Datagram :=
  match target.ip with
  | .v6 _ => []
  | .v4 ip =>
    let all := senders.map fun source => ⟨source, target, payload⟩
    match on.find? fun i => sameSubnet i ip with
    | some i => if i.address ∈ senders then [⟨i.address, target, payload⟩] else all
    | none => all

/-- The copies that leave by one interface: to the group, and to its subnet. -/
def copies (port : ℕ) (payload : Announcement) (i : Interface) : List Datagram :=
  ⟨i.address, ⟨.v4 group, port⟩, payload⟩ ::
    (i.broadcast.toList.map fun b => ⟨i.address, ⟨.v4 b, port⟩, payload⟩)

/-- To the addresses somebody typed in; these ask for a reply. -/
def Announcer.probes (a : Announcer) (manual : List SocketAddr) (announcement : Announcement) :
    List Datagram :=
  manual.flatMap fun target =>
    sendUnicast a.senders a.known target { announcement with probe := true }

/-- One round of the announcing loop, behind the refresh. -/
def Announcer.announce (a : Announcer) (port : ℕ) (manual : List SocketAddr)
    (announcement : Announcement) : List Datagram :=
  ((a.known.filter fun i => i.address ∈ a.senders).flatMap (copies port announcement)) ++
    a.probes manual announcement

def replyToProbe (bind : Ipv4 → Bool) (found : List Card) (port : ℕ) (dest : Ipv4)
    (announcement : Announcement) : List Datagram :=
  sendUnicast (bindSenders bind [] (interfaces found)) (interfaces found) ⟨.v4 dest, port⟩
    announcement

def octets (ip : Ipv4) : List ℕ :=
  [ip.toNat / 2 ^ 24, ip.toNat / 2 ^ 16 % 256, ip.toNat / 2 ^ 8 % 256, ip.toNat % 256]

def addrText (ip : Ipv4) (port : ℕ) : String :=
  ".".intercalate ((octets ip).map toString) ++ ":" ++ toString port

/-- The sighting that the actor makes of an announcement. -/
def Datagram.sighting (d : Datagram) : Sighting where
  machineId := d.announcement.machineId
  displayName := d.announcement.displayName
  identityKey := d.announcement.identityKey
  workspaceId := d.announcement.workspaceId
  invitations := d.announcement.invitations
  addr := addrText d.source d.announcement.transportPort

structure Host where
  identity : Identity
  computerName : String
  transportPort : ℕ
  discoveryPort : ℕ
  agent : State
  actor : Actor
  announcer : Announcer
  manual : List SocketAddr
  /-- What the system finds when asked for the interfaces. -/
  found : List Card
  events : List NetEvent

namespace Host

def displayName (h : Host) : String :=
  match h.agent.machine h.identity.machineId with
  | some record => record.displayName
  | none => h.computerName

def describe (h : Host) : Announcement where
  protocol := protocolVersion
  machineId := h.identity.machineId
  identityKey := h.identity.publicKey
  displayName := h.displayName
  workspaceId := h.agent.doc.map (·.workspaceId)
  transportPort := h.transportPort
  probe := false
  invitations := h.agent.pendingInvitations h.identity.machineId

def tick (h : Host) (bind : Ipv4 → Bool) : Host × List Datagram :=
  let announcer := h.announcer.refresh bind (interfaces h.found)
  ({ h with announcer }, announcer.announce h.discoveryPort h.manual h.describe)

/-- The listener takes in a datagram and the actor handles the sighting. -/
def receive (h : Host) (bind : Ipv4 → Bool) (now : ℕ) (d : Datagram) : Host × List Datagram :=
  if !d.announcement.isCurrent then (h, [])
  else if d.announcement.machineId = h.actor.me then (h, [])
  else
    let reply := if d.announcement.probe then
      replyToProbe bind h.found h.discoveryPort d.source h.describe else []
    let (actor, events) := h.actor.onSighting
      (h.agent.authorize d.announcement.machineId d.announcement.identityKey) now d.sighting
    ({ h with actor, events := h.events ++ events }, reply)

def addManualPeer (h : Host) (addr : SocketAddr) : Host :=
  { h with manual := if addr ∈ h.manual then h.manual else h.manual ++ [addr] }

def forgetManualPeer (h : Host) (addr : SocketAddr) : Host :=
  { h with manual := h.manual.filter (· ≠ addr) }

end Host

/-! What one machine sends. -/

variable {bind : Ipv4 → Bool} {on : List Interface} {senders : List Ipv4} {target : SocketAddr}
  {payload : Announcement} {d : Datagram} {a : Announcer} {found : List Card}

theorem chain_lt {l : List Interface} (hs : l.Pairwise fun i j => i.address ≤ j.address)
    (hc : l.IsChain fun i j => i.address ≠ j.address) :
    l.IsChain fun i j => i.address < j.address := by
  induction l with
  | nil => exact .nil
  | cons i l ih =>
    cases l with
    | nil => exact .singleton i
    | cons j l =>
      obtain ⟨hij, hc⟩ := List.isChain_cons_cons.mp hc
      obtain ⟨hle, hs⟩ := List.pairwise_cons.mp hs
      exact .cons_cons (BitVec.lt_of_le_ne (hle j List.mem_cons_self) hij) (ih hs hc)

theorem nodup_addresses (found : List Card) : (addresses found).Nodup := by
  have hsorted : (interfaces found).Pairwise fun i j => i.address ≤ j.address := by
    refine List.Pairwise.sublist (List.destutter_sublist _ _) ?_
    let le (i j : Interface) : Bool := i.address ≤ j.address
    have htrans : ∀ i j k, le i j = true → le j k = true → le i k = true :=
      fun i j k hij hjk =>
        decide_eq_true (BitVec.le_trans (of_decide_eq_true hij) (of_decide_eq_true hjk))
    have htotal : ∀ i j, (le i j || le j i) = true := fun i j => by
      simpa [le] using BitVec.le_total i.address j.address
    exact (List.pairwise_mergeSort htrans htotal (found.filterMap Card.interface)).imp
      fun h => of_decide_eq_true h
  have hchain : (interfaces found).IsChain fun i j => i.address < j.address :=
    chain_lt hsorted (List.isChain_destutter _ _)
  have htrans : Trans (fun i j : Interface => i.address < j.address)
      (fun i j : Interface => i.address < j.address)
      fun i j : Interface => i.address < j.address := ⟨fun hij hjk => BitVec.lt_trans hij hjk⟩
  rw [List.isChain_iff_pairwise] at hchain
  exact List.pairwise_map.mpr (hchain.imp fun h => BitVec.ne_of_lt h)

theorem mem_bindSenders {address : Ipv4} : address ∈ bindSenders bind senders on ↔
    address ∈ senders ∨ bind address = true ∧ address ∈ on.map Interface.address := by
  induction on generalizing senders with
  | nil => simp [bindSenders]
  | cons i on ih =>
    have hstep : bindSenders bind senders (i :: on) = bindSenders bind
        (if i.address ∈ senders then senders
          else if bind i.address then senders ++ [i.address] else senders) on := rfl
    rw [hstep, ih, List.map_cons, List.mem_cons]
    by_cases hi : i.address ∈ senders
    · rw [if_pos hi]
      constructor
      · exact Or.imp_right fun h => ⟨h.1, .inr h.2⟩
      · rintro (h | ⟨hb, rfl | h⟩)
        · exact .inl h
        · exact .inl hi
        · exact .inr ⟨hb, h⟩
    · rw [if_neg hi]
      by_cases hb : bind i.address = true
      · rw [if_pos hb, List.mem_append, List.mem_singleton]
        constructor
        · rintro ((h | rfl) | h)
          · exact .inl h
          · exact .inr ⟨hb, .inl rfl⟩
          · exact .inr ⟨h.1, .inr h.2⟩
        · rintro (h | ⟨hb, h | h⟩)
          · exact .inl (.inl h)
          · exact .inl (.inr h)
          · exact .inr ⟨hb, h⟩
      · rw [if_neg hb]
        constructor
        · exact Or.imp_right fun h => ⟨h.1, .inr h.2⟩
        · rintro (h | ⟨hb', rfl | h⟩)
          · exact .inl h
          · exact absurd hb' hb
          · exact .inr ⟨hb', h⟩

/-- Every sender belongs to an interface that is known. -/
def Announcer.Sound (a : Announcer) : Prop :=
  ∀ address ∈ a.senders, address ∈ a.known.map Interface.address

theorem Announcer.known_refresh (a : Announcer) : (a.refresh bind on).known = on := by
  unfold refresh
  split
  · rfl
  · rename_i hsame
    exact (not_not.mp hsame).symm

theorem Announcer.Sound.refresh (h : a.Sound) : (a.refresh bind on).Sound := by
  unfold Announcer.refresh
  split
  · intro address haddress
    obtain hkept | ⟨-, hnew⟩ := mem_bindSenders.mp haddress
    · obtain ⟨i, hi, heq⟩ := List.any_eq_true.mp (List.mem_filter.mp hkept).2
      exact List.mem_map.mpr ⟨i, hi, of_decide_eq_true heq⟩
    · exact hnew
  · exact h

def Announcer.Full (a : Announcer) : Prop := ∀ i ∈ a.known, i.address ∈ a.senders

theorem Announcer.Full.refresh (h : a.Full) (hbind : ∀ i ∈ on, bind i.address = true) :
    (a.refresh bind on).Full := by
  unfold Announcer.refresh
  split
  · exact fun i hi => mem_bindSenders.mpr (.inr ⟨hbind i hi, List.mem_map_of_mem hi⟩)
  · exact h

theorem Announcer.Full.announce (h : a.Full) (port : ℕ) (manual : List SocketAddr) :
    a.announce port manual payload =
      a.known.flatMap (copies port payload) ++ a.probes manual payload := by
  unfold Announcer.announce
  rw [List.filter_eq_self.mpr fun i hi => decide_eq_true (h i hi)]

theorem mem_sendUnicast (h : d ∈ sendUnicast senders on target payload) :
    d.source ∈ senders ∧ d.target = target ∧ d.announcement = payload := by
  have hall : d ∈ (senders.map fun source => (⟨source, target, payload⟩ : Datagram)) →
      d.source ∈ senders ∧ d.target = target ∧ d.announcement = payload := by
    intro h
    obtain ⟨source, hs, rfl⟩ := List.mem_map.mp h
    exact ⟨hs, rfl, rfl⟩
  unfold sendUnicast at h
  split at h
  · cases h
  · dsimp only at h
    split at h
    · split at h
      · obtain rfl := List.mem_singleton.mp h
        exact ⟨‹_›, rfl, rfl⟩
      · exact hall h
    · exact hall h

theorem exists_sendUnicast {ip : Ipv4} (htarget : target.ip = .v4 ip) (h : senders ≠ []) :
    ∃ d, d ∈ sendUnicast senders on target payload := by
  obtain ⟨source, hs⟩ := List.exists_mem_of_ne_nil _ h
  have hall : ∃ d, d ∈ senders.map fun source => (⟨source, target, payload⟩ : Datagram) :=
    ⟨_, List.mem_map_of_mem hs⟩
  unfold sendUnicast
  simp only [htarget]
  split
  · split
    · exact ⟨_, List.mem_singleton_self _⟩
    · exact hall
  · exact hall

theorem mem_probes {manual : List SocketAddr} (h : d ∈ a.probes manual payload) :
    d.source ∈ a.senders ∧ d.announcement = { payload with probe := true } ∧
      d.target ∈ manual := by
  obtain ⟨t, ht, hd⟩ := List.mem_flatMap.mp h
  obtain ⟨hs, rfl, hp⟩ := mem_sendUnicast hd
  exact ⟨hs, hp, ht⟩

theorem mem_announce {port : ℕ} {manual : List SocketAddr}
    (h : d ∈ a.announce port manual payload) :
    d.source ∈ a.senders ∧ (d.announcement = payload ∨
      d.announcement = { payload with probe := true } ∧ d.target ∈ manual) := by
  obtain h | h := List.mem_append.mp h
  · obtain ⟨i, hi, hd⟩ := List.mem_flatMap.mp h
    have hsender : i.address ∈ a.senders := of_decide_eq_true (List.mem_filter.mp hi).2
    obtain rfl | hd := List.mem_cons.mp hd
    · exact ⟨hsender, .inl rfl⟩
    · obtain ⟨b, -, rfl⟩ := List.mem_map.mp hd
      exact ⟨hsender, .inl rfl⟩
  · exact (mem_probes h).imp_right .inr

theorem mem_replyToProbe {port : ℕ} {dest : Ipv4}
    (h : d ∈ replyToProbe bind found port dest payload) :
    d.source ∈ addresses found ∧ d.target = ⟨.v4 dest, port⟩ ∧ d.announcement = payload := by
  obtain ⟨hs, ht, hp⟩ := mem_sendUnicast h
  obtain hs | ⟨-, hs⟩ := mem_bindSenders.mp hs
  · cases hs
  · exact ⟨hs, ht, hp⟩

theorem exists_replyToProbe {port : ℕ} {dest : Ipv4}
    (h : ∃ address ∈ addresses found, bind address = true) :
    ∃ d, d ∈ replyToProbe bind found port dest payload := by
  obtain ⟨address, haddress, hb⟩ := h
  refine exists_sendUnicast rfl (List.ne_nil_of_mem (a := address) ?_)
  exact mem_bindSenders.mpr (.inr ⟨hb, haddress⟩)

/-! The network: every datagram ever sent may arrive anywhere, late, again or not at all. -/

/-- Who sent a datagram, as it was at that moment; a reply answers the datagram of that number. -/
inductive Origin where
  | stranger
  | timer (h : Host)
  | reply (h : Host) (i : ℕ)

structure Sent where
  datagram : Datagram
  origin : Origin

structure Lan where
  hosts : MachineId → Host
  now : ℕ
  sent : List Sent

inductive Action where
  | tick (m : MachineId) (bind : Ipv4 → Bool)
  | deliver (i : ℕ) (m : MachineId) (bind : Ipv4 → Bool)
  /-- Anyone can send anything. -/
  | stray (d : Datagram)
  | reconnect (m : MachineId) (found : List Card)
  /-- Everything else that happens on a machine. -/
  | live (m : MachineId) (agent : State) (peers : Peers) (queues : ℕ → Queue)
  | addManualPeer (m : MachineId) (addr : SocketAddr)
  | forgetManualPeer (m : MachineId) (addr : SocketAddr)
  | elapse (ms : ℕ)

def Lan.setHost (w : Lan) (m : MachineId) (h : Host) : Lan :=
  { w with hosts := Function.update w.hosts m h }

def Lan.send (w : Lan) (out : List Datagram) (origin : Origin) : Lan :=
  { w with sent := w.sent ++ out.map fun d => ⟨d, origin⟩ }

def step (w : Lan) : Action → Option Lan
  | .tick m bind =>
    let (h, out) := (w.hosts m).tick bind
    some ((w.setHost m h).send out (.timer (w.hosts m)))
  | .deliver i m bind =>
    match w.sent[i]? with
    | none => none
    | some s =>
      let (h, out) := (w.hosts m).receive bind w.now s.datagram
      some ((w.setHost m h).send out (.reply (w.hosts m) i))
  | .stray d => some (w.send [d] .stranger)
  | .reconnect m found => some (w.setHost m { w.hosts m with found })
  | .live m agent peers queues =>
    some (w.setHost m { w.hosts m with agent, actor := ⟨(w.hosts m).actor.me, peers, queues⟩ })
  | .addManualPeer m addr => some (w.setHost m ((w.hosts m).addManualPeer addr))
  | .forgetManualPeer m addr => some (w.setHost m ((w.hosts m).forgetManualPeer addr))
  | .elapse ms => some { w with now := w.now + ms }

/-- The machines under their own names, none of which has announced anything. -/
structure Fresh (hosts : MachineId → Host) : Prop where
  identity : ∀ m, (hosts m).identity.machineId = m
  me : ∀ m, (hosts m).actor.me = m
  announcer : ∀ m, (hosts m).announcer = ⟨[], []⟩

/-- A machine's announcement describes it as it was when it was sent, from an address it had. It
asks for a reply only where that was typed in, and is a reply only to what asked for one. -/
def Genuine (sent : List Sent) (s : Sent) : Prop :=
  match s.origin with
  | .stranger => True
  | .timer h => s.datagram.source ∈ addresses h.found ∧
      (s.datagram.announcement = h.describe ∨
        s.datagram.announcement = { h.describe with probe := true } ∧ s.datagram.target ∈ h.manual)
  | .reply h i => s.datagram.source ∈ addresses h.found ∧ s.datagram.announcement = h.describe ∧
      ∃ c, sent[i]? = some c ∧ c.datagram.announcement.probe = true ∧
        (∀ g j, c.origin ≠ .reply g j) ∧
        s.datagram.target = ⟨.v4 c.datagram.source, h.discoveryPort⟩

structure Inv (w : Lan) : Prop where
  identity : ∀ m, (w.hosts m).identity.machineId = m
  me : ∀ m, (w.hosts m).actor.me = m
  sound : ∀ m, (w.hosts m).announcer.Sound
  genuine : ∀ s ∈ w.sent, Genuine w.sent s

variable {w v : Lan} {m : MachineId} {h : Host} {s : Sent} {sent : List Sent}

theorem Genuine.append (hs : Genuine sent s) (more : List Sent) : Genuine (sent ++ more) s := by
  unfold Genuine at *
  split at hs
  · trivial
  · exact hs
  · obtain ⟨hsource, hann, c, hc, hrest⟩ := hs
    obtain ⟨hlt, -⟩ := List.getElem?_eq_some_iff.mp hc
    exact ⟨hsource, hann, c, by rw [List.getElem?_append_left hlt, hc], hrest⟩

theorem inv_start {hosts : MachineId → Host} (hf : Fresh hosts) (now : ℕ) :
    Inv ⟨hosts, now, []⟩ where
  identity := hf.identity
  me := hf.me
  sound m := by
    show (hosts m).announcer.Sound
    rw [hf.announcer m]
    intro address haddress
    cases haddress
  genuine s hs := by cases hs

theorem Inv.next (hw : Inv w) {out : List Datagram} {origin : Origin}
    (hid : h.identity.machineId = m) (hme : h.actor.me = m) (hsound : h.announcer.Sound)
    (hout : ∀ d ∈ out, Genuine w.sent ⟨d, origin⟩) : Inv ((w.setHost m h).send out origin) := by
  have hhosts : ∀ {P : MachineId → Host → Prop}, P m h → (∀ n, P n (w.hosts n)) →
      ∀ n, P n (Function.update w.hosts m h n) := by
    intro P hp hall n
    by_cases hn : n = m
    · rw [hn, Function.update_self]
      exact hp
    · rw [Function.update_of_ne hn]
      exact hall n
  refine ⟨hhosts (P := fun n g => g.identity.machineId = n) hid hw.identity,
    hhosts (P := fun n g => g.actor.me = n) hme hw.me,
    hhosts (P := fun _ g => g.announcer.Sound) hsound hw.sound, fun s hs => ?_⟩
  obtain hs | hs := List.mem_append.mp hs
  · exact (hw.genuine s hs).append _
  · obtain ⟨d, hd, rfl⟩ := List.mem_map.mp hs
    exact (hout d hd).append _

theorem send_nil (w : Lan) (origin : Origin) : w.send [] origin = w := by
  simp [Lan.send]

theorem Inv.setHost (hw : Inv w) (hid : h.identity.machineId = m) (hme : h.actor.me = m)
    (hsound : h.announcer.Sound) : Inv (w.setHost m h) := by
  rw [← send_nil (w.setHost m h) .stranger]
  exact hw.next hid hme hsound fun d hd => by cases hd

theorem Host.receive_spec (h : Host) (bind : Ipv4 → Bool) (now : ℕ) (d : Datagram) :
    (h.receive bind now d).1.identity = h.identity ∧
      (h.receive bind now d).1.actor.me = h.actor.me ∧
      (h.receive bind now d).1.announcer = h.announcer ∧
      ∀ r ∈ (h.receive bind now d).2, d.announcement.probe = true ∧
        r ∈ replyToProbe bind h.found h.discoveryPort d.source h.describe := by
  unfold Host.receive
  split
  · exact ⟨rfl, rfl, rfl, fun r hr => by cases hr⟩
  split
  · exact ⟨rfl, rfl, rfl, fun r hr => by cases hr⟩
  refine ⟨rfl, ?_, rfl, fun r hr => ?_⟩
  · dsimp only
    unfold Actor.onSighting
    split_ifs <;> rfl
  · dsimp only at hr
    split at hr
    · exact ⟨‹_›, hr⟩
    · cases hr

theorem Genuine.not_reply (hs : Genuine sent s) (hp : s.datagram.announcement.probe = true) :
    ∀ g j, s.origin ≠ .reply g j := by
  intro g j ho
  simp only [Genuine, ho] at hs
  rw [hs.2.1] at hp
  cases hp

theorem Inv.step {a : Action} (hw : Inv w) (hs : step w a = some v) : Inv v := by
  cases a with
  | tick m bind =>
    obtain rfl := Option.some.inj hs
    have hsound : ((w.hosts m).announcer.refresh bind (interfaces (w.hosts m).found)).Sound :=
      (hw.sound m).refresh
    refine hw.next (hw.identity m) (hw.me m) hsound fun d hd => ?_
    obtain ⟨hsource, hann⟩ := mem_announce hd
    have hmem := hsound _ hsource
    rw [Announcer.known_refresh] at hmem
    exact ⟨hmem, hann⟩
  | deliver i m bind =>
    simp only [Discovery.step] at hs
    split at hs
    · cases hs
    · rename_i s hi
      obtain rfl := Option.some.inj hs
      obtain ⟨hid, hme, hann, hreply⟩ := (w.hosts m).receive_spec bind w.now s.datagram
      refine hw.next (hid ▸ hw.identity m) (hme.trans (hw.me m)) (hann ▸ hw.sound m) fun d hd => ?_
      obtain ⟨hprobe, hd⟩ := hreply d hd
      obtain ⟨hsource, htarget, hpayload⟩ := mem_replyToProbe hd
      exact ⟨hsource, hpayload, s, hi, hprobe,
        (hw.genuine s (List.mem_of_getElem? hi)).not_reply hprobe, htarget⟩
  | stray d =>
    obtain rfl := Option.some.inj hs
    refine ⟨hw.identity, hw.me, hw.sound, fun s hs => ?_⟩
    obtain hs | hs := List.mem_append.mp hs
    · exact (hw.genuine s hs).append _
    · obtain rfl := List.mem_singleton.mp hs
      trivial
  | reconnect m found =>
    obtain rfl := Option.some.inj hs
    exact hw.setHost (hw.identity m) (hw.me m) (hw.sound m)
  | live m agent peers queues =>
    obtain rfl := Option.some.inj hs
    exact hw.setHost (hw.identity m) (hw.me m) (hw.sound m)
  | addManualPeer m addr =>
    obtain rfl := Option.some.inj hs
    exact hw.setHost (hw.identity m) (hw.me m) (hw.sound m)
  | forgetManualPeer m addr =>
    obtain rfl := Option.some.inj hs
    exact hw.setHost (hw.identity m) (hw.me m) (hw.sound m)
  | elapse ms =>
    obtain rfl := Option.some.inj hs
    exact ⟨hw.identity, hw.me, hw.sound, hw.genuine⟩

theorem inv_of_run {hosts : MachineId → Host} (hf : Fresh hosts) {now : ℕ} {as : List Action}
    (hr : Run Discovery.step Any ⟨hosts, now, []⟩ as w) : Inv w :=
  hr.invariant (fun _ _ _ hi _ hs => hi.step hs) (inv_start hf now)

/-- Whatever strangers send, and however datagrams are lost, repeated and overtaken: a machine
announces itself as it is, from an address it has, and asks for a reply only where somebody typed
an address in; no reply asks for one, so none is ever answered. -/
theorem sent_genuine {hosts : MachineId → Host} (hf : Fresh hosts) {now : ℕ} {as : List Action}
    (hr : Run step Any ⟨hosts, now, []⟩ as w) : ∀ s ∈ w.sent, Genuine w.sent s :=
  (inv_of_run hf hr).genuine

/-! Every interface. -/

/-- A sender can be bound to every address that the machine has. -/
def Binds (w : Lan) : Action → Prop
  | .tick m bind => ∀ address ∈ addresses (w.hosts m).found, bind address = true
  | _ => True

theorem full_of_run {hosts : MachineId → Host} (hf : Fresh hosts) {now : ℕ} {as : List Action}
    (hr : Run step Binds ⟨hosts, now, []⟩ as w) : ∀ m, (w.hosts m).announcer.Full := by
  refine hr.invariant (I := fun w => ∀ m, (w.hosts m).announcer.Full) (fun w a v hw hok hs => ?_)
    fun m => ?_
  · have hset : ∀ {m : MachineId} {h : Host}, h.announcer.Full →
        ∀ n, (Function.update w.hosts m h n).announcer.Full := by
      intro m h hfull n
      by_cases hn : n = m
      · rw [hn, Function.update_self]
        exact hfull
      · rw [Function.update_of_ne hn]
        exact hw n
    cases a with
    | tick m bind =>
      obtain rfl := Option.some.inj hs
      exact hset ((hw m).refresh fun i hi => hok _ (List.mem_map_of_mem hi))
    | deliver i m bind =>
      simp only [step] at hs
      split at hs
      · cases hs
      · obtain rfl := Option.some.inj hs
        exact hset (((w.hosts m).receive_spec bind _ _).2.2.1 ▸ hw m)
    | stray | elapse =>
      obtain rfl := Option.some.inj hs
      exact hw
    | reconnect m | live m | addManualPeer m | forgetManualPeer m =>
      obtain rfl := Option.some.inj hs
      exact hset (hw m)
  · show (hosts m).announcer.Full
    rw [hf.announcer m]
    intro i hi
    cases hi

/-- However the interfaces come and go: where senders can be bound, every round of the loop sends
the present description from each address that the machine has, once to the group and once to its
subnet if that can be reached, and from no other address; the rest are the probes. -/
theorem announces_everywhere {hosts : MachineId → Host} (hf : Fresh hosts) {now : ℕ}
    {as : List Action} (hr : Run step Binds ⟨hosts, now, []⟩ as w) {bind : Ipv4 → Bool}
    (hb : ∀ address ∈ addresses (w.hosts m).found, bind address = true)
    (hs : step w (.tick m bind) = some v) :
    (addresses (w.hosts m).found).Nodup ∧ ∃ probes,
      v.sent.map Sent.datagram = w.sent.map Sent.datagram ++
        (interfaces (w.hosts m).found).flatMap
          (copies (w.hosts m).discoveryPort (w.hosts m).describe) ++ probes ∧
      ∀ d ∈ probes, d.announcement = { (w.hosts m).describe with probe := true } ∧
        d.target ∈ (w.hosts m).manual := by
  obtain rfl := Option.some.inj hs
  let a := (w.hosts m).announcer.refresh bind (interfaces (w.hosts m).found)
  have hfull : a.Full := (full_of_run hf hr m).refresh fun i hi => hb _ (List.mem_map_of_mem hi)
  have hknown : a.known = interfaces (w.hosts m).found := Announcer.known_refresh _
  refine ⟨nodup_addresses _, a.probes (w.hosts m).manual (w.hosts m).describe, ?_,
    fun d hd => (mem_probes hd).2⟩
  have hid : ∀ l : List Datagram, ∀ o : Origin,
      (l.map fun d => (⟨d, o⟩ : Sent)).map Sent.datagram = l := by
    intro l o
    rw [List.map_map]
    exact List.map_id l
  show (w.sent ++ (a.announce _ _ _).map _).map _ = _
  rw [List.map_append, hid, hfull.announce, hknown, List.append_assoc]

/-! One address is enough for two machines. -/

/-- The machine has met the one that sent the datagram: it has its address, if it may talk to it,
and offers it for pairing otherwise. -/
def Met (h : Host) (d : Datagram) (now : ℕ) : Prop :=
  if h.agent.authorize d.announcement.machineId d.announcement.identityKey then
    ∃ slot, h.actor.peers[d.announcement.machineId]? = some slot ∧
      slot.addr = some d.sighting.addr ∧ slot.lastSeen = some now ∧
      slot.lastWorkspace = some d.announcement.workspaceId
  else
    .candidate d.announcement.machineId d.announcement.displayName d.announcement.identityKey
      d.announcement.workspaceId d.sighting.addr
      (decide (h.actor.me ∈ d.announcement.invitations)) ∈ h.events

theorem met_receive (h : Host) (bind : Ipv4 → Bool) (now : ℕ) {d : Datagram}
    (hc : d.announcement.isCurrent = true) (hme : d.announcement.machineId ≠ h.actor.me) :
    Met (h.receive bind now d).1 d now := by
  have hme' : d.sighting.machineId ≠ h.actor.me := hme
  unfold Host.receive
  rw [if_neg (by simp [hc]), if_neg hme]
  unfold Met
  dsimp only
  by_cases ha : h.agent.authorize d.announcement.machineId d.announcement.identityKey = true
  · rw [if_pos ha, ha]
    unfold Actor.onSighting
    rw [if_neg hme']
    simp only [Bool.not_true, Bool.false_eq_true, if_false]
    refine ⟨_, Std.ExtTreeMap.getElem?_insert_self, ?_⟩
    split <;> exact ⟨rfl, rfl, rfl⟩
  · rw [if_neg ha]
    simp only [Bool.not_eq_true] at ha
    unfold Actor.onSighting
    rw [if_neg hme', ha]
    exact List.mem_append_right _ (List.mem_singleton_self _)

theorem sent_prefix {as : List Action} (hr : Run step Any w as v) : w.sent <+: v.sent := by
  refine hr.related (R := fun w v => w.sent <+: v.sent) (fun w => List.prefix_rfl) ?_ ?_
  · intro a b c hab hbc
    exact hab.trans hbc
  intro w a v _ hs
  cases a with
  | deliver i m bind =>
    simp only [step] at hs
    split at hs
    · cases hs
    · obtain rfl := Option.some.inj hs
      exact List.prefix_append _ _
  | tick | stray =>
    obtain rfl := Option.some.inj hs
    exact List.prefix_append _ _
  | reconnect | live | addManualPeer | forgetManualPeer | elapse =>
    obtain rfl := Option.some.inj hs
    exact List.prefix_rfl

theorem getElem?_of_run {as : List Action} (hr : Run step Any w as v) {i : ℕ}
    (hi : w.sent[i]? = some s) : v.sent[i]? = some s := by
  obtain ⟨more, hmore⟩ := sent_prefix hr
  obtain ⟨hlt, -⟩ := List.getElem?_eq_some_iff.mp hi
  rw [← hmore, List.getElem?_append_left hlt, hi]

theorem met_deliver {b i : ℕ} {bind : Ipv4 → Bool} (hi : w.sent[i]? = some s)
    (hc : s.datagram.announcement.isCurrent = true)
    (hme : s.datagram.announcement.machineId ≠ (w.hosts b).actor.me)
    (hs : step w (.deliver i b bind) = some v) : Met (v.hosts b) s.datagram w.now ∧
      v = (w.setHost b ((w.hosts b).receive bind w.now s.datagram).1).send
        ((w.hosts b).receive bind w.now s.datagram).2 (.reply (w.hosts b) i) := by
  simp only [step, hi] at hs
  obtain rfl := Option.some.inj hs
  refine ⟨?_, rfl⟩
  show Met (Function.update w.hosts b _ b) _ _
  rw [Function.update_self]
  exact met_receive _ bind w.now hc hme

/-- Once the probe of a machine arrives at another one, that one has met it, and its reply leaves;
and once the reply arrives, they have met each other. -/
def Introduces (w : Lan) (m : MachineId) (i : ℕ) (p : Datagram) : Prop :=
  ∀ b ≠ m, ∀ as x y bind, Run step Any w as x →
    (∃ address ∈ addresses (x.hosts b).found, bind address = true) →
    step x (.deliver i b bind) = some y → Met (y.hosts b) p x.now ∧
      ∃ j r, y.sent[j]? = some r ∧ r.datagram.announcement = (x.hosts b).describe ∧
        r.datagram.target = ⟨.v4 p.source, (x.hosts b).discoveryPort⟩ ∧
        ∀ cs z z' bind', Run step Any y cs z → step z (.deliver j m bind') = some z' →
          Met (z'.hosts m) r.datagram z.now

/-- An address that is typed in on one machine is probed in every round of its loop, and the probe
introduces that machine and whichever has the address to each other, whatever happens meanwhile. -/
theorem introduces {hosts : MachineId → Host} (hf : Fresh hosts) {now : ℕ} {as : List Action}
    (hr : Run step Any ⟨hosts, now, []⟩ as w) {bind : Ipv4 → Bool} {ip : Ipv4}
    (htyped : target ∈ (w.hosts m).manual) (hip : target.ip = .v4 ip)
    (hsender : ((w.hosts m).announcer.refresh bind (interfaces (w.hosts m).found)).senders ≠ [])
    (hs : step w (.tick m bind) = some v) :
    ∃ i p, v.sent[i]? = some p ∧ p.datagram.target = target ∧ Introduces v m i p.datagram := by
  have hw : Inv w := inv_of_run hf hr
  have hv : Inv v := hw.step hs
  let a := (w.hosts m).announcer.refresh bind (interfaces (w.hosts m).found)
  obtain ⟨d, hd⟩ : ∃ d, d ∈ sendUnicast a.senders a.known target
      { (w.hosts m).describe with probe := true } := exists_sendUnicast hip hsender
  obtain ⟨-, htarget, hann⟩ := mem_sendUnicast hd
  have hmem : (⟨d, .timer (w.hosts m)⟩ : Sent) ∈ v.sent := by
    obtain rfl := Option.some.inj hs
    refine List.mem_append_right _ (List.mem_map_of_mem (List.mem_append_right _ ?_))
    exact List.mem_flatMap.mpr ⟨target, htyped, hd⟩
  obtain ⟨i, hi⟩ := List.getElem?_of_mem hmem
  refine ⟨i, _, hi, htarget, fun b hb bs x y bind' hx hbind hy => ?_⟩
  have hxi := getElem?_of_run hx hi
  have hinv : Inv x := hx.invariant (fun _ _ _ hi _ hs => hi.step hs) hv
  have hcurrent : d.announcement.isCurrent = true := by
    rw [hann]
    rfl
  have hid : d.announcement.machineId = m := by
    rw [hann]
    exact hw.identity m
  have hother : d.announcement.machineId ≠ (x.hosts b).actor.me := by
    rw [hid, hinv.me b]
    exact Ne.symm hb
  obtain ⟨hmet, rfl⟩ := met_deliver hxi hcurrent hother hy
  refine ⟨hmet, ?_⟩
  -- the reply
  obtain ⟨r, hr⟩ : ∃ r, r ∈ replyToProbe bind' (x.hosts b).found (x.hosts b).discoveryPort d.source
      (x.hosts b).describe := exists_replyToProbe hbind
  obtain ⟨-, hrt, hra⟩ := mem_replyToProbe hr
  have hout : r ∈ ((x.hosts b).receive bind' x.now d).2 := by
    unfold Host.receive
    rw [if_neg (by simp [hcurrent]), if_neg hother]
    have hprobe : d.announcement.probe = true := by rw [hann]
    simp only [hprobe, if_true]
    exact hr
  obtain ⟨j, hj⟩ := List.getElem?_of_mem (List.mem_append_right x.sent
    (List.mem_map_of_mem (f := fun d => (⟨d, .reply (x.hosts b) i⟩ : Sent)) hout))
  refine ⟨j, _, hj, hra, hrt, fun cs z z' bind'' hz hz' => ?_⟩
  have hinvz : Inv z :=
    hz.invariant (fun _ _ _ hi _ hs => hi.step hs) (hinv.step hy)
  refine (met_deliver (getElem?_of_run hz hj) (by rw [hra]; rfl) ?_ hz').1
  rw [hra, hinvz.me m]
  show (x.hosts b).identity.machineId ≠ m
  rw [hinv.identity b]
  exact hb

/-! A network of machines with one card each. -/

def plainHost (m : MachineId) : Host where
  identity := ⟨m, m⟩
  computerName := "Computer"
  transportPort := 47452
  discoveryPort := 47451
  agent := ⟨none, ∅, ∅, ∅⟩
  actor := ⟨m, ∅, fun _ => .new⟩
  announcer := ⟨[], []⟩
  manual := []
  found := [⟨"lo", true, .v4 0x7F000001, none⟩,
    ⟨"en0", false, .v4 (0xC0A80100 + .ofNat 32 m), some 0xC0A801FF⟩]
  events := []

theorem fresh_plainHost : Fresh plainHost := ⟨fun _ => rfl, fun _ => rfl, fun _ => rfl⟩

def second : SocketAddr := ⟨.v4 0xC0A80102, 47451⟩

def everywhere (_ : Ipv4) : Bool := true

/-- The second machine is typed in on the first, is probed and answers; the answer comes twice. -/
def meeting : List Action :=
  [.addManualPeer 1 second, .tick 1 everywhere, .deliver 2 2 everywhere, .deliver 3 1 everywhere,
    .deliver 3 1 everywhere]

def Origin.isReply : Origin → Bool
  | .reply _ _ => true
  | _ => false

theorem sent_genuine_meeting : ∃ w, Run step Any ⟨plainHost, 0, []⟩ meeting w ∧
    w.sent.map (fun s => (s.datagram.target, s.datagram.announcement.probe, s.origin.isReply)) =
      [(⟨.v4 group, 47451⟩, false, false), (⟨.v4 0xC0A801FF, 47451⟩, false, false),
        (second, true, false), (⟨.v4 0xC0A80101, 47451⟩, false, true)] ∧
    ∀ s ∈ w.sent, Genuine w.sent s := by
  obtain ⟨w, hrun, hw⟩ := run_of_replay step Any ⟨plainHost, 0, []⟩ meeting
    (fun w => w.sent.map fun s =>
      (s.datagram.target, s.datagram.announcement.probe, s.origin.isReply))
    (b := [(⟨.v4 group, 47451⟩, false, false), (⟨.v4 0xC0A801FF, 47451⟩, false, false),
        (second, true, false), (⟨.v4 0xC0A80101, 47451⟩, false, true)]) (by decide +kernel)
  exact ⟨w, hrun, hw, sent_genuine fresh_plainHost hrun⟩

/-- A cable, which is found before the card that is there. -/
def cable : Card := ⟨"en1", false, .v4 0x0A000003, none⟩

/-- The first machine gets a cable and announces on both cards. -/
theorem announces_everywhere_cable : ∃ w v, Run step Binds ⟨plainHost, 0, []⟩
      [.tick 1 everywhere, .reconnect 1 (cable :: (plainHost 1).found)] w ∧
    step w (.tick 1 everywhere) = some v ∧ (addresses (w.hosts 1).found).Nodup ∧
    ∃ probes, v.sent.map Sent.datagram = w.sent.map Sent.datagram ++
        (interfaces (w.hosts 1).found).flatMap
          (copies (w.hosts 1).discoveryPort (w.hosts 1).describe) ++ probes ∧
      ∀ d ∈ probes, d.announcement = { (w.hosts 1).describe with probe := true } ∧
        d.target ∈ (w.hosts 1).manual := by
  have hreconnect : ∀ w, Binds w (.reconnect 1 (cable :: (plainHost 1).found)) :=
    fun _ => trivial
  have hrun : Run step Binds ⟨plainHost, 0, []⟩
      [.tick 1 everywhere, .reconnect 1 (cable :: (plainHost 1).found)] _ :=
    .cons (fun _ _ => rfl) rfl (.cons (hreconnect _) rfl (.nil _))
  exact ⟨_, _, hrun, rfl, announces_everywhere fresh_plainHost hrun (fun _ _ => rfl) rfl⟩

/-- One machine types in the address of the other, and they are introduced. -/
theorem introduces_typed : ∃ w v, Run step Any ⟨plainHost, 0, []⟩ [.addManualPeer 1 second] w ∧
    step w (.tick 1 everywhere) = some v ∧
    ∃ i p, v.sent[i]? = some p ∧ p.datagram.target = second ∧ Introduces v 1 i p.datagram := by
  have hrun : Run step Any ⟨plainHost, 0, []⟩ [.addManualPeer 1 second] _ :=
    .cons trivial rfl (.nil _)
  have htyped : second ∈ ((plainHost 1).addManualPeer second).manual := by decide +kernel
  exact ⟨_, _, hrun, rfl, introduces fresh_plainHost hrun htyped rfl (by decide +kernel) rfl⟩

end InputShare.Discovery

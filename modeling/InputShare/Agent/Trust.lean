import InputShare.Agent.Sessions

/-! Whom machines let in, in a network where anybody may announce anything, connect and send: it
goes back to whom people have admitted. -/
namespace InputShare.Trust
open Runs

variable (genuine : MachineId → PubKey → Prop)

/-- If the slot holds a machine, it is that machine, with a key of its own. -/
def Sound (id : MachineId) (slot : MachineSlot) : Prop :=
  ∀ r, slot.state = .present r → r.id = id ∧ genuine id r.publicKey

def Tells : Message → Prop
  | .docFull doc => ∀ id slot, doc.machines[id]? = some slot → Sound genuine id slot
  | .update u => ∀ id slot, u.slot id = some slot → Sound genuine id slot
  | _ => True

/-- The state lets such machines in only. -/
structure Trusting (s : State) : Prop where
  slots : ∀ id slot, s.slot id = some slot → Sound genuine id slot
  pending : ∀ id key, s.pendingTrust[id]? = some key → genuine id key

structure Guarded (w : Sessions.World) : Prop where
  state : Trusting genuine w.state
  sessions : ∀ s ∈ w.sessions, s.admitted → genuine s.peer s.key
  events : ∀ id key theirs size, .differentWorkspaces id key theirs size ∈ w.events →
    genuine id key

/-! The machines together. -/

structure World where
  agents : MachineId → Sessions.World
  /-- The documents and updates that a machine may have sent. -/
  said : MachineId → List Message
  /-- The records that were looked up on a machine, to be changed and written back. -/
  drafts : MachineId → List MachineRecord

inductive Action where
  /-- A machine does something, or something is done to it. -/
  | act (m : MachineId) (a : Sessions.Action)
  /-- A session takes the document, to send it. -/
  | snapshot (m : MachineId)
  | view (m id : MachineId)

def made (w : Sessions.World) : Sessions.Action → List Message
  | .pair now id =>
    match w.state.pair w.me now id with
    | .ok (_, some u) => [.update u]
    | _ => []
  | .unpair now id =>
    match w.state.unpair w.me now id with
    | .ok (_, u) => [.update u]
    | .error _ => []
  | .edit now op =>
    match w.state.mutate w.me now op with
    | .ok (_, u) => [.update u]
    | .error _ => []
  | _ => []

def World.say (w : World) (m : MachineId) (messages : List Message) : World :=
  { w with said := Function.update w.said m (w.said m ++ messages) }

def step (w : World) : Action → Option World
  | .act m a => (Sessions.step (w.agents m) a).map fun agent =>
      { w with agents := Function.update w.agents m agent }.say m (made (w.agents m) a)
  | .snapshot m => (w.agents m).state.doc.map fun doc => w.say m [.docFull doc]
  | .view m id => ((w.agents m).state.machine id).map fun record =>
      { w with drafts := Function.update w.drafts m (w.drafts m ++ [record]) }

/-- People admit genuine machines only, a record that is written was looked up before and keeps its
key, and what is read from a genuine machine is what that machine has sent. Nothing is said of what
others announce or send. -/
def Careful (w : World) : Action → Prop
  | .act m (.pair _ id) =>
    ∀ c ∈ (w.agents m).state.candidates[id]?, genuine c.machineId c.identityKey
  | .act _ (.adopt id key) => genuine id key
  | .act m (.edit _ (.upsertMachine record)) =>
    ∃ d ∈ w.drafts m, d.id = record.id ∧ d.publicKey = record.publicKey
  | .act m (.read i message _) => ∀ s ∈ (w.agents m).sessions[i]?, genuine s.peer s.key →
    message ∈ w.said s.peer
  | _ => True

/-- Nothing has been sent or looked up yet, and there is no session. -/
structure Fresh (w : World) : Prop where
  agents : ∀ m, ∃ s, w.agents m = Sessions.start m s ∧ Trusting genuine s
  said : ∀ m, w.said m = []
  drafts : ∀ m, w.drafts m = []

structure Inv (w : World) : Prop where
  guarded : ∀ m, Guarded genuine (w.agents m)
  said : ∀ m, ∀ message ∈ w.said m, Tells genuine message
  drafts : ∀ m, ∀ d ∈ w.drafts m, genuine d.id d.publicKey

variable {genuine} {s t : State} {id me p : MachineId} {key : PubKey} {now : ℕ}

/-! What one machine does. -/

theorem Trusting.machine (h : Trusting genuine s) {r : MachineRecord}
    (hr : s.machine id = some r) : r.id = id ∧ genuine id r.publicKey := by
  rw [State.machine_eq] at hr
  obtain ⟨⟨stamp, state⟩, hslot, hr⟩ := Option.bind_eq_some_iff.mp hr
  cases state with
  | present record =>
    obtain rfl := Option.some.inj hr
    exact h.slots id _ hslot record rfl
  | removed => cases hr

theorem Trusting.authorize (h : Trusting genuine s) (ha : s.authorize id key = true) :
    genuine id key := by
  obtain ⟨r, hr, rfl⟩ | ⟨-, hk⟩ := State.authorize_iff.mp ha
  · exact (h.machine hr).2
  · exact h.pending id key hk

theorem merge_pending {doc : WorkspaceDoc} {c : Bool} (h : s.merge doc = .ok (t, c))
    (hk : t.pendingTrust[id]? = some key) : s.pendingTrust[id]? = some key := by
  have hdrop : ∀ u : State, u.dropAdopted.pendingTrust[id]? = some key →
      u.pendingTrust[id]? = some key := by
    intro u hu
    unfold State.dropAdopted at hu
    rw [Std.ExtTreeMap.getElem?_filter', Option.filter_eq_some_iff] at hu
    exact hu.1
  unfold State.merge at h
  cases hd : s.doc with
  | none =>
    simp only [hd, Except.ok.injEq, Prod.mk.injEq] at h
    obtain ⟨rfl, -⟩ := h
    exact hdrop { s with doc := some doc } hk
  | some own =>
    simp only [hd] at h
    cases hm : own.merge doc with
    | error err => simp [hm, bind, Except.bind] at h
    | ok q =>
      simp only [hm, bind, Except.bind, pure, Except.pure, Except.ok.injEq, Prod.mk.injEq] at h
      obtain ⟨rfl, -⟩ := h
      split at hk
      · exact hdrop { s with doc := some q.1 } hk
      · exact hk

theorem sound_incoming {message : Message} (hm : Tells genuine message) {slot : MachineSlot}
    (h : s.incoming id message = some slot) : Sound genuine id slot := by
  unfold State.incoming at h
  cases message with
  | docFull doc =>
    dsimp only at h
    split at h
    · split at h
      · exact hm id slot h
      · cases h
    · exact hm id slot h
  | update u =>
    dsimp only at h
    split at h
    · split at h
      · exact hm id slot h
      · cases h
    · cases h
  | identify | input | cursorOwner | ping | pong | goodbye => cases h

theorem Trusting.took {message : Message} (h : Trusting genuine s) (hm : Tells genuine message)
    (ht : s.Took message t) (hpending : ∀ (id : MachineId) (key : PubKey),
      t.pendingTrust[id]? = some key → s.pendingTrust[id]? = some key) : Trusting genuine t := by
  refine ⟨fun id slot hslot => ?_, fun id key hk => h.pending id key (hpending id key hk)⟩
  obtain heq | ⟨incoming, hinc, hnow, -⟩ := ht.slot id
  · exact h.slots id slot (heq ▸ hslot)
  · obtain rfl := Option.some.inj (hnow.symm.trans hslot)
    exact sound_incoming hm hinc

theorem Trusting.merge {doc : WorkspaceDoc} {c : Bool} (h : Trusting genuine s)
    (hm : Tells genuine (.docFull doc)) (ht : s.merge doc = .ok (t, c)) : Trusting genuine t :=
  h.took hm (State.took_merge ht) fun _ _ hk => merge_pending ht hk

theorem Trusting.apply {u : WorkspaceUpdate} {c : Bool} (h : Trusting genuine s)
    (hm : Tells genuine (.update u)) (ht : s.apply u = .ok (t, c)) : Trusting genuine t := by
  refine h.took hm (State.took_apply ht) fun id key hk => ?_
  cases hd : s.doc with
  | none =>
    obtain ⟨rfl, -⟩ := State.apply_none hd ht
    exact hk
  | some doc =>
    obtain ⟨d, -, rfl⟩ := State.apply_some hd ht
    exact hk

theorem Trusting.mutate {op : Op} {u : WorkspaceUpdate} (h : Trusting genuine s)
    (hop : ∀ r, op = .upsertMachine r → genuine r.id r.publicKey)
    (ht : s.mutate me now op = .ok (t, u)) :
    Trusting genuine t ∧ Tells genuine (.update u) := by
  have htells : Tells genuine (.update u) := by
    intro id slot hslot r hr
    obtain ⟨record, hu, rfl, hstate⟩ | ⟨-, hstate⟩ := WorkspaceUpdate.slot_eq_some hslot
    · obtain rfl := SlotState.present.inj (hstate.symm.trans hr)
      exact ⟨rfl, hop record ((State.mutate_update_op ht).symm.trans hu)⟩
    · rw [hstate] at hr
      cases hr
  refine ⟨⟨fun id slot hslot => ?_, fun id key hk => ?_⟩, htells⟩
  · rw [State.mutate_slot ht] at hslot
    obtain hnew | ⟨-, hold⟩ := Option.or_eq_some_iff.mp hslot
    · exact htells id slot hnew
    · exact h.slots id slot hold
  · obtain ⟨doc, -, rfl, -⟩ := State.mutate_some ht
    exact h.pending id key hk

theorem Trusting.pair {o : Option WorkspaceUpdate} (h : Trusting genuine s)
    (hc : ∀ c ∈ s.candidates[p]?, genuine c.machineId c.identityKey)
    (ht : s.pair me now p = .ok (t, o)) :
    Trusting genuine t ∧ ∀ u ∈ o, Tells genuine (.update u) := by
  obtain ⟨c, hmem, ⟨hd, rfl, rfl⟩ | ⟨record, v, u, hid, hkey, rfl, hm, rfl⟩⟩ := State.pair_some ht
  · refine ⟨⟨h.slots, fun id key hk => ?_⟩, by simp⟩
    rw [Std.ExtTreeMap.getElem?_insert] at hk
    split at hk
    · rename_i hsame
      rw [compare_eq_iff_eq] at hsame
      obtain rfl := Option.some.inj hk
      exact hsame ▸ hc c hmem
    · exact h.pending id key hk
  · have hop : ∀ r, Op.upsertMachine record = .upsertMachine r → genuine r.id r.publicKey := by
      intro r hr
      obtain rfl := Op.upsertMachine.inj hr
      rw [hid, hkey]
      exact hc c hmem
    obtain ⟨hv, hu⟩ := h.mutate hop hm
    refine ⟨⟨hv.slots, hv.pending⟩, fun u' hu' => ?_⟩
    obtain rfl := Option.some.inj hu'
    exact hu

theorem Trusting.unpair {u : WorkspaceUpdate} (h : Trusting genuine s)
    (ht : s.unpair me now p = .ok (t, u)) : Trusting genuine t ∧ Tells genuine (.update u) := by
  obtain ⟨v, hv, rfl⟩ := State.unpair_some ht
  obtain ⟨htrust, htells⟩ := h.mutate (fun r hr => by cases hr) hv
  exact ⟨⟨htrust.slots, htrust.pending⟩, htells⟩

theorem Trusting.adopt (h : Trusting genuine s) (hg : genuine p key) :
    Trusting genuine (s.adoptConfigurationOf p key) := by
  refine ⟨fun id slot hslot => (by cases hslot), fun id k hk => ?_⟩
  have hk' : (s.pendingTrust.insert p key)[id]? = some k := hk
  rw [Std.ExtTreeMap.getElem?_insert] at hk'
  split at hk'
  · rename_i hsame
    rw [compare_eq_iff_eq] at hsame
    obtain rfl := Option.some.inj hk'
    exact hsame ▸ hg
  · exact h.pending id k hk'

theorem Trusting.onNetEvent {e : NetEvent} (h : Trusting genuine s)
    (he : ∀ id key theirs size, e = .differentWorkspaces id key theirs size → genuine id key) :
    Trusting genuine (s.onNetEvent now e) := by
  cases e with
  | differentWorkspaces id key theirs size =>
    simp only [State.onNetEvent]
    split
    · split
      · exact h.adopt (he id key theirs size rfl)
      · exact h
    · exact h
  | online | offline | candidate | rejected => exact ⟨h.slots, h.pending⟩

def Allows (genuine : MachineId → PubKey → Prop) (w : Sessions.World) : Sessions.Action → Prop
  | .pair _ id => ∀ c ∈ w.state.candidates[id]?, genuine c.machineId c.identityKey
  | .adopt id key => genuine id key
  | .edit _ (.upsertMachine r) => genuine r.id r.publicKey
  | .read i message _ => ∀ s ∈ w.sessions[i]?, genuine s.peer s.key → Tells genuine message
  | _ => True

section Guarded
variable {w v : Sessions.World}

theorem Guarded.put (h : Guarded genuine w) (ht : Trusting genuine t) :
    Guarded genuine (w.put t) := ⟨ht, h.sessions, h.events⟩

theorem Guarded.setSession (h : Guarded genuine w) (i : ℕ) {r : Sessions.Session}
    (hr : r.admitted → genuine r.peer r.key) : Guarded genuine (w.setSession i r) := by
  refine ⟨h.state, fun s hs ha => ?_, h.events⟩
  obtain hs | rfl := List.mem_or_eq_of_mem_set hs
  · exact h.sessions s hs ha
  · exact hr ha

theorem Guarded.report (h : Guarded genuine w) {e : NetEvent}
    (he : ∀ id key theirs size, e = .differentWorkspaces id key theirs size → genuine id key) :
    Guarded genuine (w.report e) := by
  refine ⟨h.state, h.sessions, fun id key theirs size hmem => ?_⟩
  obtain hmem | hmem := List.mem_append.mp hmem
  · exact h.events id key theirs size hmem
  · exact he id key theirs size (List.mem_singleton.mp hmem).symm

theorem Guarded.handle (h : Guarded genuine w) {message : Message} {n : ℕ} {more : Bool}
    (hm : Tells genuine message) (ht : w.handle p n message = (v, more)) : Guarded genuine v := by
  cases message with
  | docFull doc =>
    simp only [Sessions.World.handle] at ht
    split at ht
    · rename_i hmerge
      obtain ⟨rfl, -⟩ := Prod.mk.inj ht
      exact h.put (h.state.merge hm hmerge)
    · obtain ⟨rfl, -⟩ := Prod.mk.inj ht
      exact h
  | update u =>
    simp only [Sessions.World.handle] at ht
    split at ht
    · rename_i happly
      obtain ⟨rfl, -⟩ := Prod.mk.inj ht
      exact h.put (h.state.apply hm happly)
    · obtain ⟨rfl, -⟩ := Prod.mk.inj ht
      exact h
  | input events =>
    obtain ⟨rfl, -⟩ := Prod.mk.inj ht
    unfold Sessions.World.onInput
    split
    · split
      · exact ⟨h.state, h.sessions, h.events⟩
      · exact h
    · exact ⟨h.state, h.sessions, h.events⟩
  | cursorOwner machine =>
    obtain ⟨rfl, -⟩ := Prod.mk.inj ht
    exact ⟨h.state, h.sessions, h.events⟩
  | ping | pong | identify | goodbye =>
    obtain ⟨rfl, -⟩ := Prod.mk.inj ht
    exact h

theorem Guarded.authorise (h : Guarded genuine w) {i : ℕ} {addr : String}
    (hs : Sessions.step w (.authorise i addr) = some v) : Guarded genuine v := by
  simp only [Sessions.step, Option.bind_eq_bind, Option.bind_eq_some_iff] at hs
  obtain ⟨r, -, hs⟩ := hs
  split at hs
  · split at hs
    · rename_i hauth
      obtain rfl := Option.some.inj hs
      exact h.setSession i fun _ => h.state.authorize hauth
    · obtain rfl := Option.some.inj hs
      exact (h.setSession i (by simp [Sessions.Session.admitted])).report
        fun _ _ _ _ he => by cases he
  · cases hs

theorem Guarded.identify (h : Guarded genuine w) {i size : ℕ} {theirs : Option WorkspaceId}
    (hs : Sessions.step w (.identify i theirs size) = some v) : Guarded genuine v := by
  simp only [Sessions.step, Option.bind_eq_bind, Option.bind_eq_some_iff] at hs
  obtain ⟨r, hi, hs⟩ := hs
  split at hs
  · rename_i hst
    have hr : genuine r.peer r.key :=
      h.sessions r (List.mem_of_getElem? hi) (by simp [Sessions.Session.admitted, hst])
    have hest : Guarded genuine
        ((w.setSession i { r with stage := .established }).report (.online r.peer)) :=
      (h.setSession i (r := { r with stage := .established }) fun _ => hr).report
        fun _ _ _ _ he => by cases he
    split at hs
    · split at hs
      · obtain rfl := Option.some.inj hs
        refine (h.setSession i (by simp [Sessions.Session.admitted])).report fun _ _ _ _ he => ?_
        obtain ⟨rfl, rfl, -, -⟩ := NetEvent.differentWorkspaces.inj he
        exact hr
      · obtain rfl := Option.some.inj hs
        exact hest
    · obtain rfl := Option.some.inj hs
      exact hest
  · cases hs

theorem Guarded.read (h : Guarded genuine w) {i n : ℕ} {message : Message}
    (hok : Allows genuine w (.read i message n))
    (hs : Sessions.step w (.read i message n) = some v) : Guarded genuine v := by
  simp only [Sessions.step, Option.bind_eq_bind, Option.bind_eq_some_iff] at hs
  obtain ⟨r, hi, hs⟩ := hs
  split at hs
  · rename_i hst
    have hr : genuine r.peer r.key :=
      h.sessions r (List.mem_of_getElem? hi) (by simp [Sessions.Session.admitted, hst])
    have hm : Tells genuine message := hok r hi hr
    split at hs
    · rename_i ht
      obtain rfl := Option.some.inj hs
      exact h.handle hm ht
    · rename_i ht
      obtain rfl := Option.some.inj hs
      exact ((h.handle hm ht).setSession i (by simp [Sessions.Session.admitted])).report
        fun _ _ _ _ he => by cases he
  · cases hs

theorem Guarded.agentEvent (h : Guarded genuine w)
    (hs : Sessions.step w (.agentEvent now) = some v) : Guarded genuine v := by
  simp only [Sessions.step] at hs
  cases he : w.events with
  | nil => simp [he] at hs
  | cons e rest =>
    simp only [he, Option.some.injEq] at hs
    subst hs
    have hrest : Guarded genuine { w with events := rest } := by
      refine ⟨h.state, h.sessions, fun id key theirs size hmem => ?_⟩
      exact h.events id key theirs size (he ▸ List.mem_cons_of_mem e hmem)
    refine hrest.put (h.state.onNetEvent fun id key theirs size heq => ?_)
    exact h.events id key theirs size (by rw [he, heq]; exact List.mem_cons_self)

theorem Guarded.step {a : Sessions.Action} (h : Guarded genuine w) (hok : Allows genuine w a)
    (hs : Sessions.step w a = some v) : Guarded genuine v := by
  cases a with
  | handshake peer key =>
    obtain rfl := Option.some.inj hs
    refine ⟨h.state, fun s hmem ha => ?_, h.events⟩
    obtain hmem | hmem := List.mem_append.mp hmem
    · exact h.sessions s hmem ha
    · obtain rfl := List.mem_singleton.mp hmem
      cases ha
  | authorise i addr => exact h.authorise hs
  | identify i theirs size => exact h.identify hs
  | read i message n => exact h.read hok hs
  | close i =>
    simp only [Sessions.step, Option.bind_eq_bind, Option.bind_eq_some_iff] at hs
    obtain ⟨r, -, hs⟩ := hs
    obtain rfl := Option.some.inj hs
    exact (h.setSession i (by simp [Sessions.Session.admitted])).report
      fun _ _ _ _ he => by cases he
  | sighting id name key ws addr inv =>
    simp only [Sessions.step] at hs
    split at hs
    · obtain rfl := Option.some.inj hs
      exact h
    · obtain rfl := Option.some.inj hs
      exact h.report fun _ _ _ _ he => by cases he
  | agentEvent now => exact h.agentEvent hs
  | lagged =>
    simp only [Sessions.step] at hs
    split at hs
    · cases hs
    · rename_i e rest he
      obtain rfl := Option.some.inj hs
      refine ⟨h.state, h.sessions, fun id key theirs size hmem => ?_⟩
      exact h.events id key theirs size (he ▸ List.mem_cons_of_mem e hmem)
  | pair now id =>
    simp only [Sessions.step] at hs
    split at hs
    · rename_i hp
      obtain rfl := Option.some.inj hs
      exact h.put (h.state.pair hok hp).1
    · obtain rfl := Option.some.inj hs
      exact h
  | unpair now id =>
    simp only [Sessions.step] at hs
    split at hs
    · rename_i hu
      obtain rfl := Option.some.inj hs
      exact ⟨(h.state.unpair hu).1, h.sessions, h.events⟩
    · obtain rfl := Option.some.inj hs
      exact h
  | edit now op =>
    have hv : v = w.mutate now op := by
      cases op <;> simp_all [Sessions.step]
    obtain rfl := hv
    unfold Sessions.World.mutate
    split
    · rename_i hm
      refine h.put (h.state.mutate (fun r hr => ?_) hm).1
      subst hr
      exact hok
    · exact h
  | adopt id key =>
    obtain rfl := Option.some.inj hs
    exact h.put (h.state.adopt hok)
  | share on =>
    obtain rfl := Option.some.inj hs
    exact ⟨h.state, h.sessions, h.events⟩
  | takeAnnounced =>
    obtain rfl := Option.some.inj hs
    exact ⟨h.state, h.sessions, h.events⟩
  | takeRemote =>
    simp only [Sessions.step] at hs
    split at hs
    · obtain rfl := Option.some.inj hs
      exact ⟨h.state, h.sessions, h.events⟩
    · cases hs

/-- What is pushed to the peers tells of genuine machines only. -/
theorem Guarded.made {a : Sessions.Action} (h : Guarded genuine w) (hok : Allows genuine w a) :
    ∀ message ∈ made w a, Tells genuine message := by
  intro message hmem
  cases a with
  | pair now id =>
    simp only [Trust.made] at hmem
    split at hmem
    · rename_i hp
      obtain rfl := List.mem_singleton.mp hmem
      exact (h.state.pair hok hp).2 _ rfl
    · cases hmem
  | unpair now id =>
    simp only [Trust.made] at hmem
    split at hmem
    · rename_i hu
      obtain rfl := List.mem_singleton.mp hmem
      exact (h.state.unpair hu).2
    · cases hmem
  | edit now op =>
    simp only [Trust.made] at hmem
    split at hmem
    · rename_i hm
      obtain rfl := List.mem_singleton.mp hmem
      refine (h.state.mutate (fun r hr => ?_) hm).2
      subst hr
      exact hok
    · cases hmem
  | handshake | authorise | identify | read | close | sighting | agentEvent | lagged | adopt
  | share | takeAnnounced | takeRemote => cases hmem

end Guarded

/-! All of them. -/

variable {w v : World}

theorem Inv.allows (h : Inv genuine w) {m : MachineId} {a : Sessions.Action}
    (hok : Careful genuine w (.act m a)) : Allows genuine (w.agents m) a := by
  cases a with
  | read i message n => exact fun r hr hg => h.said r.peer message (hok r hr hg)
  | edit now op =>
    cases op with
    | upsertMachine record =>
      obtain ⟨d, hd, hid, hkey⟩ := hok
      show genuine record.id record.publicKey
      rw [← hid, ← hkey]
      exact h.drafts m d hd
    | setName | setSettings | removeMachine => trivial
  | pair now id => exact hok
  | adopt id key => exact hok
  | handshake | authorise | identify | close | sighting | agentEvent | lagged | unpair | share
  | takeAnnounced | takeRemote => trivial

theorem Inv.say (h : Inv genuine w) {m : MachineId} {messages : List Message}
    (hm : ∀ message ∈ messages, Tells genuine message) : Inv genuine (w.say m messages) := by
  refine ⟨h.guarded, fun n message hmem => ?_, h.drafts⟩
  by_cases hn : n = m
  · subst hn
    simp only [World.say, Function.update_self] at hmem
    obtain hmem | hmem := List.mem_append.mp hmem
    · exact h.said n message hmem
    · exact hm message hmem
  · simp only [World.say, Function.update_of_ne hn] at hmem
    exact h.said n message hmem

theorem Inv.step {a : Action} (h : Inv genuine w) (hok : Careful genuine w a)
    (hs : step w a = some v) : Inv genuine v := by
  cases a with
  | act m a =>
    obtain ⟨agent, hagent, rfl⟩ := Option.map_eq_some_iff.mp hs
    have hallows := h.allows hok
    have hnext : Inv genuine { w with agents := Function.update w.agents m agent } := by
      refine ⟨fun n => ?_, h.said, h.drafts⟩
      show Guarded genuine (Function.update w.agents m agent n)
      by_cases hn : n = m
      · subst hn
        rw [Function.update_self]
        exact (h.guarded n).step hallows hagent
      · rw [Function.update_of_ne hn]
        exact h.guarded n
    exact hnext.say ((h.guarded m).made hallows)
  | snapshot m =>
    obtain ⟨doc, hdoc, rfl⟩ := Option.map_eq_some_iff.mp hs
    refine h.say fun message hmem => ?_
    obtain rfl := List.mem_singleton.mp hmem
    intro id slot hslot
    refine (h.guarded m).state.slots id slot ?_
    simpa [State.slot, hdoc] using hslot
  | view m id =>
    obtain ⟨record, hrecord, rfl⟩ := Option.map_eq_some_iff.mp hs
    refine ⟨h.guarded, h.said, fun n d hd => ?_⟩
    by_cases hn : n = m
    · subst hn
      simp only [Function.update_self] at hd
      obtain hd | hd := List.mem_append.mp hd
      · exact h.drafts n d hd
      · obtain rfl := List.mem_singleton.mp hd
        obtain ⟨hid, hkey⟩ := (h.guarded n).state.machine hrecord
        rw [hid]
        exact hkey
    · simp only [Function.update_of_ne hn] at hd
      exact h.drafts n d hd

theorem Fresh.inv (h : Fresh genuine w) : Inv genuine w := by
  refine ⟨fun m => ?_, fun m message hmem => ?_, fun m d hd => ?_⟩
  · obtain ⟨s, heq, hs⟩ := h.agents m
    rw [heq]
    exact ⟨hs, by simp [Sessions.start], by simp [Sessions.start]⟩
  · rw [h.said m] at hmem
    cases hmem
  · rw [h.drafts m] at hd
    cases hd

/-- Whatever strangers announce, connect with and send: as long as people admit genuine machines
only, no machine lets a stranger in, none has a session with one beyond the introduction, and none
takes a message from one. -/
theorem strangers_stay_out {as : List Action} (hw : Fresh genuine w)
    (h : Run step (Careful genuine) w as v) (m : MachineId) :
    (∀ id key, (v.agents m).state.authorize id key = true → genuine id key) ∧
      (∀ s ∈ (v.agents m).sessions, s.admitted → genuine s.peer s.key) ∧
      ∀ i message n, (Sessions.step (v.agents m) (.read i message n)).isSome →
        ∃ s, (v.agents m).sessions[i]? = some s ∧ genuine s.peer s.key := by
  have hv : Inv genuine v := h.invariant (fun _ _ _ hi hok hs => hi.step hok hs) hw.inv
  have hm := hv.guarded m
  refine ⟨fun id key ha => hm.state.authorize ha, hm.sessions, fun i message n hsome => ?_⟩
  simp only [Sessions.step, Option.bind_eq_bind] at hsome
  cases hi : (v.agents m).sessions[i]? with
  | none => simp [hi] at hsome
  | some s =>
    refine ⟨s, rfl, hm.sessions s (List.mem_of_getElem? hi) ?_⟩
    simp only [hi, Option.bind_some] at hsome
    split at hsome
    · rename_i hst
      simp [Sessions.Session.admitted, hst]
    · cases hsome

instance [∀ id key, Decidable (genuine id key)] (w : World) :
    (a : Action) → Decidable (Careful genuine w a)
  | .act m (.pair _ id) => inferInstanceAs (Decidable
      (∀ c ∈ (w.agents m).state.candidates[id]?, genuine c.machineId c.identityKey))
  | .act _ (.adopt id key) => inferInstanceAs (Decidable (genuine id key))
  | .act m (.edit _ (.upsertMachine record)) => inferInstanceAs (Decidable
      (∃ d ∈ w.drafts m, d.id = record.id ∧ d.publicKey = record.publicKey))
  | .act m (.read i message _) => inferInstanceAs (Decidable (∀ s ∈ (w.agents m).sessions[i]?,
      genuine s.peer s.key → message ∈ w.said s.peer))
  | .act _ (.edit _ (.setName _)) | .act _ (.edit _ (.setSettings _))
  | .act _ (.edit _ (.removeMachine _)) | .act _ (.handshake ..) | .act _ (.authorise ..)
  | .act _ (.identify ..) | .act _ (.close _) | .act _ (.sighting ..) | .act _ (.agentEvent _)
  | .act _ .lagged | .act _ (.unpair ..) | .act _ (.share _) | .act _ .takeAnnounced
  | .act _ .takeRemote | .snapshot _ | .view .. => .isTrue trivial

/-- A studio with a workspace, and machines that have none. -/
def office : World where
  agents m := Sessions.start m (if m = 1 then .ofDoc Store.desk else ⟨none, ∅, ∅, ∅⟩)
  said _ := []
  drafts _ := []

def Owned (id : MachineId) (key : PubKey) : Prop := key = 10 + id

instance (id : MachineId) (key : PubKey) : Decidable (Owned id key) :=
  inferInstanceAs (Decidable (key = 10 + id))

theorem fresh_office : Fresh Owned office := by
  refine ⟨fun m => ⟨_, rfl, ?_⟩, fun _ => rfl, fun _ => rfl⟩
  by_cases hm : m = 1
  · simp only [hm, if_true]
    refine ⟨fun id slot hslot r hr => ?_, fun id key hk => by simp [State.ofDoc] at hk⟩
    have hdesk : ((∅ : Machines).insert 1 ⟨⟨1, 1, 0⟩, .present studio⟩)[id]? = some slot := hslot
    rw [Std.ExtTreeMap.getElem?_insert] at hdesk
    split at hdesk
    · rename_i hid
      rw [compare_eq_iff_eq] at hid
      subst hid
      obtain rfl := Option.some.inj hdesk
      obtain rfl := SlotState.present.inj hr
      exact ⟨rfl, rfl⟩
    · simp at hdesk
  · simp only [hm, if_false]
    exact ⟨fun id slot hslot => (by cases hslot), fun id key hk => by simp at hk⟩

def joint : WorkspaceDoc := (Store.desk.edit 1 0 (.upsertMachine laptop)).1

/-- The laptop joins the studio's workspace, while a stranger announces himself, and connects
under the name of the laptop. -/
def joining : List Action :=
  [.act 1 (.sighting 3 "Studio" 99 none "10.0.0.9:47452" true), .act 1 (.agentEvent 0),
    .act 1 (.sighting 2 "Laptop" 12 none "10.0.0.2:47452" true), .act 1 (.agentEvent 0),
    .act 1 (.pair 0 2), .act 1 (.handshake 2 99), .act 1 (.authorise 0 "10.0.0.9:50000"),
    .act 2 (.sighting 1 "Studio" 11 (some 7) "10.0.0.1:47452" true), .act 2 (.agentEvent 0),
    .act 2 (.pair 0 1), .act 2 (.handshake 1 11), .act 2 (.authorise 0 "10.0.0.1:47452"),
    .act 2 (.identify 0 (some 7) 2), .snapshot 1, .act 2 (.read 0 (.docFull joint) 0)]

theorem strangers_stay_out_joining : ∃ v, Run step (Careful Owned) office joining v ∧
    (v.agents 2).state.authorize 1 11 = true ∧
    ((v.agents 1).sessions.map fun s => (s.key, s.stage)) = [(99, .closed)] ∧
    ((∀ id key, (v.agents 2).state.authorize id key = true → Owned id key) ∧
      (∀ s ∈ (v.agents 2).sessions, s.admitted → Owned s.peer s.key) ∧
      ∀ i message n, (Sessions.step (v.agents 2) (.read i message n)).isSome →
        ∃ s, (v.agents 2).sessions[i]? = some s ∧ Owned s.peer s.key) := by
  obtain ⟨v, hrun, hv⟩ := run_of_replay step (Careful Owned) office joining
    (fun v => ((v.agents 2).state.authorize 1 11,
      (v.agents 1).sessions.map fun s => (s.key, s.stage))) (b := (true, [(99, .closed)]))
    (by decide +kernel)
  obtain ⟨hauth, hsessions⟩ := Prod.mk.inj hv
  exact ⟨v, hrun, hauth, hsessions, strangers_stay_out fresh_office hrun 2⟩

end InputShare.Trust

import InputShare.Lib.Inbox
import InputShare.Net.Lifecycle

/-! What the actor believes of its peers, and the sessions that are really there. -/
namespace InputShare
open Runs SessionTask Inbox

namespace Service

/-- The machine that answers a dialled connection is the one it was meant for, in every session. -/
def RightPeers (w : Service) : Prop :=
  ∀ (i : ℕ) (t : SessionTask), w.tasks[i]? = some t → RightPeer t

theorem getElem?_onStep {w : Service} {i j : ℕ} {t u x : SessionTask} {s : State}
    {os : List SessionOutcome} (ht : w.tasks[i]? = some t)
    (hx : (w.onStep i u s os).tasks[j]? = some x) :
    (j = i ∧ x = u) ∨ (j ≠ i ∧ w.tasks[j]? = some x) := by
  have hlt := (List.getElem?_eq_some_iff.mp ht).1
  obtain rfl | hne := eq_or_ne j i
  · exact .inl ⟨rfl, Option.some.inj (hx.symm.trans (List.getElem?_set_self hlt))⟩
  · refine .inr ⟨hne, ?_⟩
    rwa [onStep, List.getElem?_set_ne hne.symm] at hx

theorem onStep_self {w : Service} {i : ℕ} {t u : SessionTask} {s : State}
    {os : List SessionOutcome} (ht : w.tasks[i]? = some t) :
    (w.onStep i u s os).tasks[i]? = some u :=
  List.getElem?_set_self (List.getElem?_eq_some_iff.mp ht).1

theorem onStep_ne {w : Service} {i j : ℕ} {u : SessionTask} {s : State} {os : List SessionOutcome}
    (hne : j ≠ i) : (w.onStep i u s os).tasks[j]? = w.tasks[j]? :=
  List.getElem?_set_ne hne.symm

theorem onStep_peers (w : Service) (i : ℕ) (u : SessionTask) (s : State)
    (os : List SessionOutcome) : (w.onStep i u s os).actor.peers = w.actor.peers := by
  simp only [onStep]
  split <;> rfl

theorem mem_dial {w : Service} {dials : List (MachineId × String)} {i : ℕ} {t : SessionTask}
    (h : (w.tasks ++ w.dial dials)[i]? = some t) :
    w.tasks[i]? = some t ∨ ∃ p addr, (p, addr) ∈ dials ∧ t = .spawnDial w.identity i p addr := by
  obtain hlt | hge := Nat.lt_or_ge i w.tasks.length
  · exact .inl (by rwa [List.getElem?_append_left hlt] at h)
  · rw [List.getElem?_append_right hge, dial, List.getElem?_mapIdx, Option.map_eq_some_iff] at h
    obtain ⟨⟨p, addr⟩, hd, rfl⟩ := h
    refine .inr ⟨p, addr, List.mem_of_getElem? hd, ?_⟩
    rw [Nat.add_sub_cancel' hge]

theorem exists_dial {w : Service} {dials : List (MachineId × String)} {p : MachineId}
    {addr : String} (h : (p, addr) ∈ dials) :
    ∃ i : ℕ, (w.tasks ++ w.dial dials)[i]? = some (.spawnDial w.identity i p addr) := by
  obtain ⟨n, hn⟩ := List.mem_iff_getElem?.mp h
  refine ⟨w.tasks.length + n, ?_⟩
  rw [List.getElem?_append_right (Nat.le_add_right _ _), Nat.add_sub_cancel_left, dial,
    List.getElem?_mapIdx, hn]
  rfl

theorem RightPeers.step {w v : Service} {a : Action} (h : RightPeers w) (hs : step w a = some v) :
    RightPeers v := by
  intro i t ht
  cases stepped hs with
  | handled hm hh =>
    obtain hold | ⟨p, addr, -, rfl⟩ := mem_dial ht
    · exact h i t hold
    · simp [RightPeer, spawnDial, Stage.peer, Stage.open]
  | moved hi hstep =>
    obtain ⟨rfl, rfl⟩ | ⟨-, hold⟩ := getElem?_onStep hi ht
    · exact (h _ _ hi).step hstep
    · exact h i t hold
  | quiet hq =>
    obtain ⟨x, hx, hsame⟩ | ⟨-, addr, rfl⟩ := hq.came i t ht
    · have := h i x hx
      rwa [RightPeer, ← hsame.stage, ← hsame.expect] at this
    · simp [RightPeer, spawnAccepted, Stage.peer, Stage.open]

/-! A peer that is being connected to. -/

/-- A dial task of `p` has still to report how it went. -/
def unsettled : Stage → Bool
  | .failed _ => true
  | stage => stage.early

/-- A dial task of `p` will settle whether it is connected, or has done so in the inbox. -/
def Awaited (w : Service) (p : MachineId) : Prop :=
  ∃ i t, w.tasks[i]? = some t ∧ t.expect = some p ∧
    (unsettled t.stage = true ∨ ∃ o, .session i o ∈ w.inbox ∧ Actor.settles p o = true)

/-- A peer is being connected to only while a dial task for it runs, or an outcome of that task is
in the inbox. -/
def NotStranded (w : Service) : Prop :=
  ∀ p slot, w.actor.peers[p]? = some slot → slot.status = .connecting →
    ∃ i t, w.tasks[i]? = some t ∧ t.expect = some p ∧
      (t.stage ≠ .ended ∨ ∃ o, .session i o ∈ w.inbox)

def letsIn (agent : State) : Stage → Bool
  | .greeted peer key => agent.authorize peer key
  | _ => true

/-- Whoever answers a dialled connection is let in by the agent, and sends no signature on which the
decoder panics. -/
def Admits (w : Service) : Action → Prop
  | .session i .authorise => ∀ t ∈ w.tasks[i]?, t.dialled = true → letsIn w.agent t.stage = true
  | .session i (.panicked _) => ∀ t ∈ w.tasks[i]?, t.dialled = false
  | _ => True

theorem Awaited.moved {w : Service} {i : ℕ} {e : SessionTask.Event} {t u : SessionTask} {s : State}
    {os : List SessionOutcome} {p : MachineId} (h : Awaited w p) (hr : RightPeers w)
    (hok : Admits w (.session i e)) (ht : w.tasks[i]? = some t)
    (hstep : SessionTask.Stepped t w.agent e u s os) : Awaited (w.onStep i u s os) p := by
  obtain ⟨j, x, hx, hexp, h⟩ := h
  have hin : ∀ o, .session j o ∈ w.inbox → .session j o ∈ (w.onStep i u s os).inbox :=
    fun o ho => List.mem_append_left _ ho
  have hout : ∀ o ∈ os, .session i o ∈ (w.onStep i u s os).inbox :=
    fun o ho => List.mem_append_right _ (List.mem_map_of_mem ho)
  obtain rfl | hne := eq_or_ne j i
  · obtain rfl := Option.some.inj (ht.symm.trans hx)
    refine ⟨j, u, onStep_self ht, hstep.expect.1.trans hexp, ?_⟩
    obtain h | ⟨o, ho, hp⟩ := h
    · have hpeer : ∀ peer, t.stage.peer = some peer → p = peer :=
        fun peer hst => hr j t ht peer hst p hexp
      cases hstep with
      | connected | greeted | admitted | identify | refused | unidentified | dropped =>
        exact .inl rfl
      | rejected hst ha =>
        have hin := hok t ht (by simp [dialled, hexp])
        simp [hst, letsIn, ha] at hin
      | panicked =>
        have hin := hok t ht
        simp [dialled, hexp] at hin
      | different hst | established hst =>
        refine .inr ⟨_, hout _ List.mem_cons_self, ?_⟩
        simpa [Actor.settles] using (hpeer _ (by rw [hst]; rfl)).symm
      | @report error hst =>
        exact .inr ⟨.closed p (.error error), hout _ (by simp [hexp]), by simp [Actor.settles]⟩
      | snapshot hst | nothing hst | synced hst | unsynced hst | read hst | lost hst | close hst =>
        rw [hst] at h
        cases h
    · exact .inr ⟨o, hin o ho, hp⟩
  · refine ⟨j, x, (onStep_ne hne).trans hx, hexp, h.imp_right ?_⟩
    rintro ⟨o, ho, hp⟩
    exact ⟨o, hin o ho, hp⟩

theorem awaited_step {w v : Service} {a : Action} (hr : RightPeers w)
    (h : ∀ p slot, w.actor.peers[p]? = some slot → slot.status = .connecting → Awaited w p)
    (hok : Admits w a) (hs : step w a = some v) :
    ∀ p slot, v.actor.peers[p]? = some slot → slot.status = .connecting → Awaited v p := by
  intro p slot hp hst
  cases stepped hs with
  | handled hm hh =>
    obtain ⟨-, hon⟩ | hoff | ⟨-, addr, hd⟩ | ⟨old, hold, hsame, hno⟩ := Actor.handle_status hh hp
    · simp [hst] at hon
    · simp [hst] at hoff
    · obtain ⟨i, hi⟩ := exists_dial (w := w) hd
      exact ⟨i, _, hi, rfl, .inl rfl⟩
    · obtain ⟨i, t, ht, hexp, hset⟩ := h p old hold (hsame.symm.trans hst)
      refine ⟨i, t, ?_, hexp, hset.imp_right ?_⟩
      · rw [List.getElem?_append_left (List.getElem?_eq_some_iff.mp ht).1]
        exact ht
      · -- the message handled settles nothing about this peer
        rintro ⟨o, ho, hp⟩
        rw [hm] at ho
        obtain ho | ho := List.mem_cons.mp ho
        · simp [hno i o ho.symm] at hp
        · exact ⟨o, ho, hp⟩
  | moved ht hstep =>
    rw [onStep_peers] at hp
    exact (h p slot hp hst).moved hr hok ht hstep
  | quiet hq =>
    rw [hq.peers] at hp
    obtain ⟨i, t, ht, hexp, hset⟩ := h p slot hp hst
    obtain ⟨u, hu, hsame⟩ := hq.kept i t ht
    obtain ⟨ms, hin, -⟩ := hq.inbox
    refine ⟨i, u, hu, hsame.expect.trans hexp, ?_⟩
    rw [hsame.stage, hin]
    refine hset.imp_right ?_
    rintro ⟨o, ho, hp⟩
    exact ⟨o, List.mem_append_left _ ho, hp⟩

theorem Awaited.notStranded {w : Service} {p : MachineId} (h : Awaited w p) :
    ∃ i t, w.tasks[i]? = some t ∧ t.expect = some p ∧
      (t.stage ≠ .ended ∨ ∃ o, .session i o ∈ w.inbox) := by
  obtain ⟨i, t, ht, hexp, h⟩ := h
  refine ⟨i, t, ht, hexp, h.imp (fun hu hend => ?_) fun ⟨o, ho, _⟩ => ⟨o, ho⟩⟩
  rw [hend] at hu
  cases hu

/-- While the agent lets in whoever answers a dialled connection and can read its signature, no peer
is stranded. -/
theorem notStranded_of_admits {identity : Identity} {agent : State} {now : ℕ} {as : List Action}
    {w : Service} (h : Run step Admits (start identity agent now) as w) : NotStranded w := by
  have hinv := h.invariant (I := fun w => RightPeers w ∧
    ∀ p slot, w.actor.peers[p]? = some slot → slot.status = .connecting → Awaited w p)
    (fun w a v hw hok hs => ⟨hw.1.step hs, awaited_step hw.1 hw.2 hok hs⟩)
    ⟨fun i t ht => by simp [start] at ht, fun p slot hp => by simp [start] at hp⟩
  exact fun p slot hp hst => (hinv.2 p slot hp hst).notStranded

instance (w : Service) (a : Action) : Decidable (Admits w a) :=
  match a with
  | .session i .authorise => inferInstanceAs (Decidable (∀ t ∈ w.tasks[i]?, _ → _))
  | .session i (.panicked _) => inferInstanceAs (Decidable (∀ t ∈ w.tasks[i]?, _))
  | .session _ .connected | .session _ (.hello _) | .session _ .identify
  | .session _ (.identified _) | .session _ .snapshot | .session _ (.docFull ..)
  | .session _ (.read _) | .session _ (.failed _) | .session _ .close | .session _ .report
  | .handle | .send _ | .accept _ | .write .. | .edit _ | .pair _ | .unpair _ | .push _
  | .agentEvent _ | .elapse _ => .isTrue trivial

/-- The studio, whose workspace has the laptop in it. -/
def atStudio : Service := start ⟨1, 11⟩ (.ofDoc together) 0

def answered : List Action :=
  [.send (.sighting ⟨2, "Laptop", 12, some 7, [], "10.0.0.2"⟩), .handle, .send .tick, .handle,
    .session 0 .connected]

def answeredWith (key : PubKey) : List Action :=
  answered ++ [.session 0 (.hello (begin ⟨2, key⟩ 7).hello), .session 0 .authorise]

theorem notStranded_of_admits_paired :
    ∃ w, Run step Admits atStudio (answeredWith 12) w ∧
      w.tasks.map SessionTask.stage = [.admitted 2 12] ∧ NotStranded w := by
  obtain ⟨w, hrun, hw⟩ := run_of_replay step Admits atStudio (answeredWith 12)
    (fun w => w.tasks.map SessionTask.stage) (b := [.admitted 2 12]) (by decide +kernel)
  exact ⟨w, hrun, hw, notStranded_of_admits hrun⟩

/-- The laptop waits to be connected to, and nothing is left that could change it. -/
theorem not_notStranded {w : Service} (htasks : w.tasks.map SessionTask.stage = [.ended])
    (hin : w.inbox = []) (hst : w.actor.peers[2]?.map PeerSlot.status = some .connecting) :
    ¬ NotStranded w := by
  obtain ⟨slot, hslot, hst⟩ := Option.map_eq_some_iff.mp hst
  intro h
  obtain ⟨i, t, ht, -, hlive⟩ := h 2 slot hslot hst
  rw [hin] at hlive
  have hmem := List.mem_map_of_mem (f := SessionTask.stage) (List.mem_of_getElem? ht)
  rw [htasks, List.mem_singleton] at hmem
  simp [hmem] at hlive

/-- A stranger answers at the address: once its refusal is handled nothing is left that could take
the laptop out of `connecting`. -/
theorem refused_dial_strands :
    ∃ as w, Run step Any atStudio as w ∧ ¬ NotStranded w := by
  obtain ⟨w, hrun, hw⟩ := run_of_replay step Any atStudio (answeredWith 99 ++ [.handle])
    (fun w => (w.tasks.map SessionTask.stage, w.inbox, w.actor.peers[2]?.map PeerSlot.status))
    (b := ([.ended], [], some .connecting)) (by decide +kernel)
  simp only [Prod.mk.injEq] at hw
  exact ⟨_, w, hrun, not_notStranded hw.1 hw.2.1 hw.2.2⟩

/-- The signature in an answer, of the right length in bytes, makes the decoder panic, and the task
is gone without a word. -/
theorem panicked_dial_strands :
    ∃ as w, Run step Any atStudio as w ∧ ¬ NotStranded w := by
  obtain ⟨w, hrun, hw⟩ := run_of_replay step Any atStudio
    (answered ++ [.session 0 (.panicked (String.ofList ('€' :: List.replicate 125 '0')))])
    (fun w => (w.tasks.map SessionTask.stage, w.inbox, w.actor.peers[2]?.map PeerSlot.status))
    (b := ([.ended], [], some .connecting)) (by decide +kernel)
  simp only [Prod.mk.injEq] at hw
  exact ⟨_, w, hrun, not_notStranded hw.1 hw.2.1 hw.2.2⟩

/-! A peer that is online. -/

/-- Session `i` with `p` is open, or was dialled and has failed. -/
def Alive (w : Service) (i : ℕ) (p : MachineId) : Prop :=
  ∃ t, w.tasks[i]? = some t ∧
    (t.stage.open = some p ∨ t.expect = some p ∧ ∃ e, t.stage = .failed e)

/-- Session `i` with `p` has still to report its end, or has done so in `ms`. -/
def Owing (w : Service) (i : ℕ) (p : MachineId) (ms : List Internal) : Prop :=
  w.Alive i p ∨ ∃ reason, .session i (.closed p reason) ∈ ms

/-- A peer is online only while a session with it runs, or its end is reported in the inbox. -/
def NoGhosts (w : Service) : Prop :=
  ∀ p slot, w.actor.peers[p]? = some slot → slot.status = .online → ∃ i, w.Owing i p w.inbox

/-- Every session accepted gets its document through. -/
def Syncs (w : Service) : Action → Prop
  | .session i (.docFull length failure) =>
    ∀ t ∈ w.tasks[i]?, t.dialled = true ∨ writeFrame length failure = none
  | _ => True

theorem Owing.mono {w : Service} {i : ℕ} {p : MachineId} {ms ns : List Internal}
    (h : w.Owing i p ms) (hs : ms ⊆ ns) : w.Owing i p ns :=
  h.imp_right fun ⟨reason, hr⟩ => ⟨reason, hs hr⟩

theorem Owing.moved {w : Service} {i j : ℕ} {e : SessionTask.Event} {t u : SessionTask} {s : State}
    {os : List SessionOutcome} {p : MachineId} {ms : List Internal} (h : w.Owing j p ms)
    (hr : RightPeers w) (hok : Syncs w (.session i e)) (ht : w.tasks[i]? = some t)
    (hstep : SessionTask.Stepped t w.agent e u s os) :
    (w.onStep i u s os).Owing j p (ms ++ os.map (.session i)) := by
  have hout : ∀ reason, .closed p reason ∈ os → j = i →
      (w.onStep i u s os).Owing j p (ms ++ os.map (.session i)) := by
    rintro reason hm rfl
    exact .inr ⟨reason, List.mem_append_right _ (List.mem_map_of_mem hm)⟩
  obtain ⟨x, hx, h⟩ | ⟨reason, h⟩ := h
  · obtain rfl | hne := eq_or_ne j i
    · obtain rfl := Option.some.inj (ht.symm.trans hx)
      obtain ho | ⟨hexp, error, hst⟩ := h
      · obtain hopen | ⟨reason, hm⟩ | ⟨huns, hfail⟩ := hstep.open_step ho
        · exact .inl ⟨u, onStep_self ht, .inl hopen⟩
        · exact hout reason hm rfl
        · -- it was dialled, so it will report the error
          have hdialled : t.dialled = true := by
            cases e with
            | docFull length failure =>
              refine (hok t ht).resolve_right fun hnone => ?_
              simp [Event.unsynced, hnone] at huns
            | _ => cases huns
          obtain ⟨q, hq⟩ := Option.isSome_iff_exists.mp hdialled
          have hqp : q = p := hr j t ht p (by cases hst : t.stage <;>
            simp [hst, Stage.peer, Stage.open] at ho ⊢ <;> exact ho) q hq
          exact .inl ⟨u, onStep_self ht, .inr ⟨by rw [hstep.expect.1, hq, hqp], hfail⟩⟩
      · exact hout _ (hstep.failed_step hexp hst) rfl
    · exact .inl ⟨x, (onStep_ne hne).trans hx, h⟩
  · exact .inr ⟨reason, List.mem_append_left _ h⟩

/-- What keeps ghosts away: behind the report that a session is established comes that of its
end. -/
structure Owed (w : Service) : Prop where
  peers : RightPeers w
  online : NoGhosts w
  inbox : ∀ i p name n, Behind w.inbox (.session i (.established p name n)) (w.Owing i p)

theorem Owing.tasks {w v : Service} {i : ℕ} {p : MachineId} {ms : List Internal}
    (h : w.Owing i p ms) (hk : ∀ t, w.tasks[i]? = some t →
      ∃ u, v.tasks[i]? = some u ∧ u.stage = t.stage ∧ u.expect = t.expect) : v.Owing i p ms := by
  refine h.imp_left ?_
  rintro ⟨t, ht, h⟩
  obtain ⟨u, hu, hst, hexp⟩ := hk t ht
  exact ⟨u, hu, by rwa [hst, hexp]⟩

theorem Owing.dialled {w v : Service} {dials : List (MachineId × String)} {i : ℕ} {p : MachineId}
    {ms : List Internal} (hv : v.tasks = w.tasks ++ w.dial dials) (h : w.Owing i p ms) :
    v.Owing i p ms := by
  refine h.tasks fun t ht => ⟨t, ?_, rfl, rfl⟩
  rwa [hv, List.getElem?_append_left (List.getElem?_eq_some_iff.mp ht).1]

theorem Owing.quiet {w v : Service} {i : ℕ} {p : MachineId} {ms : List Internal} (hq : Quiet w v)
    (h : w.Owing i p ms) : v.Owing i p ms := by
  refine h.tasks fun t ht => ?_
  obtain ⟨u, hu, hsame⟩ := hq.kept i t ht
  exact ⟨u, hu, hsame.stage, hsame.expect⟩

theorem Owed.online_step {w v : Service} {a : Action} (h : Owed w) (hok : Syncs w a)
    (hs : step w a = some v) : NoGhosts v := by
  intro p slot hp hst
  cases stepped hs with
  | handled hm hh =>
    obtain ⟨⟨i, name, n, rfl⟩, -⟩ | hoff | ⟨hcon, -⟩ | ⟨old, hold, hsame, hno⟩ :=
      Actor.handle_status hh hp
    · have hbehind := h.inbox i p name n
      rw [hm] at hbehind
      exact ⟨i, hbehind.head.dialled rfl⟩
    · simp [hst] at hoff
    · simp [hst] at hcon
    · obtain ⟨i, ho | ⟨reason, hr⟩⟩ := h.online p old hold (hsame.symm.trans hst)
      · exact ⟨i, Owing.dialled rfl (.inl ho)⟩
      · rw [hm] at hr
        obtain hr | hr := List.mem_cons.mp hr
        · simpa [Actor.settles] using hno i _ hr.symm
        · exact ⟨i, .inr ⟨reason, hr⟩⟩
  | moved ht hstep =>
    rw [onStep_peers] at hp
    obtain ⟨i, ho⟩ := h.online p slot hp hst
    exact ⟨i, ho.moved h.peers hok ht hstep⟩
  | quiet hq =>
    rw [hq.peers] at hp
    obtain ⟨i, ho⟩ := h.online p slot hp hst
    obtain ⟨ms, hin, -⟩ := hq.inbox
    rw [hin]
    exact ⟨i, (ho.mono (List.subset_append_left _ _)).quiet hq⟩

theorem Owed.inbox_step {w v : Service} {a : Action} (h : Owed w) (hok : Syncs w a)
    (hs : step w a = some v) (i : ℕ) (p : MachineId) (name : String) (n : ℕ) :
    Behind v.inbox (.session i (.established p name n)) (v.Owing i p) := by
  have hbehind := h.inbox i p name n
  cases stepped hs with
  | handled hm hh =>
    rw [hm] at hbehind
    exact hbehind.tail.mono fun ms ho => ho.dialled rfl
  | @moved k e t u s os ht hstep =>
    refine hbehind.append (fun ms ho => ho.moved h.peers hok ht hstep) fun ns hsuf => ?_
    -- it has just been reported
    obtain ⟨o, ho, heq⟩ := List.mem_map.mp (hsuf.subset List.mem_cons_self)
    obtain ⟨rfl, rfl⟩ := Internal.session.inj heq
    exact .inl ⟨u, onStep_self ht, .inl (hstep.open_of_established ho)⟩
  | quiet hq =>
    obtain ⟨ms, hin, hno⟩ := hq.inbox
    rw [hin]
    exact hbehind.append (fun ns ho => (ho.mono (List.subset_append_left _ _)).quiet hq)
      (behind_of_not_mem (hno i _))

theorem owed_run {identity : Identity} {agent : State} {now : ℕ} {as : List Action} {w : Service}
    (h : Run step Syncs (start identity agent now) as w) : Owed w := by
  refine h.invariant (fun w a v hw hok hs => ⟨hw.peers.step hs, hw.online_step hok hs,
    hw.inbox_step hok hs⟩) ⟨fun i t ht => by simp [start] at ht,
    fun p slot hp => by simp [start] at hp, fun i p name n => behind_of_not_mem (by simp [start])⟩

/-- A session that was established reports its end exactly once, unless it was accepted and its
document could not be sent; and where that does not happen, only a peer with a session that has
still to end is online. -/
theorem ends_reported {t : SessionTask} {es : List (State × SessionTask.Event)} {x : Execution}
    (ht : Fresh t) (h : Run Execution.step Any ⟨t, [], []⟩ es x) (hend : x.task.stage = .ended)
    {peer : MachineId} {name : String} {number : ℕ}
    (hest : .established peer name number ∈ x.reported) :
    (ClosedOnce x peer ↔ t.dialled = true ∨ x.events.any SessionTask.Event.unsynced = false) ∧
    ∀ (identity : Identity) (agent : State) (now : ℕ) (as : List Action) (w : Service),
      Run step Syncs (start identity agent now) as w → NoGhosts w :=
  ⟨closedOnce_iff ht h hend hest, fun _ _ _ _ _ h => (owed_run h).online⟩

instance (w : Service) (a : Action) : Decidable (Syncs w a) :=
  match a with
  | .session i (.docFull length failure) =>
    inferInstanceAs (Decidable (∀ t ∈ w.tasks[i]?, _ ∨ writeFrame length failure = none))
  | .session _ .connected | .session _ (.hello _) | .session _ (.panicked _)
  | .session _ .identify | .session _ .authorise
  | .session _ (.identified _) | .session _ .snapshot
  | .session _ (.read _) | .session _ (.failed _) | .session _ .close | .session _ .report
  | .handle | .send _ | .accept _ | .write .. | .edit _ | .pair _ | .unpair _ | .push _
  | .agentEvent _ | .elapse _ => .isTrue trivial

def atLaptop : Service := start ⟨2, 12⟩ (.ofDoc together) 0

/-- What happens to a session with this machine, up to where both have identified themselves. -/
def opening (peer : Identity) (displayName : String) (nonce : ℕ) : List SessionTask.Event :=
  [.hello (begin peer nonce).hello, .authorise, .identify,
    .identified (.identify displayName (some 7) 2)]

def accepting (i : ℕ) : List Action :=
  .accept "10.0.0.1" :: (opening ⟨1, 11⟩ "Studio" i).map (.session i)

/-- The connection is reset while the document is being sent. -/
def reset : List SessionTask.Event :=
  [.snapshot, .docFull 900 (some (.io "connection reset")), .report]

/-- On the connection the studio dials the reset is reported; and the laptop, once its document is
through, has a session with the studio. -/
theorem ends_reported_dialled :
    (∃ es x, Run Execution.step Any ⟨.spawnDial ⟨1, 11⟩ 0 2 "10.0.0.2", [], []⟩ es x ∧
      x.events.any SessionTask.Event.unsynced = true ∧ ClosedOnce x 2) ∧
    ∃ as w, Run step Syncs atLaptop as w ∧
      w.actor.peers[1]?.map PeerSlot.status = some .online ∧ NoGhosts w := by
  obtain ⟨x, hx, hseen⟩ := run_of_replay Execution.step Any
    ⟨.spawnDial ⟨1, 11⟩ 0 2 "10.0.0.2", [], []⟩
    ((.connected :: opening ⟨2, 12⟩ "Laptop" 7 ++ reset).map fun e => (.ofDoc together, e))
    (fun x => (x.task.stage, decide (.established 2 "Laptop" 0 ∈ x.reported),
      x.events.any SessionTask.Event.unsynced))
    (b := (.ended, true, true)) (by decide +kernel)
  obtain ⟨w, hw, honline⟩ := run_of_replay step Syncs atLaptop
    (accepting 0 ++ [.handle, .session 0 .snapshot, .session 0 (.docFull 900 none)])
    (fun w => w.actor.peers[1]?.map PeerSlot.status) (b := some .online) (by decide +kernel)
  simp only [Prod.mk.injEq, decide_eq_true_eq] at hseen
  obtain ⟨hend, hest, huns⟩ := hseen
  obtain ⟨hclosed, hghosts⟩ :=
    ends_reported (t := .spawnDial ⟨1, 11⟩ 0 2 "10.0.0.2") rfl hx hend hest
  exact ⟨⟨_, x, hx, huns, hclosed.mpr (.inl rfl)⟩, _, w, hw, honline, hghosts _ _ _ _ w hw⟩

/-- A session accepted and established ends without a word, and the studio stays online at the
laptop with no session left. -/
theorem accepted_end_unreported :
    (∃ as x, Run Execution.step Any ⟨.spawnAccepted ⟨2, 12⟩ 0 "10.0.0.1", [], []⟩ as x ∧
      x.task.stage = .ended ∧ .established 1 "Studio" 0 ∈ x.reported ∧ ¬ ClosedOnce x 1) ∧
    ∃ as w, Run step Any atLaptop as w ∧ ¬ NoGhosts w := by
  constructor
  · obtain ⟨x, hrun, hx⟩ := run_of_replay Execution.step Any
      ⟨.spawnAccepted ⟨2, 12⟩ 0 "10.0.0.1", [], []⟩
      ((opening ⟨1, 11⟩ "Studio" 7 ++ reset).map fun e => (.ofDoc together, e))
      (fun x => (x.task.stage, x.reported)) (b := (.ended, [.established 1 "Studio" 0]))
      (by decide +kernel)
    simp only [Prod.mk.injEq] at hx
    refine ⟨_, x, hrun, hx.1, by simp [hx.2], ?_⟩
    simp [ClosedOnce, hx.2, closes]
  · obtain ⟨w, hrun, hw⟩ := run_of_replay step Any atLaptop
      (accepting 0 ++ [.handle] ++ reset.map (.session 0))
      (fun w => (w.tasks.map fun t => (t.stage, t.expect), w.inbox,
        w.actor.peers[1]?.map PeerSlot.status))
      (b := ([(.ended, none)], [], some .online)) (by decide +kernel)
    simp only [Prod.mk.injEq, Option.map_eq_some_iff] at hw
    obtain ⟨htasks, hin, slot, hslot, hst⟩ := hw
    refine ⟨_, w, hrun, fun h => ?_⟩
    obtain ⟨i, ⟨t, ht, hlive⟩ | ⟨reason, hr⟩⟩ := h 1 slot hslot hst
    · have hmem := List.mem_map_of_mem (f := fun t : SessionTask => (t.stage, t.expect))
        (List.mem_of_getElem? ht)
      rw [htasks, List.mem_singleton, Prod.mk.injEq] at hmem
      simp [hmem, Stage.open] at hlive
    · simp [hin] at hr

end Service
end InputShare

import InputShare.Net.Peers

/-! Sessions with one peer that overlap. An outcome names the peer and not the session, so the end
of an old session is taken for that of a newer one. -/
namespace InputShare
open Runs SessionTask Inbox

namespace Service

/-- Session `j` was established, and not before session `i`. -/
def Later (order : List ℕ) (i j : ℕ) : Prop :=
  j ∈ order ∧ j ≠ i ∧ (i ∈ order → order.idxOf i < order.idxOf j)

instance (order : List ℕ) (i j : ℕ) : Decidable (Later order i j) :=
  inferInstanceAs (Decidable (_ ∧ _ ∧ _))

/-- Session `j` with `p` is established and runs. -/
def IsOpen (w : Service) (j : ℕ) (p : MachineId) : Prop :=
  ∃ t, w.tasks[j]? = some t ∧ t.stage.open = some p

/-- Whenever the end of a session is handled, and a later session with that peer is established and
runs, the peer stays online and keeps its queue. -/
def SparesNewer (w : Service) : Prop :=
  ∀ i p reason rest, w.inbox = .session i (.closed p reason) :: rest →
    ∀ j, Later w.order i j → w.IsOpen j p →
      (∀ name n, .session j (.established p name n) ∉ rest) →
      ∀ slot, w.actor.peers[p]? = some slot →
        ∃ after, (w.actor.onSession w.now (.closed p reason)).1.peers[p]? = some after ∧
          after.status = .online ∧ after.outbound = slot.outbound

def ending (t : SessionTask) : Event → Option MachineId
  | .close => t.stage.open
  | .report => t.expect
  | _ => none

/-- A session ends while no later session with the peer runs. -/
def EndsInOrder (w : Service) : Action → Prop
  | .session i e => ∀ t ∈ w.tasks[i]?, ∀ p ∈ ending t e,
    ∀ j ∈ w.order, Later w.order i j → ∀ u ∈ w.tasks[j]?, u.stage.open ≠ some p
  | _ => True

/-- Every later session with `p` that runs is reported in `ms`. -/
def Announced (w : Service) (i : ℕ) (p : MachineId) (ms : List Internal) : Prop :=
  ∀ j, Later w.order i j → w.IsOpen j p → ∃ name n, .session j (.established p name n) ∈ ms

/-- Behind the end of a session stand all later ones that run. -/
def InOrder (w : Service) : Prop :=
  ∀ i p reason, Behind w.inbox (.session i (.closed p reason)) (w.Announced i p)

theorem Later.of_append {order : List ℕ} {i j k : ℕ} (h : Later (order ++ [k]) i j) (hne : j ≠ k) :
    Later order i j := by
  obtain ⟨hj, hji, hidx⟩ := h
  have hmem : j ∈ order := by simpa [hne] using hj
  refine ⟨hmem, hji, fun hi => ?_⟩
  have := hidx (List.mem_append_left _ hi)
  rwa [List.idxOf_append_of_mem hi, List.idxOf_append_of_mem hmem] at this

theorem Later.of_onStep {w : Service} {i j k : ℕ} {u : SessionTask} {s : State}
    {os : List SessionOutcome} (h : Later (w.onStep k u s os).order i j) (hne : j ≠ k) :
    Later w.order i j := by
  simp only [onStep] at h
  split at h
  · exact h.of_append hne
  · exact h

theorem ending_of_closed {t u : SessionTask} {agent s : State} {e : Event}
    {os : List SessionOutcome} {p : MachineId} {reason : Reason}
    (h : SessionTask.Stepped t agent e u s os) (hc : .closed p reason ∈ os) :
    ending t e = some p ∧ os.any isEstablished = false := by
  cases h with
  | close hst =>
    obtain ⟨rfl, -⟩ := SessionOutcome.closed.inj (List.mem_singleton.mp hc)
    exact ⟨by rw [ending, hst]; rfl, rfl⟩
  | report hst =>
    cases hx : t.expect with
    | none => simp [hx] at hc
    | some q =>
      simp only [hx, Option.toList_some, List.map_cons, List.map_nil, List.mem_singleton,
        SessionOutcome.closed.injEq] at hc
      exact ⟨by rw [ending, hx, hc.1], by simp [isEstablished]⟩
  | read hst hr hstage hmore => obtain rfl | rfl := hmore <;> simp at hc
  | _ => simp at hc

theorem Announced.moved {w : Service} {i k : ℕ} {e : Event} {t u : SessionTask} {s : State}
    {os : List SessionOutcome} {p : MachineId} {ms : List Internal} (h : w.Announced i p ms)
    (ht : w.tasks[k]? = some t) (hstep : SessionTask.Stepped t w.agent e u s os)
    (hsame : t.stage.open = some p → Later (w.onStep k u s os).order i k → Later w.order i k) :
    (w.onStep k u s os).Announced i p (ms ++ os.map (.session k)) := by
  rintro j hlater ⟨x, hx, hopen⟩
  obtain ⟨rfl, rfl⟩ | ⟨hne, hold⟩ := getElem?_onStep ht hx
  · obtain hwas | ⟨name, rfl⟩ := hstep.opens hopen
    · obtain ⟨name, n, hin⟩ := h j (hsame hwas hlater) ⟨t, ht, hwas⟩
      exact ⟨name, n, List.mem_append_left _ hin⟩
    · exact ⟨name, t.number, List.mem_append_right _ List.mem_cons_self⟩
  · obtain ⟨name, n, hin⟩ := h j (hlater.of_onStep hne) ⟨x, hold, hopen⟩
    exact ⟨name, n, List.mem_append_left _ hin⟩

theorem order_of_open {w : Service} {k : ℕ} {e : Event} {t u : SessionTask} {s : State}
    {os : List SessionOutcome} {p : MachineId} (hstep : SessionTask.Stepped t w.agent e u s os)
    (hopen : t.stage.open = some p) : (w.onStep k u s os).order = w.order := by
  have hno : os.any isEstablished = false := by
    cases hstep with
    | established hst =>
      rw [hst] at hopen
      cases hopen
    | read hst hr hstage hmore => obtain rfl | rfl := hmore <;> rfl
    | report => simp [isEstablished]
    | _ => rfl
  simp [onStep, hno]

theorem InOrder.moved {w : Service} {k : ℕ} {e : Event} {t u : SessionTask} {s : State}
    {os : List SessionOutcome} (h : InOrder w) (hok : EndsInOrder w (.session k e))
    (ht : w.tasks[k]? = some t) (hstep : SessionTask.Stepped t w.agent e u s os) :
    InOrder (w.onStep k u s os) := by
  intro i p reason
  refine (h i p reason).append (fun ms hms => hms.moved ht hstep fun hopen hl => ?_)
    fun ns hsuf => ?_
  · rwa [order_of_open hstep hopen] at hl
  · -- the session that ends has no later one
    obtain ⟨o, ho, heq⟩ := List.mem_map.mp (hsuf.subset List.mem_cons_self)
    obtain ⟨rfl, rfl⟩ := Internal.session.inj heq
    obtain ⟨hend, hany⟩ := ending_of_closed hstep ho
    rintro j hlater ⟨x, hx, hopen⟩
    have hne := hlater.2.1
    have hold : Later w.order k j := hlater.of_onStep hne
    rw [onStep_ne hne] at hx
    exact absurd hopen (hok t ht p hend j hold.1 hold x hx)

theorem InOrder.step {w v : Service} {a : Action} (h : InOrder w) (hok : EndsInOrder w a)
    (hs : step w a = some v) : InOrder v := by
  cases stepped hs with
  | handled hm hh =>
    intro i p reason
    have hbehind := h i p reason
    rw [hm] at hbehind
    refine hbehind.tail.mono fun ms hms j hlater hopen => hms j hlater ?_
    obtain ⟨t, ht, hopen⟩ := hopen
    obtain hold | ⟨q, addr, -, rfl⟩ := mem_dial ht
    · exact ⟨t, hold, hopen⟩
    · cases hopen
  | moved ht hstep => exact h.moved hok ht hstep
  | quiet hq =>
    intro i p reason
    obtain ⟨ms, hin, hno⟩ := hq.inbox
    rw [hin]
    refine (h i p reason).append (fun ns hns j hlater hopen => ?_) (behind_of_not_mem (hno i _))
    rw [hq.order] at hlater
    obtain ⟨u, hu, hopen⟩ := hopen
    obtain ⟨t, ht, hsame⟩ | ⟨-, addr, rfl⟩ := hq.came j u hu
    · obtain ⟨name, n, hmem⟩ := hns j hlater ⟨t, ht, by rwa [← hsame.stage]⟩
      exact ⟨name, n, List.mem_append_left _ hmem⟩
    · cases hopen

/-- Where sessions with one peer end in the order in which they were established, no session ends a
newer one. -/
theorem sparesNewer_of_endsInOrder {identity : Identity} {agent : State} {now : ℕ}
    {as : List Action} {w : Service} (h : Run step EndsInOrder (start identity agent now) as w) :
    SparesNewer w := by
  have hinv : InOrder w := h.invariant (fun w a v hw hok hs => hw.step hok hs)
    fun i p reason => behind_of_not_mem (by simp [start])
  intro i p reason rest hin j hlater hopen hhandled
  have hbehind := hinv i p reason
  rw [hin] at hbehind
  obtain ⟨name, n, hmem⟩ := hbehind.head j hlater hopen
  exact absurd hmem (hhandled name n)

instance (w : Service) (a : Action) : Decidable (EndsInOrder w a) :=
  match a with
  | .session i e => inferInstanceAs (Decidable (∀ t ∈ w.tasks[i]?, ∀ p ∈ ending t e,
      ∀ j ∈ w.order, Later w.order i j → ∀ u ∈ w.tasks[j]?, u.stage.open ≠ some p))
  | .handle | .send _ | .accept _ | .write .. | .edit _ | .pair _ | .unpair _ | .push _
  | .agentEvent _ | .elapse _ => .isTrue trivial

def goesQuiet (i : ℕ) : List Action :=
  [.snapshot, .docFull 900 none, .failed .timeout, .close].map (.session i)

/-- The studio connects again after the first session has ended, which the actor has still to
learn. -/
theorem sparesNewer_of_endsInOrder_again :
    ∃ w, Run step EndsInOrder atLaptop
        (accepting 0 ++ [.handle] ++ goesQuiet 0 ++ accepting 1) w ∧
      w.inbox = [.session 0 (.closed 1 .quiet), .session 1 (.established 1 "Studio" 1)] ∧
      SparesNewer w := by
  obtain ⟨w, hrun, hw⟩ := run_of_replay step EndsInOrder atLaptop
    (accepting 0 ++ [.handle] ++ goesQuiet 0 ++ accepting 1) Service.inbox
    (b := [.session 0 (.closed 1 .quiet), .session 1 (.established 1 "Studio" 1)])
    (by decide +kernel)
  exact ⟨w, hrun, hw, sparesNewer_of_endsInOrder hrun⟩

/-- The studio was cut off and connects again before the laptop has noticed: when the silence of the
first session is noticed, the studio is taken offline and the queue of the second one is dropped. -/
theorem silence_ends_newer : ∃ as w, Run step Any atLaptop as w ∧ ¬ SparesNewer w := by
  obtain ⟨w, hrun, hw⟩ := run_of_replay step Any atLaptop
    (accepting 0 ++ [.handle] ++ accepting 1 ++ [.handle] ++ goesQuiet 0)
    (fun w => ((w.inbox, w.order, w.tasks[1]?.map fun t => t.stage.open),
      w.actor.peers[1]?.map PeerSlot.status,
      ((w.actor.onSession w.now (.closed 1 .quiet)).1.peers[1]?).map PeerSlot.status))
    (b := (([.session 0 (.closed 1 .quiet)], [0, 1], some (some 1)), some .online,
      some .offline)) (by decide +kernel)
  simp only [Prod.mk.injEq, Option.map_eq_some_iff] at hw
  obtain ⟨⟨hin, horder, ⟨t, ht, hopen⟩⟩, ⟨slot, hslot, -⟩, ⟨after, hafter, hoff⟩⟩ := hw
  refine ⟨_, w, hrun, fun h => ?_⟩
  obtain ⟨s, hs, hon, -⟩ := h 0 1 .quiet [] hin 1 (by rw [horder]; decide) ⟨t, ht, hopen⟩
    (by simp) slot hslot
  obtain rfl := Option.some.inj (hafter.symm.trans hs)
  rw [hoff] at hon
  cases hon

end Service
end InputShare

import InputShare.Net.Sync

/-! Whose session a queue belongs to. The actor knows queues by the peer they were given to, the
sessions know whom they talk to; a batch of input goes where both agree. -/
namespace InputShare
open Runs SessionTask

namespace SessionTask

theorem Stepped.open_or_finished {t u : SessionTask} {agent s : State} {e : Event}
    {os : List SessionOutcome} {p : MachineId} (h : Stepped t agent e u s os)
    (ho : t.stage.open = some p) : u.stage.open = some p ∨ u.finished = true := by
  obtain hopen | ⟨reason, hclosed⟩ | ⟨-, error, hfailed⟩ := h.open_step ho
  · exact .inl hopen
  · refine .inr ?_
    cases h with
    | close | report => rfl
    | read hst hrd hstage hmore => obtain rfl | rfl := hmore <;> simp at hclosed
    | _ => simp at hclosed
  · exact .inr (by simp [finished, hfailed])

end SessionTask

namespace Actor

theorem listening_trySend (a : Actor) (pick : MachineId → Bool) (m : Message) (q : ℕ) :
    (a.trySend pick m q).listening = (a.queues q).listening := by
  unfold trySend Queue.trySend
  split_ifs <;> rfl

theorem handle_listening {a b : Actor} {agent : State} {now : ℕ} {m : Internal}
    {events : List NetEvent} {dials : List (MachineId × String)}
    (h : a.handle agent now m = (b, events, dials)) (q : ℕ) :
    (b.queues q).listening = (a.queues q).listening := by
  cases m with
  | broadcast k u | sendInput dest events | announceCursorOwner machine =>
    simp only [handle, Prod.mk.injEq] at h
    obtain ⟨rfl, -, -⟩ := h
    exact a.listening_trySend _ _ q
  | session i o =>
    simp only [handle, Prod.mk.injEq] at h
    obtain ⟨rfl, -, -⟩ := h
    cases o <;> rfl
  | sighting s =>
    simp only [handle, Prod.mk.injEq] at h
    obtain ⟨rfl, -, -⟩ := h
    unfold onSighting
    split_ifs <;> rfl
  | rescan | tick =>
    simp only [handle, Prod.mk.injEq] at h
    obtain ⟨rfl, -, -⟩ := h
    rfl

theorem onSendInput_queues {a : Actor} {dest : MachineId} {events : List InputEvent} {q : ℕ}
    (h : (a.onSendInput dest events).queues q ≠ a.queues q) :
    (∃ slot, a.peers[dest]? = some slot ∧ slot.outbound = some q) ∧
      (a.queues q).listening = true ∧
      ((a.onSendInput dest events).queues q).items = (a.queues q).items ++ [.input events] := by
  simp only [onSendInput, trySend] at h ⊢
  split_ifs at h ⊢ with hany
  · obtain ⟨⟨id, slot⟩, hmem, hpick⟩ := List.any_eq_true.mp hany
    simp only [Bool.and_eq_true, decide_eq_true_eq] at hpick
    obtain ⟨rfl, hout⟩ := hpick
    refine ⟨⟨slot, Std.ExtTreeMap.mem_toList_iff_getElem?_eq_some.mp hmem, hout⟩, ?_⟩
    unfold Queue.trySend at h ⊢
    split_ifs at h ⊢ with hroom
    · exact ⟨(Bool.and_eq_true_iff.mp hroom).1, rfl⟩
    · exact absurd rfl h
  · exact absurd rfl h

end Actor

namespace Service

/-- Queue `q` is that of a session with `p`, as long as anybody takes from it. -/
def Bound (w : Service) (q : ℕ) (p : MachineId) : Prop :=
  ∃ t, w.tasks[q]? = some t ∧
    (t.stage.open = some p ∨ (w.actor.queues q).listening = false)

theorem Bound.of_same {w v : Service} {q : ℕ} {p : MachineId} (h : Bound w q p)
    (ht : ∀ t, w.tasks[q]? = some t → ∃ u, v.tasks[q]? = some u ∧ u.stage = t.stage)
    (hq : (w.actor.queues q).listening = false → (v.actor.queues q).listening = false) :
    Bound v q p := by
  obtain ⟨t, hw, hopen⟩ := h
  obtain ⟨u, hu, hst⟩ := ht t hw
  exact ⟨u, hu, hopen.imp (hst ▸ ·) hq⟩

theorem listening_setQueue {a : Actor} {i : ℕ} {x : Queue} {q : ℕ}
    (hx : (a.queues i).listening = false → x.listening = false)
    (h : (a.queues q).listening = false) : ((a.setQueue i x).queues q).listening = false := by
  obtain rfl | hne := eq_or_ne q i
  · simpa [Actor.setQueue] using hx h
  · simpa [Actor.setQueue, hne] using h

theorem closed_step {w v : Service} {a : Action} (hs : Moves w a v) {q : ℕ}
    (h : (w.actor.queues q).listening = false) : (v.actor.queues q).listening = false := by
  cases hs with
  | handled hm hh => exact (Actor.handle_listening hh q).trans h
  | moved ht hstep =>
    simp only [onStep]
    split
    · exact listening_setQueue (fun _ => rfl) h
    · exact h
  | wrote => exact listening_setQueue id h
  | stopped => exact listening_setQueue (fun _ => rfl) h
  | accepted | sent | edited | agent | pushed | event | elapsed => exact h

theorem Bound.moved {w : Service} {i : ℕ} {e : SessionTask.Event} {t u : SessionTask} {s : State}
    {os : List SessionOutcome} {q : ℕ} {p : MachineId} (h : Bound w q p)
    (ht : w.tasks[i]? = some t) (hstep : SessionTask.Stepped t w.agent e u s os) :
    Bound (w.onStep i u s os) q p := by
  have hclosed := fun hq => closed_step (.moved ht hstep) (q := q) hq
  obtain rfl | hne := eq_or_ne q i
  · obtain ⟨x, hx, hopen⟩ := h
    obtain rfl := Option.some.inj (ht.symm.trans hx)
    refine ⟨u, onStep_self ht, ?_⟩
    obtain hopen | hq := hopen
    · refine (hstep.open_or_finished hopen).imp_right fun hfin => ?_
      -- nobody takes from the queue of a session that is over
      simp [onStep, hfin, Actor.setQueue, Queue.close]
    · exact .inr (hclosed hq)
  · exact h.of_same (fun x hx => ⟨x, (onStep_ne hne).trans hx, rfl⟩) hclosed

/-- Once a queue belongs to a session with a peer, it stays that peer's. -/
theorem Bound.step {w v : Service} {a : Action} {q : ℕ} {p : MachineId} (h : Bound w q p)
    (hs : Moves w a v) : Bound v q p := by
  have hmore : ∀ (ts : List SessionTask) (t : SessionTask), w.tasks[q]? = some t →
      ∃ u, (w.tasks ++ ts)[q]? = some u ∧ u.stage = t.stage := fun ts t ht =>
    ⟨t, by rw [List.getElem?_append_left (List.getElem?_eq_some_iff.mp ht).1, ht], rfl⟩
  have hclosed := fun hq => closed_step hs (q := q) hq
  cases hs with
  | handled | accepted => exact h.of_same (hmore _) hclosed
  | moved ht hstep => exact h.moved ht hstep
  | @wrote i t m rest ht hw hq =>
    refine h.of_same (fun x hx => ?_) hclosed
    obtain rfl | hne := eq_or_ne i q
    · obtain rfl := Option.some.inj (ht.symm.trans hx)
      exact ⟨_, List.getElem?_set_self (List.getElem?_eq_some_iff.mp ht).1, rfl⟩
    · exact ⟨x, by rw [List.getElem?_set_ne hne, hx], rfl⟩
  | stopped | sent | edited | agent | pushed | event | elapsed =>
    exact h.of_same (fun t ht => ⟨t, ht, rfl⟩) hclosed

/-- Every queue the actor holds, or is about to be given, is that of a session with that peer. -/
structure Wired (w : Service) : Prop where
  ordered : Ordered w
  slot : ∀ p slot q, w.actor.peers[p]? = some slot → slot.outbound = some q → Bound w q p
  inbox : ∀ i p name q, .session i (.established p name q) ∈ w.inbox → Bound w q p

theorem wired_start (identity : Identity) (agent : State) (now : ℕ) :
    Wired (start identity agent now) :=
  ⟨⟨fun i t ht => by simp [start] at ht, fun i t ht => by simp [start] at ht⟩,
    fun p slot q hp => by simp [start] at hp, fun i p name q hm => by simp [start] at hm⟩

theorem Wired.reported {w : Service} (h : Wired w) {i : ℕ} {e : SessionTask.Event}
    {t u : SessionTask} {s : State} {os : List SessionOutcome} (ht : w.tasks[i]? = some t)
    (hstep : SessionTask.Stepped t w.agent e u s os) {p : MachineId} {name : String} {q : ℕ}
    (ho : .established p name q ∈ os) : Bound (w.onStep i u s os) q p := by
  have hopen := hstep.open_of_established ho
  have hq : q = i := by
    rw [← h.ordered.number i t ht]
    cases hstep with
    | established => exact (SessionOutcome.established.inj (List.mem_singleton.mp ho)).2.2
    | read hst hr hstage hmore => obtain rfl | rfl := hmore <;> simp at ho
    | _ => simp at ho
  subst hq
  exact ⟨u, onStep_self ht, .inl hopen⟩

theorem Wired.step {w v : Service} {a : Action} (h : Wired w) (hs : Moves w a v) : Wired v := by
  have hinbox : ∀ {i p name q}, .session i (.established p name q) ∈ w.inbox → Bound v q p :=
    fun hm => (h.inbox _ _ _ _ hm).step hs
  have hslot : ∀ {p slot q}, w.actor.peers[p]? = some slot → slot.outbound = some q →
      Bound v q p := fun hp hq => (h.slot _ _ _ hp hq).step hs
  refine ⟨h.ordered.step hs, fun p slot q hp hq => ?_, fun i p name q hm => ?_⟩
  · obtain ⟨m, rest, events, dials, hin, -, hh⟩ | ⟨-, -, hpeers, -⟩ := inbox_step hs
    · obtain ⟨old, hold, hout⟩ | ⟨i, name, rfl⟩ := Actor.handle_outbound hh hp hq
      · exact hslot hold hout
      · exact hinbox (by rw [hin]; exact List.mem_cons_self)
    · exact hslot (hpeers ▸ hp) hq
  · cases hs with
    | handled hin hh => exact hinbox (by rw [hin]; exact List.mem_cons_of_mem _ hm)
    | moved ht hstep =>
      obtain hm | hm := List.mem_append.mp hm
      · exact hinbox hm
      · obtain ⟨o, ho, heq⟩ := List.mem_map.mp hm
        obtain ⟨rfl, rfl⟩ := Internal.session.inj heq
        exact h.reported ht hstep ho
    | sent hok =>
      obtain hm | hm := List.mem_append.mp hm
      · exact hinbox hm
      · obtain rfl := List.mem_singleton.mp hm
        cases hok
    | pushed =>
      obtain hm | hm := List.mem_append.mp hm
      · exact hinbox hm
      · cases List.mem_singleton.mp hm
    | accepted | wrote | stopped | edited | agent | event | elapsed => exact hinbox hm

/-- A queue that a batch of input goes into is that of an open session with its destination. -/
theorem Wired.delivers {w : Service} (h : Wired w) {dest : MachineId} {events : List InputEvent}
    {q : ℕ} (hq : (w.actor.onSendInput dest events).queues q ≠ w.actor.queues q) :
    (∃ t, w.tasks[q]? = some t ∧ t.stage.open = some dest) ∧
      ((w.actor.onSendInput dest events).queues q).items =
        (w.actor.queues q).items ++ [.input events] := by
  obtain ⟨⟨slot, hp, hout⟩, hlistening, hitems⟩ := Actor.onSendInput_queues hq
  obtain ⟨t, ht, hopen | hclosed⟩ := h.slot dest slot q hp hout
  · exact ⟨⟨t, ht, hopen⟩, hitems⟩
  · rw [hlistening] at hclosed
    cases hclosed

end Service
end InputShare

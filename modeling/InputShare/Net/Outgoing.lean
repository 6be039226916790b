import InputShare.Net.Delivery

/-! What a session still has to send: the document it took, what is in its queue, and the updates
that are on their way to it. -/
namespace InputShare
open LastWriter Runs SessionTask

namespace Message

def offers : Message → Register → Option DocWrite
  | .docFull doc => doc.held
  | .update u => fun r => if u.write.register = r then some u.write else none
  | .identify .. | .input _ | .cursorOwner _ | .ping _ | .pong _ | .goodbye _ => fun _ => none

theorem offers_update {u : WorkspaceUpdate} {r : Register} (h : u.write.register = r) :
    (update u).offers r = some u.write := if_pos h

def writes : Message → List DocWrite
  | .docFull doc => [.name, .settings].filterMap doc.held ++
      doc.machines.toList.map fun (id, slot) => slot.write id
  | .update u => [u.write]
  | .identify .. | .input _ | .cursorOwner _ | .ping _ | .pong _ | .goodbye _ => []

theorem mem_writes {m : Message} {r : Register} {x : DocWrite} (h : m.offers r = some x) :
    x ∈ m.writes ∧ x.register = r := by
  cases m with
  | docFull doc =>
    refine ⟨List.mem_append.mpr ?_, doc.filed r x h⟩
    cases r with
    | name => exact .inl (List.mem_filterMap.mpr ⟨.name, by simp, h⟩)
    | settings => exact .inl (List.mem_filterMap.mpr ⟨.settings, by simp, h⟩)
    | slot id =>
      obtain ⟨slot, hslot, rfl⟩ := Option.map_eq_some_iff.mp h
      exact .inr (List.mem_map.mpr
        ⟨(id, slot), Std.ExtTreeMap.mem_toList_iff_getElem?_eq_some.mpr hslot, rfl⟩)
  | update u =>
    simp only [offers] at h
    split_ifs at h with hr
    obtain rfl := Option.some.inj h
    exact ⟨List.mem_singleton.mpr rfl, hr⟩
  | identify | input | cursorOwner | ping | pong | goodbye => cases h

/-- `DocFull` and `Update`. -/
def syncs : Message → Bool
  | .docFull _ | .update _ => true
  | .identify .. | .input _ | .cursorOwner _ | .ping _ | .pong _ | .goodbye _ => false

theorem syncs_of_offers {m : Message} {r : Register} {x : DocWrite} (h : Covers (m.offers r) x) :
    m.syncs = true := by
  obtain ⟨y, hy, -⟩ := h
  cases m with
  | docFull doc | update u => rfl
  | _ => cases hy

end Message

namespace Actor

theorem items_trySend (a : Actor) (pick : MachineId → Bool) (m : Message) (q : ℕ) :
    ∃ ms, (a.trySend pick m q).items = (a.queues q).items ++ ms ∧ ∀ x ∈ ms, x = m := by
  unfold trySend Queue.trySend
  split_ifs
  · exact ⟨[m], rfl, by simp⟩
  · exact ⟨[], (List.append_nil _).symm, by simp⟩
  · exact ⟨[], (List.append_nil _).symm, by simp⟩

theorem handle_items {a b : Actor} {agent : State} {now : ℕ} {m : Internal}
    {events : List NetEvent} {dials : List (MachineId × String)}
    (h : a.handle agent now m = (b, events, dials)) (q : ℕ) :
    ∃ ms, (b.queues q).items = (a.queues q).items ++ ms ∧
      ∀ x ∈ ms, x.syncs = true → ∃ k u, m = .broadcast k u ∧ x = .update u := by
  have hsame : (b.queues q).items = (a.queues q).items → ∃ ms,
      (b.queues q).items = (a.queues q).items ++ ms ∧
        ∀ x ∈ ms, x.syncs = true → ∃ k u, m = .broadcast k u ∧ x = .update u :=
    fun heq => ⟨[], by rw [heq, List.append_nil], by simp⟩
  cases m with
  | broadcast k u =>
    simp only [handle, Prod.mk.injEq] at h
    obtain ⟨rfl, -, -⟩ := h
    obtain ⟨ms, hms, hall⟩ := a.items_trySend (fun _ => true) (.update u) q
    exact ⟨ms, hms, fun x hx _ => ⟨k, u, rfl, hall x hx⟩⟩
  | sendInput dest events =>
    simp only [handle, Prod.mk.injEq] at h
    obtain ⟨rfl, -, -⟩ := h
    obtain ⟨ms, hms, hall⟩ := a.items_trySend (· = dest) (.input events) q
    refine ⟨ms, hms, fun x hx hs => ?_⟩
    rw [hall x hx] at hs
    cases hs
  | announceCursorOwner machine =>
    simp only [handle, Prod.mk.injEq] at h
    obtain ⟨rfl, -, -⟩ := h
    obtain ⟨ms, hms, hall⟩ := a.items_trySend (fun _ => true) (.cursorOwner machine) q
    refine ⟨ms, hms, fun x hx hs => ?_⟩
    rw [hall x hx] at hs
    cases hs
  | session i o =>
    simp only [handle, Prod.mk.injEq] at h
    obtain ⟨rfl, -, -⟩ := h
    refine hsame ?_
    cases o <;> rfl
  | sighting s =>
    simp only [handle, Prod.mk.injEq] at h
    obtain ⟨rfl, -, -⟩ := h
    refine hsame ?_
    unfold onSighting
    split_ifs <;> rfl
  | rescan | tick =>
    simp only [handle, Prod.mk.injEq] at h
    obtain ⟨rfl, -, -⟩ := h
    exact hsame rfl

end Actor

namespace Service

/-- Session `i` with `p` has taken its snapshot, both its loops run, and the actor feeds its
queue. -/
structure Fed (w : Service) (i : ℕ) (p : MachineId) : Prop where
  running : ∃ t, w.tasks[i]? = some t ∧ (t.stage = .running p ∨ ∃ d, t.stage = .syncing p d)
  listening : (w.actor.queues i).listening = true
  held : ¬ GivenUp w i

/-- The message is on its way through session `i`, whose first `n` messages were read. -/
def Outgoing (w : Service) (i n : ℕ) (m : Message) : Prop :=
  (∃ t, w.tasks[i]? = some t ∧
    (m ∈ t.sent.drop n ∨ ∃ p d, t.stage = .syncing p d ∧ m = .docFull d)) ∨
  m ∈ (w.actor.queues i).items ∨ ∃ k u, Pending w i k u ∧ m = .update u

def Says (w : Service) (m : Message) : Prop :=
  (∃ (i : ℕ) (t : SessionTask), w.tasks[i]? = some t ∧
    (m ∈ t.sent ∨ ∃ p d, t.stage = .syncing p d ∧ m = .docFull d)) ∨
  (∃ q, m ∈ (w.actor.queues q).items) ∨
  ∃ k u, ((k, u) ∈ w.editing ∨ .broadcast k u ∈ w.inbox) ∧ m = .update u

def Unsaid (t : SessionTask) : Prop :=
  match t.stage with
  | .running _ | .closing .. | .failed _ | .ended => True
  | _ => t.sent = []

theorem Unsaid.moved {t u : SessionTask} {agent s : State} {e : Event} {os : List SessionOutcome}
    (h : Unsaid t) (hstep : SessionTask.Stepped t agent e u s os) : Unsaid u := by
  unfold Unsaid at h ⊢
  cases hstep with
  | read hst hr hstage => obtain rfl | ⟨reason, rfl⟩ := hstage <;> trivial
  | synced hst | nothing hst | lost hst | close hst | report hst | rejected hst | different hst
  | refused hst | unidentified hst | unsynced hst | dropped hst | panicked hst => trivial
  | connected hst | greeted hst | admitted hst | identify hst | established hst
  | snapshot hst =>
    rw [hst] at h
    exact h

theorem unsaid_step {w v : Service} {a : Action}
    (h : ∀ (i : ℕ) t, w.tasks[i]? = some t → Unsaid t) (hs : Moves w a v) (i : ℕ)
    (u : SessionTask) (hu : v.tasks[i]? = some u) : Unsaid u := by
  obtain ⟨t, ht, rfl | ⟨e, s, os, -, hstep⟩ | ⟨m, ⟨hw, -⟩, rfl⟩⟩ | ⟨-, -, hnil, -⟩ :=
    task_step hs hu
  · exact h i u ht
  · exact (h i t ht).moved hstep
  · cases hst : t.stage with
    | running peer | closing peer reason => simp [Unsaid]
    | _ => simp [writing, hst] at hw
  · unfold Unsaid
    split <;> first | exact hnil | trivial

theorem identity_step {w v : Service} {a : Action} (hs : Moves w a v) :
    v.identity = w.identity := by
  cases hs <;> rfl

theorem Fed.back {w v : Service} {a : Action} {i : ℕ} {p : MachineId} (h : Fed v i p)
    (ho : Ordered w) (hs : Moves w a v) :
    Fed w i p ∨ w.agent.doc = none ∨ ∃ (t u : SessionTask) (d : WorkspaceDoc),
      w.tasks[i]? = some t ∧ t.stage = .established p ∧ w.agent.doc = some d ∧
        v.tasks[i]? = some u ∧ u.stage = .syncing p d := by
  obtain ⟨⟨u, hu, hstage⟩, hlistening, hheld⟩ := h
  have hopen : (w.actor.queues i).listening = true := by
    by_contra hc
    rw [closed_step hs (by simpa using hc)] at hlistening
    cases hlistening
  have hfed : ∀ t, w.tasks[i]? = some t → (t.stage = .running p ∨ ∃ d, t.stage = .syncing p d) →
      Fed w i p := by
    intro t ht hst
    refine ⟨⟨t, ht, hst⟩, hopen, fun hg => hheld (hg.step hs ho.number fun x hx => ?_)⟩
    obtain rfl := Option.some.inj (ht.symm.trans hx)
    obtain hst | ⟨d, hst⟩ := hst <;> rw [hst] <;> rfl
  obtain ⟨t, ht, rfl | ⟨e, s, os, rfl, hstep⟩ | ⟨m, -, rfl⟩⟩ | ⟨-, -, -, hearly⟩ :=
    task_step hs hu
  · exact .inl (hfed u ht hstage)
  · cases hstep with
    | snapshot hst hd =>
      obtain rfl : _ = p := by simpa using hstage
      exact .inr (.inr ⟨t, _, _, ht, hst, hd, hu, rfl⟩)
    | nothing hst hd => exact .inr (.inl hd)
    | synced hst =>
      obtain rfl : _ = p := by simpa using hstage
      exact .inl (hfed t ht (.inr ⟨_, hst⟩))
    | read hst hr hmore =>
      obtain rfl | ⟨reason, rfl⟩ := hmore
      · obtain rfl : _ = p := by simpa using hstage
        exact .inl (hfed t ht (.inl hst))
      · simp at hstage
    | _ => simp at hstage
  · exact .inl (hfed t ht hstage)
  · obtain hst | ⟨d, hst⟩ := hstage <;> rw [hst] at hearly <;> cases hearly

theorem Fed.late {w : Service} {i : ℕ} {p : MachineId} (h : Fed w i p) {t : SessionTask}
    (ht : w.tasks[i]? = some t) : t.stage.early = false := by
  obtain ⟨⟨x, hx, hst⟩, -, -⟩ := h
  obtain rfl := Option.some.inj (ht.symm.trans hx)
  obtain hst | ⟨d, hst⟩ := hst <;> rw [hst] <;> rfl

theorem sent_moved {t u : SessionTask} {agent s : State} {e : Event} {os : List SessionOutcome}
    (h : Unsaid t) (hstep : SessionTask.Stepped t agent e u s os) :
    u.sent = t.sent ∨ t.sent = [] ∧ ∃ p d, t.stage = .syncing p d ∧ u.sent = [.docFull d] := by
  cases hstep with
  | synced hst =>
    unfold Unsaid at h
    rw [hst] at h
    exact .inr ⟨h, _, _, hst, rfl⟩
  | _ => exact .inl rfl

theorem Outgoing.moved {t u : SessionTask} {agent s : State} {e : Event}
    {os : List SessionOutcome} {n : ℕ} {m : Message} (hun : Unsaid t) (hn : n ≤ t.sent.length)
    (h : m ∈ t.sent.drop n ∨ ∃ p d, t.stage = .syncing p d ∧ m = .docFull d)
    (hstep : SessionTask.Stepped t agent e u s os) (hu : u.finished = false) :
    m ∈ u.sent.drop n ∨ ∃ p d, u.stage = .syncing p d ∧ m = .docFull d := by
  obtain hsent | ⟨p, d, hst, rfl⟩ := h
  · obtain hsame | ⟨hnil, -⟩ := sent_moved hun hstep
    · exact .inl (by rwa [hsame])
    · simp [hnil] at hsent
  · cases hstep with
    | synced hst' =>
      obtain ⟨rfl, rfl⟩ := Stage.syncing.inj (hst.symm.trans hst')
      have hnil : t.sent = [] := by simpa [Unsaid, hst] using hun
      rw [hnil, List.length_nil, Nat.le_zero] at hn
      exact .inl (by simp [hn])
    | unsynced => simp [SessionTask.finished] at hu
    | dropped hearly =>
      rw [hst] at hearly
      cases hearly
    | connected hst' | greeted hst' | refused hst' | admitted hst' | rejected hst' | identify hst'
    | different hst' | established hst' | unidentified hst' | snapshot hst' | nothing hst'
    | read hst' | lost hst' | close hst' | report hst' | panicked hst' =>
      rw [hst] at hst'
      cases hst'

theorem Outgoing.step {w v : Service} {a : Action} {i n : ℕ} {p : MachineId} {m : Message}
    (h : Outgoing w i n m) (ho : Ordered w) (hs : Moves w a v)
    (hsent : ∀ t, w.tasks[i]? = some t → Unsaid t ∧ n ≤ t.sent.length)
    (hw : Fed w i p) (hv : Fed v i p) : Outgoing v i n m := by
  obtain ⟨t, ht, htask⟩ | hitem | ⟨k, u, hpending, rfl⟩ := h
  · obtain ⟨u, hu, hstage⟩ := hv.running
    refine .inl ⟨u, hu, ?_⟩
    obtain ⟨x, hx, rfl | ⟨e, s, os, -, hstep⟩ | ⟨y, -, rfl⟩⟩ | ⟨-, -, -, hearly⟩ :=
      task_step hs hu
    · obtain rfl := Option.some.inj (ht.symm.trans hx)
      exact htask
    · obtain rfl := Option.some.inj (ht.symm.trans hx)
      refine Outgoing.moved (hsent t ht).1 (hsent t ht).2 htask hstep ?_
      obtain hst | ⟨d, hst⟩ := hstage <;> simp [SessionTask.finished, hst]
    · obtain rfl := Option.some.inj (ht.symm.trans hx)
      refine htask.imp_left fun hm => ?_
      rw [List.drop_append_of_le_length (hsent t ht).2]
      exact List.mem_append_left _ hm
    · rw [hv.late hu] at hearly
      cases hearly
  · have hlistening := hv.listening
    cases hs with
    | handled hm hh =>
      obtain ⟨ms, hms, -⟩ := Actor.handle_items hh i
      exact .inr (.inl (by rw [hms]; exact List.mem_append_left _ hitem))
    | @moved j e t x s os ht hstep =>
      refine .inr (.inl ?_)
      simp only [onStep] at hlistening ⊢
      split_ifs at hlistening ⊢ with hfin
      · obtain rfl | hne := eq_or_ne i j
        · simp [Actor.setQueue, Queue.close] at hlistening
        · simpa [Actor.setQueue, hne] using hitem
      · exact hitem
    | @wrote j t x rest ht hwriting hq =>
      obtain rfl | hne := eq_or_ne i j
      · rw [hq] at hitem
        obtain rfl | hitem := List.mem_cons.mp hitem
        · refine .inl ⟨_, List.getElem?_set_self (List.getElem?_eq_some_iff.mp ht).1, .inl ?_⟩
          rw [List.drop_append_of_le_length (hsent t ht).2]
          exact List.mem_append_right _ (List.mem_singleton.mpr rfl)
        · exact .inr (.inl (by simpa [Actor.setQueue] using hitem))
      · exact .inr (.inl (by simpa [Actor.setQueue, hne] using hitem))
    | @stopped j =>
      obtain rfl | hne := eq_or_ne i j
      · simp [Actor.setQueue, Queue.close] at hlistening
      · exact .inr (.inl (by simpa [Actor.setQueue, hne] using hitem))
    | accepted | sent | edited | agent | pushed | event | elapsed => exact .inr (.inl hitem)
  · obtain hpending | hgiven | ⟨hactor, q, slot, hp, hq⟩ :=
      hpending.step hs ho.number fun t ht => hw.late ht
    · exact .inr (.inr ⟨k, u, hpending, rfl⟩)
    · exact absurd hgiven hv.held
    · rw [hactor] at hp
      refine .inr (.inl ?_)
      rw [hactor, Actor.onBroadcast_queue hp hq]
      exact List.mem_append_right _ (List.mem_singleton.mpr rfl)

theorem Outgoing.next {w : Service} {i n : ℕ} {m x : Message} {t : SessionTask}
    (h : Outgoing w i n m) (ht : w.tasks[i]? = some t) (hx : t.sent[n]? = some x) :
    m = x ∨ Outgoing w i (n + 1) m := by
  obtain ⟨u, hu, hsent | hsyncing⟩ | hlater := h
  · obtain rfl := Option.some.inj (ht.symm.trans hu)
    obtain ⟨hlt, hget⟩ := List.getElem?_eq_some_iff.mp hx
    rw [List.drop_eq_getElem_cons hlt, hget] at hsent
    obtain rfl | hmem := List.mem_cons.mp hsent
    · exact .inl rfl
    · exact .inr (.inl ⟨t, ht, .inl hmem⟩)
  · exact .inr (.inl ⟨u, hu, .inr hsyncing⟩)
  · exact .inr (.inr hlater)

theorem says_session {w v : Service} {a : Action}
    (hun : ∀ (i : ℕ) t, w.tasks[i]? = some t → Unsaid t) (hs : Moves w a v) {m : Message} {i : ℕ}
    {u : SessionTask} (hu : v.tasks[i]? = some u)
    (htask : m ∈ u.sent ∨ ∃ p d, u.stage = .syncing p d ∧ m = .docFull d) :
    Says w m ∨ ∃ d, w.agent.doc = some d ∧ m = .docFull d := by
  obtain ⟨t, ht, rfl | ⟨e, s, os, -, hstep⟩ | ⟨y, ⟨-, hy⟩, rfl⟩⟩ | ⟨-, -, hnil, hearly⟩ :=
    task_step hs hu
  · exact .inl (.inl ⟨i, u, ht, htask⟩)
  · obtain hsent | ⟨p, d, hst, rfl⟩ := htask
    · obtain hsame | ⟨-, p, d, hst, hsame⟩ := sent_moved (hun i t ht) hstep
      · exact .inl (.inl ⟨i, t, ht, .inl (by rwa [hsame] at hsent)⟩)
      · rw [hsame, List.mem_singleton] at hsent
        exact .inl (.inl ⟨i, t, ht, .inr ⟨p, d, hst, hsent⟩⟩)
    · cases hstep with
      | snapshot hst' hd =>
        obtain ⟨-, rfl⟩ := Stage.syncing.inj hst
        exact .inr ⟨_, hd, rfl⟩
      | read hst' hr hmore => obtain rfl | ⟨reason, rfl⟩ := hmore <;> cases hst
      | _ => cases hst
  · obtain hsent | hsyncing := htask
    · obtain hsent | hlast := List.mem_append.mp hsent
      · exact .inl (.inl ⟨i, t, ht, .inl hsent⟩)
      · rw [List.mem_singleton.mp hlast]
        exact .inl (.inr (.inl ⟨i, hy⟩))
    · exact .inl (.inl ⟨i, t, ht, .inr hsyncing⟩)
  · obtain hsent | ⟨p, d, hst, -⟩ := htask
    · simp [hnil] at hsent
    · rw [hst] at hearly
      cases hearly

theorem says_queue {w v : Service} {a : Action} (hs : Moves w a v) {m : Message} {q : ℕ}
    (hitem : m ∈ (v.actor.queues q).items) (hm : m.syncs = true) : Says w m := by
  cases hs with
  | handled hin hh =>
    obtain ⟨ms, hms, hall⟩ := Actor.handle_items hh q
    rw [hms] at hitem
    obtain hitem | hnew := List.mem_append.mp hitem
    · exact .inr (.inl ⟨q, hitem⟩)
    · obtain ⟨k, u, rfl, rfl⟩ := hall m hnew hm
      exact .inr (.inr ⟨k, u, .inr (by rw [hin]; exact List.mem_cons_self), rfl⟩)
  | @moved j e t x s os ht hstep =>
    refine .inr (.inl ⟨q, ?_⟩)
    simp only [onStep] at hitem
    split_ifs at hitem
    · obtain rfl | hne := eq_or_ne q j
      · simp [Actor.setQueue, Queue.close] at hitem
      · simpa [Actor.setQueue, hne] using hitem
    · exact hitem
  | @wrote j t x rest ht hwriting hq =>
    refine .inr (.inl ⟨q, ?_⟩)
    obtain rfl | hne := eq_or_ne q j
    · rw [hq]
      exact List.mem_cons_of_mem _ (by simpa [Actor.setQueue] using hitem)
    · simpa [Actor.setQueue, hne] using hitem
  | @stopped j =>
    refine .inr (.inl ⟨q, ?_⟩)
    obtain rfl | hne := eq_or_ne q j
    · simp [Actor.setQueue, Queue.close] at hitem
    · simpa [Actor.setQueue, hne] using hitem
  | accepted | sent | edited | agent | pushed | event | elapsed =>
    exact .inr (.inl ⟨q, hitem⟩)

theorem says_edit {w v : Service} {a : Action} (hs : Moves w a v) {k : ℕ} {u : WorkspaceUpdate}
    (hpending : (k, u) ∈ v.editing ∨ .broadcast k u ∈ v.inbox) :
    Says w (.update u) ∨ v.edits = w.edits ++ [u] := by
  have hold : (k, u) ∈ w.editing ∨ .broadcast k u ∈ w.inbox → Says w (.update u) :=
    fun h => .inr (.inr ⟨k, u, h, rfl⟩)
  cases hs with
  | handled hin hh =>
    exact .inl (hold (hpending.imp_right fun h => by rw [hin]; exact List.mem_cons_of_mem _ h))
  | moved ht hstep =>
    obtain hediting | hin := hpending
    · exact .inl (hold (.inl hediting))
    · obtain hin | hnew := List.mem_append.mp hin
      · exact .inl (hold (.inr hin))
      · simp at hnew
  | sent hok =>
    obtain hediting | hin := hpending
    · exact .inl (hold (.inl hediting))
    · obtain hin | hnew := List.mem_append.mp hin
      · exact .inl (hold (.inr hin))
      · obtain rfl := List.mem_singleton.mp hnew
        cases hok
  | edited =>
    obtain hediting | hin := hpending
    · obtain hediting | hnew := List.mem_append.mp hediting
      · exact .inl (hold (.inl hediting))
      · obtain ⟨-, rfl⟩ := Prod.mk.inj (List.mem_singleton.mp hnew)
        exact .inr rfl
    · exact .inl (hold (.inr hin))
  | @pushed n j x hk =>
    obtain hediting | hin := hpending
    · exact .inl (hold (.inl (List.mem_of_mem_eraseIdx hediting)))
    · obtain hin | hnew := List.mem_append.mp hin
      · exact .inl (hold (.inr hin))
      · obtain ⟨rfl, rfl⟩ := Internal.broadcast.inj (List.mem_singleton.mp hnew)
        exact .inl (hold (.inl (List.mem_of_getElem? hk)))
  | accepted | wrote | stopped | agent | event | elapsed => exact .inl (hold hpending)

theorem says_step {w v : Service} {a : Action} (hun : ∀ (i : ℕ) t, w.tasks[i]? = some t → Unsaid t)
    (hs : Moves w a v) {m : Message} (h : Says v m) (hm : m.syncs = true) :
    Says w m ∨ (∃ d, w.agent.doc = some d ∧ m = .docFull d) ∨
      ∃ u, v.edits = w.edits ++ [u] ∧ m = .update u := by
  obtain ⟨i, u, hu, htask⟩ | ⟨q, hitem⟩ | ⟨k, u, hpending, rfl⟩ := h
  · exact (says_session hun hs hu htask).imp_right .inl
  · exact .inl (says_queue hs hitem hm)
  · exact (says_edit hs hpending).imp_right fun hu => .inr ⟨u, hu, rfl⟩

def reads : Action → Bool
  | .session _ (.read _) => true
  | _ => false

theorem own_doc {w v : Service} {a : Action} (hok : KeepsDocument w a) (hr : reads a = false)
    (hs : Moves w a v) : v.agent.doc = w.agent.doc ∧ v.edits = w.edits ∨
      ∃ u, w.agent.Edits v.agent w.identity.machineId w.now u ∧ v.edits = w.edits ++ [u] ∧
        v.editing = w.editing ++ [(w.edits.length, u)] := by
  cases hs with
  | @edited a s u h => exact .inr ⟨u, h, rfl, rfl⟩
  | moved ht hstep =>
    refine .inl ⟨?_, rfl⟩
    cases hstep with
    | read => cases hr
    | _ => rfl
  | agent h => exact .inl ⟨h, rfl⟩
  | @event missed e rest he =>
    refine .inl ⟨?_, rfl⟩
    cases missed with
    | true => rfl
    | false => exact hok e (by rw [he]; rfl)
  | handled | sent | accepted | wrote | stopped | pushed | elapsed => exact .inl ⟨rfl, rfl⟩

theorem sent_step {w v : Service} {a : Action} (hs : Moves w a v) {i : ℕ} {t : SessionTask}
    (hun : Unsaid t) (ht : w.tasks[i]? = some t) :
    ∃ u, v.tasks[i]? = some u ∧ t.sent <+: u.sent := by
  have hmore : ∀ ts : List SessionTask, ∃ u, (w.tasks ++ ts)[i]? = some u ∧ t.sent <+: u.sent :=
    fun ts => ⟨t, by rw [List.getElem?_append_left (List.getElem?_eq_some_iff.mp ht).1, ht],
      List.prefix_refl _⟩
  cases hs with
  | handled | accepted => exact hmore _
  | @moved j e x u s os hx hstep =>
    obtain rfl | hne := eq_or_ne i j
    · obtain rfl := Option.some.inj (ht.symm.trans hx)
      refine ⟨u, onStep_self ht, ?_⟩
      obtain hsame | ⟨hnil, -⟩ := sent_moved hun hstep
      · rw [hsame]
      · rw [hnil]
        exact List.nil_prefix
    · exact ⟨t, (onStep_ne hne).trans ht, List.prefix_refl _⟩
  | @wrote j x m rest hx hw hq =>
    obtain rfl | hne := eq_or_ne j i
    · obtain rfl := Option.some.inj (ht.symm.trans hx)
      exact ⟨_, List.getElem?_set_self (List.getElem?_eq_some_iff.mp ht).1,
        List.prefix_append _ _⟩
    · exact ⟨t, by rw [List.getElem?_set_ne hne, ht], List.prefix_refl _⟩
  | stopped | sent | edited | agent | pushed | event | elapsed => exact ⟨t, ht, List.prefix_refl _⟩

theorem read_spec {w v : Service} {i : ℕ} {m : Message}
    (h : step w (.session i (.read m)) = some v) :
    ∃ t peer stage s os, w.tasks[i]? = some t ∧ t.stage = .running peer ∧
      onRead w.agent peer m = (stage, s, os) ∧ v = w.onStep i { t with stage := stage } s os := by
  simp only [step, Option.bind_eq_bind, Option.bind_eq_some_iff] at h
  obtain ⟨t, ht, ⟨u, s, os⟩, hu, h⟩ := h
  split at h
  · obtain rfl := Option.some.inj h
    cases hstage : t.stage with
    | running peer =>
      simp only [SessionTask.step, hstage, Option.some.injEq, Prod.mk.injEq] at hu
      obtain ⟨rfl, rfl, rfl⟩ := hu
      exact ⟨t, peer, _, _, _, ht, hstage, rfl, rfl⟩
    | _ => simp [SessionTask.step, hstage] at hu
  · cases h

theorem Fed.of_read {w v : Service} {i j : ℕ} {m : Message} {p : MachineId} {d : WorkspaceDoc}
    (h : Fed v j p) (ho : Ordered w) (hd : w.agent.doc = some d)
    (hs : step w (.session i (.read m)) = some v) : Fed w j p := by
  obtain hw | hnone | ⟨t, u, e, ht, hest, -, hu, hsync⟩ := h.back ho (moves hs)
  · exact hw
  · rw [hd] at hnone
    cases hnone
  · obtain ⟨x, peer, stage, s, os, hx, hrun, hread, rfl⟩ := read_spec hs
    obtain ⟨rfl, -⟩ | ⟨-, hold⟩ := getElem?_onStep hx hu
    · obtain rfl := Option.some.inj (ht.symm.trans hx)
      rw [hest] at hrun
      cases hrun
    · obtain rfl := Option.some.inj (ht.symm.trans hold)
      rw [hest] at hsync
      cases hsync

end Service

theorem SessionTask.onRead_doc {agent s : State} {peer : MachineId} {m : Message} {stage : Stage}
    {os : List SessionOutcome} (h : onRead agent peer m = (stage, s, os)) {d : WorkspaceDoc}
    (hd : agent.doc = some d) :
    match m with
    | .docFull other => ∀ e c, d.merge other = .ok (e, c) → s.doc = some e
    | .update u => ∀ e c, d.apply u = .ok (e, c) → s.doc = some e
    | _ => s = agent := by
  cases m with
  | docFull other =>
    intro e c he
    simp only [onRead] at h
    split at h
    next t c' hm =>
      obtain ⟨e', he', ht⟩ := State.merge_some hd hm
      obtain ⟨-, rfl, -⟩ := h
      rw [ht]
      exact congrArg some (Prod.mk.inj (Except.ok.inj (he'.symm.trans he))).1
    next err hm =>
      cases he.symm.trans (State.merge_error hd hm)
  | update u =>
    intro e c he
    simp only [onRead] at h
    split at h
    next t c' hm =>
      obtain ⟨e', he', ht⟩ := State.apply_some hd hm
      obtain ⟨-, rfl, -⟩ := h
      rw [ht]
      exact congrArg some (Prod.mk.inj (Except.ok.inj (he'.symm.trans he))).1
    next err hm =>
      cases he.symm.trans (State.apply_error hd hm)
  | identify | input | cursorOwner | ping | pong | goodbye =>
    exact (Prod.mk.inj (Prod.mk.inj h).2).1.symm

end InputShare

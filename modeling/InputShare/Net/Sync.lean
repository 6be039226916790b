import InputShare.Core.Registers
import InputShare.Net.Peers

/-! A local edit while a session is being set up: it is in the document the session sends, or
comes behind it as an update, or the session is given up. -/
namespace InputShare
open Runs SessionTask LastWriter

/-- The document has an edit in its register, or what took its place there: a later one of this
machine, or a write with a greater stamp than one of these. -/
def WorkspaceDoc.Includes (d : WorkspaceDoc) (us : List WorkspaceUpdate) (k : ℕ) : Prop :=
  ∃ n u v, k ≤ n ∧ us[k]? = some u ∧ us[n]? = some v ∧ v.op.register = u.op.register ∧
    Retains (d.held u.op.register) v.write

namespace WorkspaceDoc

theorem Includes.grows {d e : WorkspaceDoc} {us : List WorkspaceUpdate} {k : ℕ}
    (h : d.Includes us k) (hg : Grows d e) : e.Includes us k := by
  obtain ⟨n, u, v, hn, hu, hv, hr, hh⟩ := h
  obtain ⟨x, hx⟩ := hg u.op.register
  exact ⟨n, u, v, hn, hu, hv, hr, hx ▸ hh.newer x⟩

theorem Includes.append {d : WorkspaceDoc} {us : List WorkspaceUpdate} {k : ℕ}
    (h : d.Includes us k) (vs : List WorkspaceUpdate) : d.Includes (us ++ vs) k := by
  have hold : ∀ {n : ℕ} {u : WorkspaceUpdate}, us[n]? = some u → (us ++ vs)[n]? = some u := by
    intro n u hu
    rw [List.getElem?_append_left (List.getElem?_eq_some_iff.mp hu).1, hu]
  obtain ⟨n, u, v, hn, hu, hv, hr, hh⟩ := h
  exact ⟨n, u, v, hn, hold hu, hold hv, hr, hh⟩

theorem includes_edit (d : WorkspaceDoc) (me : MachineId) (now : ℕ) (op : Op)
    (us : List WorkspaceUpdate) :
    (d.edit me now op).1.Includes (us ++ [(d.edit me now op).2]) us.length := by
  have hop : (d.edit me now op).2.op = op := by rw [edit_update]
  refine ⟨us.length, _, _, le_rfl, List.getElem?_concat_length, List.getElem?_concat_length, rfl,
    ?_⟩
  rw [held_edit, hop, Function.update_self]
  exact retains_self _

theorem Includes.edit {d : WorkspaceDoc} {us : List WorkspaceUpdate} {k : ℕ}
    (h : d.Includes us k) (me : MachineId) (now : ℕ) (op : Op) :
    (d.edit me now op).1.Includes (us ++ [(d.edit me now op).2]) k := by
  obtain ⟨n, u, v, hn, hu, hv, hr, hh⟩ := h.append [(d.edit me now op).2]
  by_cases hreg : u.op.register = op.register
  · obtain ⟨m, x, y, hm, hx, hy, hxy, hheld⟩ := d.includes_edit me now op us
    obtain rfl := Option.some.inj ((List.getElem?_concat_length).symm.trans hx)
    have hop : (d.edit me now op).2.op = op := by rw [edit_update]
    rw [hop] at hxy hheld
    obtain ⟨_, _, _, -, hk, -⟩ := h
    have hlt := (List.getElem?_eq_some_iff.mp hk).1
    exact ⟨m, u, y, by omega, hu, hy, hxy.trans hreg.symm, by rwa [hreg]⟩
  · exact ⟨n, u, v, hn, hu, hv, hr, by rwa [held_edit, Function.update_of_ne hreg]⟩

end WorkspaceDoc

def State.Takes (s t : State) : Prop :=
  ∀ d, s.doc = some d → ∃ e, t.doc = some e ∧ WorkspaceDoc.Grows d e

namespace SessionTask

def Course (t : SessionTask) : Prop :=
  match t.stage with
  | .syncing _ doc => t.taken = some (some doc)
  | .running _ | .closing .. => ∃ taken, t.taken = some taken ∧
      ∀ doc, taken = some doc → t.sent.head? = some (.docFull doc)
  | .failed _ | .ended => True
  | _ => t.taken = none

theorem Course.step {t u : SessionTask} {agent s : State} {e : Event}
    {os : List SessionOutcome} (h : Course t) (hstep : Stepped t agent e u s os) : Course u := by
  unfold Course at h ⊢
  cases hstep with
  | snapshot hst hd => rfl
  | nothing hst hd => exact ⟨none, rfl, by simp⟩
  | synced hst hw =>
    simp only [hst] at h ⊢
    refine ⟨_, h, fun doc hdoc => ?_⟩
    rw [Option.some.inj hdoc]
    rfl
  | read hst hr hstage =>
    rw [hst] at h
    obtain rfl | ⟨reason, rfl⟩ := hstage <;> exact h
  | connected hst | greeted hst | admitted hst | identify hst | established hst | lost hst =>
    rw [hst] at h
    exact h
  | refused | rejected | different | unidentified | unsynced | dropped | close | report
  | panicked => trivial

theorem Course.late {t : SessionTask} {taken : Option WorkspaceDoc} (h : Course t)
    (ht : t.taken = some taken) : t.stage.early = false := by
  unfold Course at h
  split at h <;> simp_all [Stage.early]

theorem course_of_early {t : SessionTask} (h : t.stage.early = true) (ht : t.taken = none) :
    Course t := by
  unfold Course
  split <;> simp_all [Stage.early]

theorem Course.of_writing {t : SessionTask} (h : Course t) (hw : Service.writing t = true) :
    ∃ taken, t.taken = some taken ∧
      ∀ doc, taken = some doc → t.sent.head? = some (.docFull doc) := by
  cases hst : t.stage with
  | running peer | closing peer reason =>
    unfold Course at h
    rw [hst] at h
    exact h
  | _ => simp [Service.writing, hst] at hw

theorem Course.written {t : SessionTask} (h : Course t) (hw : Service.writing t = true)
    (m : Message) : Course { t with sent := t.sent ++ [m] } := by
  obtain ⟨taken, htaken, hsent⟩ := h.of_writing hw
  have hmore : ∀ doc, taken = some doc → (t.sent ++ [m]).head? = some (.docFull doc) := by
    intro doc hdoc
    rw [List.head?_append, hsent doc hdoc]
    rfl
  cases hst : t.stage with
  | running peer | closing peer reason =>
    unfold Course
    simp only
    exact ⟨taken, htaken, hmore⟩
  | _ => simp [Service.writing, hst] at hw

theorem onRead_takes {agent s : State} {peer : MachineId} {m : Message} {stage : Stage}
    {os : List SessionOutcome} (h : onRead agent peer m = (stage, s, os)) : agent.Takes s := by
  have hrefl : agent.Takes agent := fun d hd => ⟨d, hd, fun r => ⟨none, by simp⟩⟩
  intro d hd
  unfold onRead at h
  split at h
  · split at h
    next t c hm =>
      obtain ⟨e, he, ht⟩ := State.merge_some hd hm
      obtain ⟨-, rfl, -⟩ := h
      exact ⟨e, ht, WorkspaceDoc.grows_merge he⟩
    next =>
      obtain ⟨-, rfl, -⟩ := h
      exact hrefl d hd
  · split at h
    next t c hm =>
      obtain ⟨e, he, ht⟩ := State.apply_some hd hm
      obtain ⟨-, rfl, -⟩ := h
      exact ⟨e, by rw [ht], WorkspaceDoc.grows_apply he⟩
    next =>
      obtain ⟨-, rfl, -⟩ := h
      exact hrefl d hd
  all_goals
    obtain ⟨-, rfl, -⟩ := h
    exact hrefl d hd

end SessionTask

namespace Service

/-- No document is given up for that of another machine. -/
def KeepsDocument (w : Service) : Action → Prop
  | .agentEvent false =>
    ∀ e ∈ w.events.head?, (w.agent.onNetEvent w.now e).doc = w.agent.doc
  | _ => True

/-- The actor no longer feeds the queue of session `i`, and will not again. -/
def GivenUp (w : Service) (i : ℕ) : Prop :=
  (∀ (p : MachineId) (slot : PeerSlot), w.actor.peers[p]? = some slot → slot.outbound ≠ some i) ∧
    ∀ j p name, .session j (.established p name i) ∉ w.inbox

/-- The actor has handled the broadcast of edit `k`. -/
def Pushed (w : Service) (k : ℕ) : Prop :=
  (∀ u, (k, u) ∉ w.editing) ∧ ∀ u, .broadcast k u ∉ w.inbox

/-- A session that has taken its snapshot sends the document first; and every edit from `n` on that
the actor has pushed is in that document, or in the queue of the session, or the session is given
up. -/
def NoEditLost (n : ℕ) (w : Service) : Prop :=
  ∀ (i : ℕ) (t : SessionTask) (taken : Option WorkspaceDoc), w.tasks[i]? = some t →
    t.taken = some taken →
    (∀ doc, taken = some doc → writing t = true → t.sent.head? = some (.docFull doc)) ∧
    ∀ k u, n ≤ k → w.edits[k]? = some u → Pushed w k →
      (∃ doc, taken = some doc ∧ doc.Includes w.edits k) ∨
      .update u ∈ (w.actor.queues i).placed ∨ GivenUp w i

/-- The agent has every edit from `n` on in its document. -/
def Carries (n : ℕ) (s : State) (us : List WorkspaceUpdate) : Prop :=
  ∀ k, n ≤ k → k < us.length → ∃ d, s.doc = some d ∧ d.Includes us k

/-- The broadcast of edit `k` will come to the actor after session `i` has been established. -/
def Pending (w : Service) (i k : ℕ) (u : WorkspaceUpdate) : Prop :=
  (k, u) ∈ w.editing ∨ ∃ as bs, w.inbox = as ++ .broadcast k u :: bs ∧
    ∀ j p name, .session j (.established p name i) ∉ bs

def Reaches (w : Service) (i : ℕ) (taken : Option WorkspaceDoc) (k : ℕ) (u : WorkspaceUpdate) :
    Prop :=
  (∃ doc, taken = some doc ∧ doc.Includes w.edits k) ∨
    .update u ∈ (w.actor.queues i).placed ∨ GivenUp w i ∨ Pending w i k u

/-! What a step does to each part. -/

theorem task_step {w v : Service} {a : Action} (hs : Moves w a v) {i : ℕ} {u : SessionTask}
    (hu : v.tasks[i]? = some u) :
    (∃ t, w.tasks[i]? = some t ∧ (u = t ∨
      (∃ e s os, v = w.onStep i u s os ∧ SessionTask.Stepped t w.agent e u s os) ∨
      ∃ m, (writing t = true ∧ m ∈ (w.actor.queues i).items) ∧
        u = { t with sent := t.sent ++ [m] })) ∨
    u.number = i ∧ u.taken = none ∧ u.sent = [] ∧ u.stage.early = true := by
  cases hs with
  | handled hm hh =>
    obtain hold | ⟨p, addr, -, rfl⟩ := mem_dial hu
    · exact .inl ⟨u, hold, .inl rfl⟩
    · exact .inr ⟨rfl, rfl, rfl, rfl⟩
  | @moved j e t x s os ht hstep =>
    obtain ⟨rfl, rfl⟩ | ⟨-, hold⟩ := getElem?_onStep ht hu
    · exact .inl ⟨t, ht, .inr (.inl ⟨e, s, os, rfl, hstep⟩)⟩
    · exact .inl ⟨u, hold, .inl rfl⟩
  | accepted =>
    obtain hlt | hge := Nat.lt_or_ge i w.tasks.length
    · rw [List.getElem?_append_left hlt] at hu
      exact .inl ⟨u, hu, .inl rfl⟩
    · rw [List.getElem?_append_right hge, List.getElem?_singleton] at hu
      split at hu
      · rename_i hz
        obtain rfl := Option.some.inj hu
        have hi : w.tasks.length = i := by omega
        exact .inr ⟨hi, rfl, rfl, rfl⟩
      · cases hu
  | @wrote j t m rest ht hw hq =>
    obtain rfl | hne := eq_or_ne j i
    · rw [List.getElem?_set_self (List.getElem?_eq_some_iff.mp ht).1] at hu
      obtain rfl := Option.some.inj hu
      exact .inl ⟨t, ht, .inr (.inr ⟨m, ⟨hw, by rw [hq]; exact List.mem_cons_self⟩, rfl⟩)⟩
    · rw [List.getElem?_set_ne hne] at hu
      exact .inl ⟨u, hu, .inl rfl⟩
  | sent | stopped | edited | agent | pushed | event | elapsed => exact .inl ⟨u, hu, .inl rfl⟩

theorem placed_setQueue {a : Actor} {i : ℕ} {x : Queue} (h : x.placed = (a.queues i).placed)
    (q : ℕ) : (a.queues q).placed ⊆ ((a.setQueue i x).queues q).placed := by
  obtain rfl | hne := eq_or_ne q i
  · simp [Actor.setQueue, h]
  · simp [Actor.setQueue, hne]

theorem placed_step {w v : Service} {a : Action} (hs : Moves w a v) (q : ℕ) :
    (w.actor.queues q).placed ⊆ (v.actor.queues q).placed := by
  cases hs with
  | handled hm hh => exact Actor.handle_placed hh q
  | moved ht hstep =>
    simp only [onStep]
    split
    · exact placed_setQueue (by rfl) q
    · exact List.Subset.refl _
  | wrote ht hw hq | stopped => exact placed_setQueue (by rfl) q
  | sent | accepted | edited | agent | pushed | event | elapsed => exact List.Subset.refl _

theorem inbox_step {w v : Service} {a : Action} (hs : Moves w a v) :
    (∃ m rest events dials, w.inbox = m :: rest ∧ v.inbox = rest ∧
      w.actor.handle w.agent w.now m = (v.actor, events, dials)) ∨
    ∃ ms, v.inbox = w.inbox ++ ms ∧ v.actor.peers = w.actor.peers ∧
      ∀ j p name q, .session j (.established p name q) ∈ ms →
        ∃ t, w.tasks[j]? = some t ∧ t.stage.early = true ∧ q = t.number := by
  cases hs with
  | handled hm hh => exact .inl ⟨_, _, _, _, hm, rfl, hh⟩
  | @moved i e t u s os ht hstep =>
    refine .inr ⟨os.map (.session i), rfl, onStep_peers .., fun j p name q hmem => ?_⟩
    obtain ⟨o, ho, heq⟩ := List.mem_map.mp hmem
    obtain ⟨rfl, rfl⟩ := Internal.session.inj heq
    refine ⟨t, ht, ?_⟩
    cases hstep with
    | established hst =>
      obtain ⟨-, -, rfl⟩ := SessionOutcome.established.inj (List.mem_singleton.mp ho)
      exact ⟨by rw [hst]; rfl, rfl⟩
    | read hst hr hstage hmore => obtain rfl | rfl := hmore <;> simp at ho
    | _ => simp at ho
  | @sent m hm =>
    refine .inr ⟨[m], rfl, rfl, fun j p name q hmem => ?_⟩
    obtain rfl := List.mem_singleton.mp hmem
    cases hm
  | pushed hk => exact .inr ⟨_, rfl, rfl, by simp⟩
  | accepted | wrote | stopped | edited | agent | event | elapsed =>
    exact .inr ⟨[], (List.append_nil _).symm, rfl, by simp⟩

theorem editing_step {w v : Service} {a : Action} (hs : Moves w a v) {k : ℕ}
    {u : WorkspaceUpdate} (h : (k, u) ∈ w.editing) :
    (k, u) ∈ v.editing ∨ v.inbox = w.inbox ++ [.broadcast k u] := by
  cases hs with
  | edited => exact .inl (List.mem_append_left _ h)
  | @pushed n j x hk =>
    obtain ⟨i, hi⟩ := List.mem_iff_getElem?.mp h
    obtain rfl | hne := eq_or_ne i n
    · obtain ⟨rfl, rfl⟩ := Prod.mk.inj (Option.some.inj (hi.symm.trans hk))
      exact .inr rfl
    · exact .inl (List.mem_eraseIdx_iff_getElem?.mpr ⟨i, hne, hi⟩)
  | handled | moved | sent | accepted | wrote | stopped | agent | event | elapsed => exact .inl h

theorem edits_step {w v : Service} {a : Action} (hok : KeepsDocument w a) (hs : Moves w a v) :
    (v.edits = w.edits ∧ w.agent.Takes v.agent) ∨
    ∃ u, w.agent.Edits v.agent w.identity.machineId w.now u ∧ v.edits = w.edits ++ [u] ∧
      v.editing = w.editing ++ [(w.edits.length, u)] := by
  have hkeep : ∀ {s : State}, s.doc = w.agent.doc → w.agent.Takes s :=
    fun hd d hw => ⟨d, hd.trans hw, fun r => ⟨none, by simp⟩⟩
  cases hs with
  | @edited a s u h => exact .inr ⟨u, h, rfl, rfl⟩
  | moved ht hstep =>
    refine .inl ⟨rfl, ?_⟩
    cases hstep with
    | read hst hr => exact onRead_takes hr
    | _ => exact hkeep rfl
  | agent h => exact .inl ⟨rfl, hkeep h⟩
  | @event missed e rest he =>
    refine .inl ⟨rfl, ?_⟩
    cases missed with
    | true => exact hkeep rfl
    | false => exact hkeep (hok e (by rw [he]; rfl))
  | handled | sent | accepted | wrote | stopped | pushed | elapsed => exact .inl ⟨rfl, hkeep rfl⟩

/-! The invariant. -/

theorem Carries.step {n : ℕ} {w v : Service} {a : Action} (h : Carries n w.agent w.edits)
    (hok : KeepsDocument w a) (hs : Moves w a v) : Carries n v.agent v.edits := by
  intro k hn hk
  obtain ⟨hedits, htakes⟩ | ⟨u, ⟨d, op, hd, hv, rfl⟩, hedits, -⟩ := edits_step hok hs
  · rw [hedits] at hk ⊢
    obtain ⟨d, hd, hin⟩ := h k hn hk
    obtain ⟨e, he, hg⟩ := htakes d hd
    exact ⟨e, he, hin.grows hg⟩
  · refine ⟨_, hv, ?_⟩
    rw [hedits] at hk ⊢
    obtain hlt | rfl := Nat.lt_or_eq_of_le (Nat.lt_succ_iff.mp (by simpa using hk))
    · obtain ⟨x, hx, hin⟩ := h k hn hlt
      obtain rfl := Option.some.inj (hd.symm.trans hx)
      exact hin.edit _ _ op
    · exact d.includes_edit _ _ op _

section Late
variable {w v : Service} {a : Action} {i : ℕ}

theorem inbox_step_late (hs : Moves w a v)
    (hnumber : ∀ (j : ℕ) (t : SessionTask), w.tasks[j]? = some t → t.number = j)
    (hlate : ∀ (t : SessionTask), w.tasks[i]? = some t → t.stage.early = false) :
    (∃ m rest events dials, w.inbox = m :: rest ∧ v.inbox = rest ∧
      w.actor.handle w.agent w.now m = (v.actor, events, dials)) ∨
    ∃ ms, v.inbox = w.inbox ++ ms ∧ v.actor.peers = w.actor.peers ∧
      ∀ j p name, .session j (.established p name i) ∉ ms := by
  refine (inbox_step hs).imp_right fun ⟨ms, hms, hpeers, hno⟩ =>
    ⟨ms, hms, hpeers, fun j p name hmem => ?_⟩
  obtain ⟨t, ht, hearly, hi⟩ := hno j p name i hmem
  rw [hnumber j t ht] at hi
  subst hi
  rw [hlate t ht] at hearly
  cases hearly

theorem GivenUp.step (h : GivenUp w i) (hs : Moves w a v)
    (hnumber : ∀ (j : ℕ) (t : SessionTask), w.tasks[j]? = some t → t.number = j)
    (hlate : ∀ (t : SessionTask), w.tasks[i]? = some t → t.stage.early = false) :
    GivenUp v i := by
  obtain ⟨hpeers, hinbox⟩ := h
  obtain ⟨m, rest, events, dials, hm, hrest, hh⟩ | ⟨ms, hms, hsame, hno⟩ :=
    inbox_step_late hs hnumber hlate
  · rw [hm] at hinbox
    refine ⟨fun p slot hp hq => ?_, fun j p name hmem => ?_⟩
    · obtain ⟨old, hold, hq⟩ | ⟨j, name, rfl⟩ := Actor.handle_outbound hh hp hq
      · exact hpeers p old hold hq
      · exact hinbox j p name List.mem_cons_self
    · rw [hrest] at hmem
      exact hinbox j p name (List.mem_cons_of_mem _ hmem)
  · refine ⟨fun p slot hp => hpeers p slot (by rwa [hsame] at hp), fun j p name hmem => ?_⟩
    rw [hms] at hmem
    obtain hmem | hmem := List.mem_append.mp hmem
    · exact hinbox j p name hmem
    · exact hno j p name hmem

theorem Pending.step {k : ℕ} {u : WorkspaceUpdate} (h : Pending w i k u) (hs : Moves w a v)
    (hnumber : ∀ (j : ℕ) (t : SessionTask), w.tasks[j]? = some t → t.number = j)
    (hlate : ∀ (t : SessionTask), w.tasks[i]? = some t → t.stage.early = false) :
    Pending v i k u ∨ GivenUp v i ∨ v.actor = w.actor.onBroadcast u ∧
      ∃ (p : MachineId) (slot : PeerSlot),
        v.actor.peers[p]? = some slot ∧ slot.outbound = some i := by
  obtain hediting | ⟨as, bs, hpos, hbehind⟩ := h
  · obtain hediting | hpush := editing_step hs hediting
    · exact .inl (.inl hediting)
    · exact .inl (.inr ⟨w.inbox, [], hpush, by simp⟩)
  · obtain ⟨m, rest, events, dials, hm, hrest, hh⟩ | ⟨ms, hms, -, hno⟩ :=
      inbox_step_late hs hnumber hlate
    · rw [hm] at hpos
      cases as with
      | nil =>
        obtain ⟨rfl, rfl⟩ := List.cons.inj hpos
        simp only [Actor.handle, Prod.mk.injEq] at hh
        by_cases hq : ∃ (p : MachineId) (slot : PeerSlot),
            v.actor.peers[p]? = some slot ∧ slot.outbound = some i
        · exact .inr (.inr ⟨hh.1.symm, hq⟩)
        · exact .inr (.inl ⟨fun p slot hp hi => hq ⟨p, slot, hp, hi⟩,
            fun j p name hmem => hbehind j p name (by rwa [hrest] at hmem)⟩)
      | cons x as =>
        obtain ⟨rfl, rfl⟩ := List.cons.inj hpos
        exact .inl (.inr ⟨as, bs, hrest, hbehind⟩)
    · refine .inl (.inr ⟨as, bs ++ ms, by simp [hms, hpos], fun j p name hmem => ?_⟩)
      obtain hmem | hmem := List.mem_append.mp hmem
      · exact hbehind j p name hmem
      · exact hno j p name hmem

/-- What is to be done about edit `k` for a session stays done. -/
theorem Reaches.step {taken : Option WorkspaceDoc} {k : ℕ} {u : WorkspaceUpdate}
    (h : Reaches w i taken k u) (hok : KeepsDocument w a) (hs : Moves w a v)
    (hnumber : ∀ (j : ℕ) (t : SessionTask), w.tasks[j]? = some t → t.number = j)
    (hlate : ∀ (t : SessionTask), w.tasks[i]? = some t → t.stage.early = false) :
    Reaches v i taken k u := by
  obtain ⟨doc, hdoc, hin⟩ | hplaced | hgiven | hpending := h
  · refine .inl ⟨doc, hdoc, ?_⟩
    obtain ⟨hedits, -⟩ | ⟨u, -, hedits, -⟩ := edits_step hok hs
    · rwa [hedits]
    · rw [hedits]
      exact hin.append _
  · exact .inr (.inl (placed_step hs i hplaced))
  · exact .inr (.inr (.inl (hgiven.step hs hnumber hlate)))
  · obtain hpending | hgiven | ⟨hactor, p, slot, hp, hq⟩ := Pending.step hpending hs hnumber hlate
    · exact .inr (.inr (.inr hpending))
    · exact .inr (.inr (.inl hgiven))
    · rw [hactor] at hp
      refine .inr (.inl ?_)
      rw [hactor]
      exact Actor.onBroadcast_placed hp hq

end Late

/-- Every task has its number, and has taken and sent what its stage says. -/
structure Ordered (w : Service) : Prop where
  number : ∀ (i : ℕ) (t : SessionTask), w.tasks[i]? = some t → t.number = i
  course : ∀ (i : ℕ) (t : SessionTask), w.tasks[i]? = some t → Course t

theorem Ordered.step {w v : Service} {a : Action} (h : Ordered w) (hs : Moves w a v) :
    Ordered v := by
  refine ⟨fun i u hu => ?_, fun i u hu => ?_⟩
  · obtain ⟨t, ht, rfl | ⟨e, s, os, -, hstep⟩ | ⟨m, -, rfl⟩⟩ | ⟨hnum, -⟩ := task_step hs hu
    · exact h.number i u ht
    · rw [hstep.expect.2]
      exact h.number i t ht
    · exact h.number i t ht
    · exact hnum
  · obtain ⟨t, ht, rfl | ⟨e, s, os, -, hstep⟩ | ⟨m, ⟨hw, -⟩, rfl⟩⟩ | ⟨-, hnone, -, hearly⟩ :=
      task_step hs hu
    · exact h.course i u ht
    · exact (h.course i t ht).step hstep
    · exact (h.course i t ht).written hw m
    · exact course_of_early hearly hnone

structure Tracked (n : ℕ) (w : Service) : Prop where
  ordered : Ordered w
  carries : Carries n w.agent w.edits
  reaches : ∀ (i : ℕ) (t : SessionTask) (taken : Option WorkspaceDoc), w.tasks[i]? = some t →
    t.taken = some taken → ∀ k u, n ≤ k → w.edits[k]? = some u → Reaches w i taken k u

theorem Tracked.reaches_step {n : ℕ} {w v : Service} {a : Action} (h : Tracked n w)
    (hok : KeepsDocument w a) (hs : Moves w a v) {i : ℕ} {t : SessionTask}
    {taken : Option WorkspaceDoc} (ht : w.tasks[i]? = some t) (htaken : t.taken = some taken)
    {k : ℕ} {u : WorkspaceUpdate} (hn : n ≤ k) (hu : v.edits[k]? = some u) :
    Reaches v i taken k u := by
  have hlate : ∀ (x : SessionTask), w.tasks[i]? = some x → x.stage.early = false := by
    intro x hx
    obtain rfl := Option.some.inj (ht.symm.trans hx)
    exact (h.ordered.course i t ht).late htaken
  have hold : ∀ {x}, w.edits[k]? = some x → Reaches v i taken k x := fun hx =>
    (h.reaches i t taken ht htaken k _ hn hx).step hok hs h.ordered.number hlate
  obtain ⟨hedits, -⟩ | ⟨x, -, hedits, hediting⟩ := edits_step hok hs
  · rw [hedits] at hu
    exact hold hu
  · rw [hedits] at hu
    obtain hlt | hge := Nat.lt_or_ge k w.edits.length
    · rw [List.getElem?_append_left hlt] at hu
      exact hold hu
    · rw [List.getElem?_append_right hge, List.getElem?_singleton] at hu
      split at hu
      · rename_i hz
        obtain rfl := Option.some.inj hu
        obtain rfl : k = w.edits.length := by omega
        exact .inr (.inr (.inr (.inl (by rw [hediting]; simp))))
      · cases hu

theorem Tracked.snapshot {n : ℕ} {w : Service} (h : Tracked n w) {t u : SessionTask} {s : State}
    {e : Event} {os : List SessionOutcome} (hstep : SessionTask.Stepped t w.agent e u s os) :
    u.taken = t.taken ∨ u.taken = some w.agent.doc ∧ ∀ k x, n ≤ k → w.edits[k]? = some x →
      ∃ doc, w.agent.doc = some doc ∧ doc.Includes w.edits k := by
  have hall : ∀ k x, n ≤ k → w.edits[k]? = some x →
      ∃ doc, w.agent.doc = some doc ∧ doc.Includes w.edits k :=
    fun k x hn hx => h.carries k hn (List.getElem?_eq_some_iff.mp hx).1
  cases hstep with
  | snapshot hst hd => exact .inr ⟨by rw [hd], hall⟩
  | nothing hst hd => exact .inr ⟨by rw [hd], hall⟩
  | _ => exact .inl rfl

theorem Tracked.step {n : ℕ} {w v : Service} {a : Action} (h : Tracked n w)
    (hok : KeepsDocument w a) (hs : Moves w a v) : Tracked n v := by
  refine ⟨h.ordered.step hs, h.carries.step hok hs, fun i u taken hu htaken k x hn hx => ?_⟩
  obtain ⟨t, ht, rfl | ⟨e, s, os, rfl, hstep⟩ | ⟨m, -, rfl⟩⟩ | ⟨-, hnone, -⟩ := task_step hs hu
  · exact h.reaches_step hok hs ht htaken hn hx
  · obtain hsame | ⟨hsnap, hall⟩ := h.snapshot hstep
    · exact h.reaches_step hok hs ht (hsame.symm.trans htaken) hn hx
    · obtain ⟨doc, hdoc, hin⟩ := hall k x hn hx
      exact .inl ⟨doc, (Option.some.inj (htaken.symm.trans hsnap)).trans hdoc, hin⟩
  · exact h.reaches_step hok hs ht htaken hn hx
  · rw [hnone] at htaken
    cases htaken

/-- Whatever the editor, the actor and the sessions do in between, no edit is lost to a session
while the document is kept: it is in the document sent, in the queue, or the session is given up. -/
theorem noEditLost {identity : Identity} {agent : State} {now : ℕ} {as bs : List Action}
    {w v : Service} (h : Run step Any (start identity agent now) as w)
    (hkeep : Run step KeepsDocument w bs v) : NoEditLost w.edits.length v := by
  have hordered : Ordered w := h.invariant (fun w a v hw _ hs => hw.step (moves hs))
    ⟨fun i t ht => by simp [start] at ht, fun i t ht => by simp [start] at ht⟩
  have hv : Tracked w.edits.length v := hkeep.invariant
    (fun w a v hw hok hs => hw.step hok (moves hs))
    ⟨hordered, fun k hn hk => absurd hn (not_le.mpr hk), fun i t taken ht htaken k u hn hu =>
      absurd hn (not_le.mpr (List.getElem?_eq_some_iff.mp hu).1)⟩
  intro i t taken ht htaken
  refine ⟨fun doc hdoc hwriting => ?_, fun k u hn hu hpushed => ?_⟩
  · obtain ⟨x, hx, hsent⟩ := (hv.ordered.course i t ht).of_writing hwriting
    exact hsent doc ((Option.some.inj (hx.symm.trans htaken)).trans hdoc)
  · obtain hin | hplaced | hgiven | hediting | ⟨as, bs, hpos, -⟩ :=
      hv.reaches i t taken ht htaken k u hn hu
    · exact .inl hin
    · exact .inr (.inl hplaced)
    · exact .inr (.inr hgiven)
    · exact absurd hediting (hpushed.1 u)
    · exact absurd (by rw [hpos]; simp) (hpushed.2 u)

instance (w : Service) (a : Action) : Decidable (KeepsDocument w a) :=
  match a with
  | .agentEvent false =>
    inferInstanceAs (Decidable (∀ e ∈ w.events.head?, (w.agent.onNetEvent w.now e).doc = _))
  | .agentEvent true | .handle | .send _ | .accept _ | .session .. | .write .. | .edit _ | .pair _
  | .unpair _ | .push _ | .elapse _ => .isTrue trivial

/-- Three edits at the laptop while the studio connects: one made before the session is
established, one before and one after the snapshot. -/
def whileConnecting : List Action :=
  .edit (.setName "Desk") :: accepting 0 ++
    [.push 0, .edit (.setName "Loft"), .handle, .handle, .session 0 .snapshot,
      .edit (.removeMachine 5), .push 0, .push 0, .handle, .handle]

theorem noEditLost_connecting : ∃ w, Run step KeepsDocument atLaptop whileConnecting w ∧
    w.edits.length = 3 ∧ w.editing = [] ∧ w.inbox = [] ∧
    (w.actor.queues 0).placed = w.edits.map .update ∧ NoEditLost 0 w := by
  obtain ⟨w, hrun, hw⟩ := run_of_replay step KeepsDocument atLaptop whileConnecting
    (fun w => (w.edits.length, w.editing, w.inbox,
      decide ((w.actor.queues 0).placed = w.edits.map .update)))
    (b := (3, [], [], true)) (by decide +kernel)
  simp only [Prod.mk.injEq, decide_eq_true_eq] at hw
  exact ⟨w, hrun, hw.1, hw.2.1, hw.2.2.1, hw.2.2.2, noEditLost (.nil _) hrun⟩

end Service
end InputShare

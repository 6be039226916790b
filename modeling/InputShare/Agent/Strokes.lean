import InputShare.Agent.Forwarding
import InputShare.Agent.Ownership
import InputShare.Input.Keys

/-! Keys and buttons that go down and up, on two machines that share them. A press and its release
are two events, and each goes where the pointer is by then. -/
namespace InputShare
open Links Runs

namespace Router
variable {τ : Type} {os : Os} {env : Env} {tag : τ}

/-- The events the loop has replayed on this desktop. -/
def injected (r : Router τ) : List InputEvent :=
  r.out.filterMap fun
    | .inject event => some event
    | _ => none

@[simp] theorem injected_note (r : Router τ) (m : Option MachineId) :
    (r.emit (.noteCursorOwner m)).injected = r.injected := by simp [injected, emit]
@[simp] theorem injected_place (r : Router τ) (x y : Int) :
    (r.emit (.setCursorPosition x y)).injected = r.injected := by simp [injected, emit]
@[simp] theorem injected_inject (r : Router τ) (e : InputEvent) :
    (r.emit (.inject e)).injected = r.injected ++ [e] := by simp [injected, emit]
@[simp] theorem injected_send (r : Router τ) (m : MachineId) (es : List (Sample τ)) :
    (r.emit (.sendInput m es)).injected = r.injected := by simp [injected, emit]
@[simp] theorem injected_announce (r : Router τ) (m : MachineId) (t : τ) :
    (r.emit (.announceCursorOwner m t)).injected = r.injected := by simp [injected, emit]

@[simp] theorem injected_setSuppressing (r : Router τ) (b : Bool) :
    (r.setSuppressing os env b).injected = r.injected := rfl

@[simp] theorem injected_resync (r : Router τ) : (r.resync env).injected = r.injected := by
  unfold resync
  split <;> rfl

@[simp] theorem injected_followDrift (r : Router τ) :
    (r.followDrift env).injected = r.injected := by
  unfold followDrift
  split
  · split_ifs <;> rfl
  · rfl

@[simp] theorem injected_flush (r : Router τ) : r.flush.injected = r.injected := by
  unfold flush
  split_ifs
  · rfl
  · exact injected_send _ _ _

theorem injected_crossTo (doc : WorkspaceDoc) (machine : MachineId) (point : Point)
    (r : Router τ) : (r.crossTo os env tag doc machine point).injected = r.injected := by
  unfold crossTo
  rw [injected_announce, injected_flush, injected_setSuppressing]
  have hnote : ∀ t : Router τ, t.out = r.out ++ [.noteCursorOwner (some machine)] →
      t.injected = r.injected := by
    intro t ht
    simp [injected, ht]
  split <;> exact hnote _ rfl

theorem injected_onMotion (dx dy : Int) (source : Source) (r : Router τ) :
    (r.onMotion os env tag dx dy source).injected = r.injected := by
  unfold onMotion
  cases env.doc with
  | none => rfl
  | some doc =>
    dsimp only
    split
    · rename_i point _
      have hplace : ({ r.followDrift env with cursor := point } : Router τ).injected =
          r.injected := injected_followDrift r
      split_ifs
      · split
        · rw [injected_place, hplace]
        · exact hplace
      · exact hplace
    · rw [injected_crossTo, injected_followDrift]

theorem injected_onHeartbeat (r : Router τ) :
    (r.onHeartbeat os env tag).injected = r.injected := by
  unfold onHeartbeat
  by_cases h : r.owner ≠ r.me ∧ (!r.ownerIsReachable env) = true
  · refine (congrArg injected (if_pos h)).trans ?_
    simp only [takeOwnership, injected_announce, injected_note, injected_resync,
      injected_setSuppressing]
    rfl
  · exact (congrArg injected (if_neg h)).trans rfl

theorem injected_onFlush (announced : Option MachineId) (r : Router τ) :
    (r.onFlush os env announced).injected = r.injected := by
  have hnote : ∀ m o (q : List (Sample τ)), ({ (({ r with owner := m } : Router τ).emit
      (.noteCursorOwner o)) with pending := q } : Router τ).injected = r.injected :=
    fun m o _ => injected_note { r with owner := m } o
  unfold onFlush applyAnnouncement
  rw [injected_flush]
  cases announced with
  | none => rfl
  | some m =>
    dsimp only
    split_ifs
    · rfl
    · rw [injected_resync, injected_setSuppressing]
      exact hnote m (some m) r.pending
    · rw [injected_setSuppressing]
      exact hnote m (some m) []

theorem injected_handle (s : Sample τ) (source : Source) (r : Router τ) :
    (r.handle os env tag s source).injected = r.injected ++
      if source = .remote ∧ r.owner = r.me ∧ s.event.discrete = true then [s.event] else [] := by
  cases source with
  | «local» =>
    by_cases ho : r.owner = r.me
    · cases he : s.event <;> simp [handle, he, ho, injected_onMotion]
    · cases he : s.event <;> simp [handle, he, ho, injected]
  | remote =>
    by_cases ho : r.owner = r.me
    · cases he : s.event <;>
        simp [handle, he, ho, injected_onMotion, InputEvent.discrete, enter]
    · cases he : s.event <;> simp [handle, he, ho, InputEvent.discrete, enter]
      rfl

def asked (out : List (Output τ)) : List InputEvent := (inputs out).map fun p => p.2.event

def outbound (r : Router τ) : List InputEvent :=
  (r.sends ++ r.pending.map (r.owner, ·)).map fun p => p.2.event

theorem Quiet.outbound {r t : Router τ} (h : r.Quiet t) : t.outbound = r.outbound := by
  rw [Router.outbound, Router.outbound, sends, sends, h.outgoing, h.pending, h.owner]

theorem Named.count_le {r t : Router τ} {now : ℕ} {m : MachineId} {sent : List (Output τ)}
    (h : Named os now m [] sent r t) (p : InputEvent → Bool) :
    r.outbound.countP p ≤ t.outbound.countP p + (r.pending.map Sample.event).countP p := by
  simp only [outbound, h.sends, h.pending, List.map_append, List.countP_append, List.countP_map,
    Function.comp_def, List.map_nil, List.countP_nil]
  omega

theorem Named.count_crossed {r t : Router τ} {now : ℕ} {m : MachineId} {doc : WorkspaceDoc}
    {point : Point} {sent : List (Output τ)} (h : Named os now m []
      (delivery m (r.pending ++ handoff tag doc m point) ++ sent) r t) (p : InputEvent → Bool) :
    r.outbound.countP p ≤ t.outbound.countP p := by
  simp only [outbound, h.sends, h.pending, inputs_append, inputs_delivery, List.map_append,
    List.countP_append, List.countP_map, Function.comp_def, List.map_nil, List.countP_nil]
  omega

def givenUp (s : Sample τ) (source : Source) (r : Router τ) : List InputEvent :=
  if source = .remote ∧ s.event.handsOver = true ∧ r.owner ≠ r.me then
    r.pending.map Sample.event
  else []

theorem count_handle (s : Sample τ) (source : Source) (r : Router τ) (p : InputEvent → Bool) :
    r.outbound.countP p +
        (if source = .local ∧ r.owner ≠ r.me then [s.event] else []).countP p ≤
      (r.handle os env tag s source).outbound.countP p + (r.givenUp s source).countP p := by
  by_cases hq : source = .local ∧ r.owner ≠ r.me
  · have heq : r.handle os env tag s source = { r with pending := r.pending ++ [s] } := by
      obtain ⟨rfl, ho⟩ := hq
      cases he : s.event <;> simp [handle, he, ho]
    rw [heq, if_pos hq]
    simp [outbound, sends, outgoing]
    omega
  · rw [if_neg hq, List.countP_nil, Nat.add_zero]
    cases handle_spec os env tag s source r with
    | quiet _ h =>
      rw [h.outbound]
      exact Nat.le_add_right _ _
    | queued hs ho h => exact absurd ⟨hs, ho⟩ hq
    | entered x y hs he ho h =>
      have hup : r.givenUp s source = r.pending.map Sample.event := by
        rw [givenUp, if_pos ⟨hs, by rw [he]; rfl, ho⟩]
      rw [hup]
      exact h.count_le p
    | crossed doc m point ho hd hm hon he h =>
      exact (h.count_crossed p).trans (Nat.le_add_right _ _)

theorem count_onHeartbeat (r : Router τ) (p : InputEvent → Bool) :
    r.outbound.countP p ≤ (r.onHeartbeat os env tag).outbound.countP p +
      (if r.owner ≠ r.me ∧ r.owner ∉ env.online then r.pending.map Sample.event
        else []).countP p := by
  obtain h | ⟨ho, hgone, h⟩ := onHeartbeat_spec os env tag r
  · rw [h]
    exact Nat.le_add_right _ _
  · rw [if_pos ⟨ho, hgone⟩]
    exact h.count_le p

theorem count_onFlush (announced : Option MachineId) (r : Router τ) (p : InputEvent → Bool) :
    r.outbound.countP p ≤ (r.onFlush os env announced).outbound.countP p +
      (if r.owner = r.me ∨ ∃ m ∈ announced, m ≠ r.owner then r.pending.map Sample.event
        else []).countP p := by
  obtain ⟨-, h⟩ | ⟨m, ha, hm, h⟩ := onFlush_spec os env announced r
  · obtain ⟨hme, hown, hpend, -, hout⟩ := r.flush_spec
    rw [h]
    by_cases ho : r.owner = r.me
    · rw [if_pos (.inl ho)]
      simp only [outbound, sends, hpend, hout, flushed, if_pos ho, List.append_nil, List.map_append,
        List.countP_append, List.map_nil, List.countP_map, Function.comp_def]
      omega
    · refine le_trans (le_of_eq ?_) (Nat.le_add_right _ _)
      simp [outbound, sends, hpend, hout, flushed, ho, inputs_append]
  · rw [if_pos (.inr ⟨m, ha, hm⟩)]
    exact h.count_le p

end Router

namespace Sharing

def fresh (s : Sharing) : Sharing :=
  { s with passed := [], router := { s.router with out := [] } }

@[simp] theorem fresh_passed (s : Sharing) : s.fresh.passed = [] := rfl
@[simp] theorem fresh_channel (s : Sharing) : s.fresh.channel = s.channel := rfl
@[simp] theorem fresh_deciding (s : Sharing) : s.fresh.deciding = s.deciding := rfl
@[simp] theorem fresh_batch (s : Sharing) : s.fresh.batch = s.batch := rfl
@[simp] theorem fresh_me (s : Sharing) : s.fresh.router.me = s.router.me := rfl
@[simp] theorem fresh_owner (s : Sharing) : s.fresh.router.owner = s.router.owner := rfl
@[simp] theorem fresh_pending (s : Sharing) : s.fresh.router.pending = s.router.pending := rfl
@[simp] theorem fresh_capture (s : Sharing) : s.fresh.router.capture = s.router.capture := rfl
@[simp] theorem fresh_injected (s : Sharing) : s.fresh.router.injected = [] := rfl
@[simp] theorem setCapture_injected (s : Sharing) (c : Capture) :
    (s.setCapture c).router.injected = s.router.injected := rfl
@[simp] theorem setCapture_passed (s : Sharing) (c : Capture) :
    (s.setCapture c).passed = s.passed := rfl
@[simp] theorem setCapture_batch (s : Sharing) (c : Capture) :
    (s.setCapture c).batch = s.batch := rfl

def landed (s : Sharing) : List InputEvent := s.passed.map Sample.event ++ s.router.injected

def arriving (s : Sharing) : List InputEvent := s.deciding.toList.map Sample.event ++ s.batch

def queued (s : Sharing) : List InputEvent :=
  s.router.pending.map Sample.event ++ s.channel.map Sample.event

def passes (os : Os) (s : Sharing) : Action → List InputEvent
  | .decide now =>
    if (s.router.capture.suppressingNow os now).2 then []
    else s.deciding.toList.map Sample.event
  | _ => []

def replays (s : Sharing) : Action → List InputEvent
  | .next _ => s.batch.head?.toList.filter fun e => s.router.owner = s.router.me ∧ e.discrete
  | _ => []

/-- What does not get to this desktop: the hook swallows it, or the loop does not replay it. -/
def missed (os : Os) (s : Sharing) : Action → List InputEvent
  | .decide now =>
    if (s.router.capture.suppressingNow os now).2 then s.deciding.toList.map Sample.event else []
  | .next _ => s.batch.head?.toList.filter fun e => ¬ (s.router.owner = s.router.me ∧ e.discrete)
  | _ => []

/-- What does not go to another machine: the pointer is here when the loop takes it in, or comes
here, or goes elsewhere, before it is sent. -/
def withheld (s : Sharing) : Action → List InputEvent
  | .take _ =>
    if s.router.owner = s.router.me then s.channel.head?.toList.map Sample.event else []
  | .next _ =>
    if s.router.owner ≠ s.router.me ∧ ∃ e ∈ s.batch.head?, e.handsOver = true then
      s.router.pending.map Sample.event
    else []
  | .heartbeat env =>
    if s.router.owner ≠ s.router.me ∧ s.router.owner ∉ env.online then
      s.router.pending.map Sample.event
    else []
  | .flush _ announced =>
    if s.router.owner = s.router.me ∨ ∃ m ∈ announced, m ≠ s.router.owner then
      s.router.pending.map Sample.event
    else []
  | _ => []

section Step
variable {os : Os} {s t : Sharing} {a : Action}

theorem landed_step (hs : s.fresh.step os a = some t) :
    t.landed = s.passes os a ++ s.replays a := by
  cases stepped hs with
  | report | rawInput | glance | escape | batch | stop => rfl
  | @swallow now x hd hc =>
    rw [fresh_capture] at hc
    simp [landed, passes, replays, hc]
  | @pass now x hd hc =>
    rw [fresh_capture] at hc
    rw [fresh_deciding] at hd
    simp [landed, passes, replays, hc, hd]
  | take => simp [landed, passes, replays, Router.injected_handle]
  | @next env e rest hb =>
    rw [fresh_batch] at hb
    by_cases h : s.router.owner = s.router.me ∧ e.discrete = true
    · simp [landed, passes, replays, Router.injected_handle, hb, h]
    · simp [landed, passes, replays, Router.injected_handle, hb, h]
  | heartbeat => simp [landed, passes, replays, Router.injected_onHeartbeat]
  | flush => simp [landed, passes, replays, Router.injected_onFlush]

theorem count_arriving (hs : s.fresh.step os a = some t) (p : InputEvent → Bool) :
    s.arriving.countP p ≤
      t.arriving.countP p + t.landed.countP p + (s.missed os a).countP p := by
  rw [landed_step hs, List.countP_append]
  cases stepped hs with
  | report hl =>
    have hd : s.deciding = none := by
      simpa [listening] using (Bool.and_eq_true_iff.mp hl).2
    simp [arriving, hd, emit, List.countP_cons]
    omega
  | rawInput | glance | escape | take | heartbeat | flush | stop =>
    exact Nat.le_add_right_of_le (Nat.le_add_right _ _)
  | @swallow now x hd hc =>
    rw [fresh_capture] at hc
    simp [arriving, missed, hc]
    omega
  | @pass now x hd hc =>
    rw [fresh_capture] at hc
    simp [arriving, passes, hc]
    omega
  | @batch events hw =>
    have hwait : s.fresh.waiting = true := (Option.ite_none_right_eq_some.mp hs).1
    have hb : s.batch = [] := List.isEmpty_iff.mp (Bool.and_eq_true_iff.mp hwait).2
    simp [arriving, hb]
    omega
  | @next env e rest hb =>
    rw [fresh_batch] at hb
    by_cases h : s.router.owner = s.router.me ∧ e.discrete = true
    · have hall : s.replays (.next env) = [e] := by simp [replays, hb, h]
      simp [arriving, hall, hb, List.countP_cons]
      omega
    · have hall : s.missed os (.next env) = [e] := by
        rw [missed, hb]
        refine List.filter_eq_self.mpr fun f hf => decide_eq_true ?_
        obtain rfl : f = e := by simpa using hf
        exact h
      simp [arriving, hall, hb, List.countP_cons]
      omega

theorem count_queued (hs : s.fresh.step os a = some t) (p : InputEvent → Bool) :
    s.queued.countP p ≤
      (Router.asked t.router.outgoing).countP p + t.queued.countP p +
        (s.withheld a).countP p := by
  have hfresh : s.fresh.router.outbound = s.router.pending.map Sample.event := by
    simp [Router.outbound, Router.sends, Router.outgoing, fresh]
  have hsplit : ∀ r : Router (Option ℕ), r.outbound.countP p =
      (Router.asked r.outgoing).countP p + (r.pending.map Sample.event).countP p := by
    intro r
    simp [Router.outbound, Router.asked, Router.sends, Function.comp_def]
  cases stepped hs with
  | report | rawInput =>
    simp [queued, emit]
    omega
  | swallow | pass | glance | escape | batch | stop =>
    simp [queued, setCapture, Router.finish]
    omega
  | @take env x rest hc =>
    rw [fresh_channel] at hc
    have h : _ ≤ (s.fresh.router.handle os env none x .local).outbound.countP p + _ :=
      s.fresh.router.count_handle x .local p
    rw [hfresh, hsplit] at h
    by_cases ho : s.router.owner = s.router.me
    · simp [queued, withheld, hc, ho, Router.givenUp, List.countP_cons] at h ⊢
      omega
    · simp [queued, hc, ho, Router.givenUp, List.countP_cons] at h ⊢
      omega
  | @next env e rest hb =>
    rw [fresh_batch] at hb
    have h : _ ≤ (s.fresh.router.handle os env none ⟨e, none⟩ .remote).outbound.countP p + _ :=
      s.fresh.router.count_handle ⟨e, none⟩ .remote p
    rw [hfresh, hsplit] at h
    have hup : s.fresh.router.givenUp ⟨e, none⟩ .remote = s.withheld (.next env) := by
      simp [Router.givenUp, withheld, hb, and_comm]
    rw [hup] at h
    simp [queued] at h ⊢
    omega
  | @heartbeat env =>
    have h : s.fresh.router.outbound.countP p ≤
        (s.fresh.router.onHeartbeat os env none).outbound.countP p +
          (s.withheld (.heartbeat env)).countP p := s.fresh.router.count_onHeartbeat p
    rw [hfresh, hsplit] at h
    simp only [queued, fresh_channel, List.countP_append]
    omega
  | @flush env announced =>
    have h : s.fresh.router.outbound.countP p ≤
        (s.fresh.router.onFlush os env announced).outbound.countP p +
          (s.withheld (.flush env announced)).countP p := s.fresh.router.count_onFlush announced p
    rw [hfresh, hsplit] at h
    simp only [queued, fresh_channel, List.countP_append]
    omega

end Step
end Sharing
end InputShare

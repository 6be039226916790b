import InputShare.Agent.Forwarding
import InputShare.Core.Crossing
import InputShare.Net.Delivery

/-! Where input goes. The loop remembers what it has processed and which machines it has crossed
to; whatever it hands to the actor comes from there, and the actor hands it on to one session. -/
namespace InputShare
open Runs

structure Routing where
  sharing : Sharing
  /-- The local events the loop has processed, each with the machine it named as the owner then. -/
  processed : List (MachineId × Captured)
  /-- The machines this one has crossed to. -/
  crossed : List MachineId

namespace Routing

def start (os : Os) (me : MachineId) (env : Env) : Routing := ⟨.start os me env, [], []⟩

def processes (s : Sharing) : Sharing.Action → List (MachineId × Captured)
  | .take _ => s.channel.head?.toList.map (s.router.owner, ·)
  | _ => []

def crosses (s t : Sharing) : Sharing.Action → List MachineId
  | .take _ | .next _ =>
    if s.router.owner = s.router.me ∧ t.router.owner ≠ s.router.me then [t.router.owner] else []
  | _ => []

def step (os : Os) (r : Routing) (a : Sharing.Action) : Option Routing :=
  (r.sharing.step os a).map fun s =>
    { sharing := s
      processed := r.processed ++ processes r.sharing a
      crossed := r.crossed ++ crosses r.sharing s a }

end Routing

/-- The loop and the network service of one machine. -/
structure Host where
  routing : Routing
  service : Service
  /-- How much of what the loop asks for has been passed on. -/
  given : ℕ

namespace Host

inductive Action where
  | loop (a : Sharing.Action)
  /-- The next thing the loop asks for is passed on, unless there is no service. -/
  | give (offline : Bool)
  | service (a : Service.Action)

def start (os : Os) (identity : Identity) (env : Env) (agent : State) (now : ℕ) : Host :=
  ⟨.start os identity.machineId env, .start identity agent now, 0⟩

def message : Output (Option ℕ) → Option Internal
  | .sendInput dest events => some (.sendInput dest (events.map Sample.event))
  | .announceCursorOwner machine _ => some (.announceCursorOwner machine)
  | _ => none

def ofTheLoop : Service.Action → Bool
  | .send (.sendInput ..) | .send (.announceCursorOwner _) => true
  | _ => false

def step (os : Os) (h : Host) : Action → Option Host
  | .loop a => (h.routing.step os a).map fun r => { h with routing := r }
  | .give offline =>
    match h.routing.sharing.router.out[h.given]? with
    | none => none
    | some o =>
      match message o, offline with
      | some m, false =>
        if h.service.roomFor 1 then
          some { h with
            service := { h.service with inbox := h.service.inbox ++ [m] }
            given := h.given + 1 }
        else none
      | _, _ => some { h with given := h.given + 1 }
  | .service a =>
    if ofTheLoop a then none else (h.service.step a).map fun w => { h with service := w }

end Host

namespace Router

def Shaped (events : List Captured) : Prop :=
  ∃ head locals, events = head ++ locals ∧
    (head = [] ∨ ∃ x y, head = [⟨.cursorEnter x y, none⟩]) ∧ ∀ s ∈ locals, s.tag.isSome = true

def isLocal (p : MachineId × Captured) : Bool := p.2.tag.isSome

/-- What has gone out, and what is pending for the owner, was processed for that machine in that
order; a handoff went to every machine crossed to, or to fewer of them. -/
structure Sound (r : Router (Option ℕ)) (processed : List (MachineId × Captured))
    (crossed : List MachineId) : Prop where
  whole : (r.sends.filter isLocal ++ r.pending.map (r.owner, ·)).Sublist processed
  pending : ∀ s ∈ r.pending, s.tag.isSome = true
  here : r.owner = r.me → r.pending = []
  handoffs : ((r.sends.filter fun p => !isLocal p).map Prod.fst).Sublist crossed
  shaped : ∀ m events, .sendInput m events ∈ r.outgoing → Shaped events

section Sound
variable {os : Os} {env : Env} {r t : Router (Option ℕ)} {ps : List (MachineId × Captured)}
  {ms : List MachineId}

theorem Sound.of_same (h : r.Sound ps ms) (hme : t.me = r.me)
    (ho : t.owner = r.owner) (hp : t.pending = r.pending) (hout : t.outgoing = r.outgoing) :
    t.Sound ps ms := by
  have hs : t.sends = r.sends := by rw [sends, hout, sends]
  exact ⟨by rw [hs, hp, ho]; exact h.whole, by rw [hp]; exact h.pending,
    by rw [ho, hme, hp]; exact h.here, by rw [hs]; exact h.handoffs, by rw [hout]; exact h.shaped⟩

theorem Sound.quiet (h : r.Sound ps ms) (hq : r.Quiet t) : t.Sound ps ms :=
  h.of_same hq.me hq.owner hq.pending hq.outgoing

theorem Sound.mono (h : r.Sound ps ms) (more : List (MachineId × Captured))
    (others : List MachineId) : r.Sound (ps ++ more) (ms ++ others) :=
  ⟨h.whole.trans (List.sublist_append_left _ _), h.pending, h.here,
    h.handoffs.trans (List.sublist_append_left _ _), h.shaped⟩

theorem Sound.named (h : r.Sound ps ms) {now : ℕ} {m : MachineId}
    {sent : List (Output (Option ℕ))} (hn : Named os now m [] sent r t)
    (hs : ∀ dest events, .sendInput dest events ∉ sent) : t.Sound ps ms := by
  have hin : inputs sent = [] := by
    refine List.flatMap_eq_nil_iff.mpr fun o ho => ?_
    cases o with
    | sendInput dest events => exact absurd ho (hs dest events)
    | _ => rfl
  have hsame : t.sends = r.sends := by rw [hn.sends, hin, List.append_nil]
  refine ⟨?_, by simp [hn.pending], fun _ => hn.pending, by rw [hsame]; exact h.handoffs, ?_⟩
  · rw [hsame, hn.pending, List.map_nil, List.append_nil]
    exact (List.sublist_append_left _ _).trans h.whole
  · intro dest events hm
    rw [hn.outgoing] at hm
    exact h.shaped dest events ((List.mem_append.mp hm).resolve_right (hs dest events))

theorem Sound.queued (h : r.Sound ps ms) {s : Captured} (hs : s.tag.isSome = true)
    (ho : r.owner ≠ r.me) :
    ({ r with pending := r.pending ++ [s] } : Router (Option ℕ)).Sound
      (ps ++ [(r.owner, s)]) ms := by
  refine ⟨?_, fun x hx => ?_, fun k => absurd k ho, h.handoffs, h.shaped⟩
  · have hk := h.whole.append_right [(r.owner, s)]
    rw [List.append_assoc] at hk
    simpa [sends, outgoing] using hk
  · obtain hx | hx := List.mem_append.mp hx
    · exact h.pending x hx
    · exact (List.mem_singleton.mp hx) ▸ hs

theorem Sound.flush (h : r.Sound ps ms) : r.flush.Sound ps ms := by
  obtain ⟨hme, hown, hpend, -, hout⟩ := r.flush_spec
  have hloc : (r.pending.map (r.owner, ·)).filter isLocal = r.pending.map (r.owner, ·) :=
    List.filter_eq_self.mpr fun p hp => by
      obtain ⟨s, hs, rfl⟩ := List.mem_map.mp hp
      exact h.pending s hs
  have hnone : ((r.pending.map (r.owner, ·)).filter fun p => !isLocal p) = [] :=
    List.filter_eq_nil_iff.mpr fun p hp => by
      obtain ⟨s, hs, rfl⟩ := List.mem_map.mp hp
      simp [isLocal, h.pending s hs]
  have hsends : r.flush.sends = r.sends ++ r.pending.map (r.owner, ·) := by
    rw [sends, hout, inputs_append, flushed]
    split_ifs with ho
    · simp [h.here ho, sends]
    · rw [inputs_delivery, sends]
  refine ⟨?_, by simp [hpend], fun _ => hpend, ?_, fun dest events hm => ?_⟩
  · rw [hsends, List.filter_append, hloc, hpend, List.map_nil, List.append_nil]
    exact h.whole
  · rw [hsends, List.filter_append, hnone, List.append_nil]
    exact h.handoffs
  · rw [hout] at hm
    obtain hm | hm := List.mem_append.mp hm
    · exact h.shaped dest events hm
    · unfold flushed delivery at hm
      split_ifs at hm
      · cases hm
      · cases hm
      · obtain ⟨rfl, rfl⟩ := Output.sendInput.inj (List.mem_singleton.mp hm)
        exact ⟨[], r.pending, rfl, .inl rfl, h.pending⟩

theorem shaped_handoff (doc : WorkspaceDoc) (m : MachineId) (p : Point) :
    handoff (none : Option ℕ) doc m p = [] ∨
      ∃ x y, handoff (none : Option ℕ) doc m p = [⟨.cursorEnter x y, none⟩] := by
  unfold handoff
  split
  · exact .inr ⟨_, _, rfl⟩
  · exact .inl rfl

theorem Sound.crossed (h : r.Sound ps ms) {now : ℕ} {doc : WorkspaceDoc}
    {m : MachineId} {p : Point} (ho : r.owner = r.me)
    (hn : Named os now m [] (delivery m (r.pending ++ handoff none doc m p) ++
      [.announceCursorOwner m none]) r t) : t.Sound ps (ms ++ [m]) := by
  have hsends : t.sends = r.sends ++ (handoff none doc m p).map (m, ·) := by
    rw [hn.sends, inputs_append, inputs_delivery, inputs_announce, h.here ho, List.append_nil,
      List.nil_append]
  have htag : ∀ x ∈ (handoff (none : Option ℕ) doc m p).map (m, ·), isLocal x = false := by
    intro x hx
    obtain ⟨s, hs, rfl⟩ := List.mem_map.mp hx
    simp [isLocal, (mem_handoff hs).2]
  have hpend : r.pending = [] := h.here ho
  refine ⟨?_, by simp [hn.pending], fun _ => hn.pending, ?_, fun dest events hm => ?_⟩
  · have hf : ((handoff (none : Option ℕ) doc m p).map (m, ·)).filter isLocal = [] :=
      List.filter_eq_nil_iff.mpr fun x hx => by simp [htag x hx]
    rw [hsends, List.filter_append, hf, hn.pending, List.map_nil, List.append_nil, List.append_nil]
    exact (List.sublist_append_left _ _).trans h.whole
  · rw [hsends, List.filter_append, List.map_append]
    refine h.handoffs.append ?_
    obtain hd | ⟨x, y, hd⟩ := shaped_handoff doc m p
    · simp [hd]
    · simp [hd, isLocal]
  · rw [hn.outgoing, hpend] at hm
    obtain hm | hm := List.mem_append.mp hm
    · exact h.shaped dest events hm
    · obtain hm | hm := List.mem_append.mp hm
      · unfold delivery at hm
        split_ifs at hm
        · cases hm
        · obtain ⟨rfl, rfl⟩ := Output.sendInput.inj (List.mem_singleton.mp hm)
          exact ⟨_, [], by simp, shaped_handoff doc dest p, by simp⟩
      · cases List.mem_singleton.mp hm

theorem Sound.onHeartbeat (h : r.Sound ps ms) : (r.onHeartbeat os env none).Sound ps ms := by
  obtain hq | ⟨-, -, hn⟩ := onHeartbeat_spec os env none r
  · rw [hq]
    exact h.of_same rfl rfl rfl rfl
  · exact h.named hn (by simp)

theorem Sound.onFlush (h : r.Sound ps ms) (announced : Option MachineId) :
    (r.onFlush os env announced).Sound ps ms := by
  obtain ⟨-, hq⟩ | ⟨m, -, -, hn⟩ := onFlush_spec os env announced r
  · rw [hq]
    exact h.flush
  · exact h.named hn (by simp)

theorem Sound.handle (h : r.Sound ps ms) {s : Captured} {source : Source}
    (hs : source = .local → s.tag.isSome = true) :
    (r.handle os env none s source).Sound
      (ps ++ if source = .local then [(r.owner, s)] else [])
      (ms ++ if r.owner = r.me ∧ (r.handle os env none s source).owner ≠ r.me then
        [(r.handle os env none s source).owner] else []) := by
  cases handle_spec os env none s source r with
  | quiet _ hq => exact (h.quiet hq).mono _ _
  | queued hsrc ho hq =>
    rw [hq, if_pos hsrc, if_neg fun k => ho k.1, List.append_nil]
    exact h.queued (hs hsrc) ho
  | entered x y hsrc he ho hn => exact (h.named hn (by simp)).mono _ _
  | crossed doc m p ho hd hm hon he hn =>
    have hcross : r.owner = r.me ∧ (r.handle os env none s source).owner ≠ r.me :=
      ⟨ho, hn.owner ▸ hm⟩
    have hk := (h.crossed ho hn).mono (if source = .local then [(r.owner, s)] else []) []
    rwa [if_pos hcross, hn.owner, ← List.append_nil (ms ++ [m])]

end Sound
end Router

namespace Routing

/-- What the loop has sent to other machines, in order. -/
def sends (r : Routing) : List (MachineId × Captured) := r.sharing.router.sends

/-- Every batch holds the handoff, if this machine has crossed to the destination, and then local
events processed while that machine was named; all batches together keep the order in which the
events were processed and repeat none, and a crossing makes at most one handoff. -/
structure Routed (r : Routing) : Prop where
  batch : ∀ m events, .sendInput m events ∈ r.sharing.router.out → ∃ head locals,
    events = head ++ locals ∧ (locals.map (m, ·)).Sublist r.processed ∧
    (head = [] ∨ m ∈ r.crossed ∧ ∃ x y, head = [⟨.cursorEnter x y, none⟩])
  whole : (r.sends.filter Router.isLocal).Sublist r.processed
  handoffs : ((r.sends.filter fun p => !Router.isLocal p).map Prod.fst).Sublist r.crossed

structure Sound (r : Routing) : Prop where
  router : r.sharing.router.Sound r.processed r.crossed
  /-- What comes from the hook carries a number. -/
  channel : ∀ s ∈ r.sharing.channel, s.tag.isSome = true

theorem sound_start (os : Os) (me : MachineId) (env : Env) : (start os me env).Sound := by
  have hout : (start os me env).sharing.router.outgoing = [] := rfl
  have hsends : (start os me env).sharing.router.sends = [] := rfl
  have hpend : (start os me env).sharing.router.pending = [] := rfl
  refine ⟨⟨?_, by simp [hpend], fun _ => rfl, ?_, by simp [hout]⟩, by simp [start, Sharing.start]⟩
  · simp [hsends, hpend]
  · simp [hsends]

theorem Sound.step {os : Os} {r t : Routing} {a : Sharing.Action} (h : r.Sound)
    (hs : r.step os a = some t) : t.Sound := by
  obtain ⟨s, hstep, rfl⟩ := Option.map_eq_some_iff.mp hs
  have hsame : ∀ {q : Router (Option ℕ)}, q.Sound r.processed r.crossed →
      q.Sound (r.processed ++ []) (r.crossed ++ []) := by
    intro q hq
    rwa [List.append_nil, List.append_nil]
  have hchannel : ∀ e, ∀ x ∈ (r.sharing.emit e).channel, x.tag.isSome = true := by
    intro e x hx
    obtain hx | hx := List.mem_append.mp hx
    · exact h.channel x hx
    · rw [List.mem_singleton.mp hx]
      rfl
  have hcapture : ∀ c, (r.sharing.setCapture c).router.Sound r.processed r.crossed :=
    fun c => h.router.of_same rfl rfl rfl rfl
  cases Sharing.stepped hstep with
  | report | rawInput => exact ⟨hsame h.router, hchannel _⟩
  | swallow | pass | glance | escape => exact ⟨hsame (hcapture _), h.channel⟩
  | @take env x rest hc hw =>
    have hx : x.tag.isSome = true := h.channel x (by simp [hc])
    refine ⟨?_, fun y hy => h.channel y (by simp [hc, hy])⟩
    have hr : (r.sharing.router.handle os env none x .local).Sound _ _ :=
      h.router.handle fun _ => hx
    simpa [processes, crosses, hc] using hr
  | batch => exact ⟨hsame h.router, h.channel⟩
  | @next env e rest hb hw =>
    refine ⟨?_, h.channel⟩
    have hr : (r.sharing.router.handle os env none ⟨e, none⟩ .remote).Sound _ _ :=
      h.router.handle (by simp)
    simpa [processes, crosses] using hr
  | heartbeat => exact ⟨hsame h.router.onHeartbeat, h.channel⟩
  | flush => exact ⟨hsame (h.router.onFlush _), h.channel⟩
  | stop =>
    refine ⟨hsame (h.router.of_same rfl rfl rfl ?_), h.channel⟩
    simp [Router.finish, Router.outgoing, Router.emit, Router.setSuppressing]

theorem Sound.routed {r : Routing} (h : r.Sound) : r.Routed := by
  have hwhole : (r.sends.filter Router.isLocal).Sublist r.processed :=
    (List.sublist_append_left _ _).trans h.router.whole
  refine ⟨fun m events hm => ?_, hwhole, h.router.handoffs⟩
  have hout : .sendInput m events ∈ r.sharing.router.outgoing := List.mem_filter.mpr ⟨hm, rfl⟩
  obtain ⟨head, locals, rfl, hhead, hloc⟩ := h.router.shaped m events hout
  have hsub : ((head ++ locals).map (m, ·)).Sublist r.sends := by
    unfold sends Router.sends Router.inputs
    rw [List.flatMap_def]
    exact List.sublist_flatten_of_mem (List.mem_map.mpr ⟨_, hout, rfl⟩)
  refine ⟨head, locals, rfl, ?_, hhead.imp_right ?_⟩
  · have hf : (locals.map (m, ·)).filter Router.isLocal = locals.map (m, ·) :=
      List.filter_eq_self.mpr fun p hp => by
        obtain ⟨s, hs, rfl⟩ := List.mem_map.mp hp
        exact hloc s hs
    have hlocals : (locals.map (m, ·)).Sublist r.sends :=
      (((List.sublist_append_right head locals).map _)).trans hsub
    exact (hf ▸ hlocals.filter Router.isLocal).trans hwhole
  · rintro ⟨x, y, rfl⟩
    refine ⟨?_, x, y, rfl⟩
    refine h.router.handoffs.subset (List.mem_map.mpr ⟨(m, ⟨.cursorEnter x y, none⟩), ?_, rfl⟩)
    exact List.mem_filter.mpr ⟨hsub.subset (by simp), rfl⟩

end Routing

namespace Sharing

theorem outgoing_step {os : Os} {s t : Sharing} {a : Action} (hs : s.step os a = some t) :
    s.router.outgoing ⊆ t.router.outgoing := by
  have hnamed : ∀ {now m q sent} {r u : Router (Option ℕ)},
      Router.Named os now m q sent r u → r.outgoing ⊆ u.outgoing := by
    intro now m q sent r u h
    rw [h.outgoing]
    exact List.subset_append_left _ _
  have hhandle : ∀ (env : Env) (x : Captured) (source : Source),
      s.router.outgoing ⊆ (s.router.handle os env none x source).outgoing := by
    intro env x source
    cases Router.handle_spec os env none x source s.router with
    | quiet _ h => exact h.outgoing ▸ List.Subset.refl _
    | queued hs ho h => simp [h, Router.outgoing]
    | entered a b hs he ho h => exact hnamed h
    | crossed doc m p ho hd hm hon he h => exact hnamed h
  cases stepped hs with
  | report | rawInput | swallow | pass | glance | escape | batch => exact List.Subset.refl _
  | take | next => exact hhandle _ _ _
  | @heartbeat env =>
    obtain h | ⟨-, -, h⟩ := Router.onHeartbeat_spec os env none s.router
    · simp [h, Router.outgoing]
    · exact hnamed h
  | @flush env announced =>
    obtain ⟨-, h⟩ | ⟨m, -, -, h⟩ := Router.onFlush_spec os env announced s.router
    · rw [h, s.router.flush_spec.2.2.2.2]
      exact List.subset_append_left _ _
    · exact hnamed h
  | stop => simp [Router.finish, Router.outgoing, Router.emit, Router.setSuppressing]

end Sharing

namespace Host

/-- A batch for `dest` that the loop asked for. -/
def Asked (h : Host) (dest : MachineId) (events : List InputEvent) : Prop :=
  ∃ batch, .sendInput dest batch ∈ h.routing.sharing.router.out ∧ events = batch.map Sample.event

structure Sound (h : Host) : Prop where
  routing : h.routing.Sound
  wired : h.service.Wired
  asked : ∀ dest events, .sendInput dest events ∈ h.service.inbox → h.Asked dest events

theorem sound_start (os : Os) (identity : Identity) (env : Env) (agent : State) (now : ℕ) :
    (start os identity env agent now).Sound :=
  ⟨Routing.sound_start os _ env, Service.wired_start identity agent now,
    fun dest events hm => by simp [start, Service.start] at hm⟩

theorem sendInput_step {w v : Service} {a : Service.Action} (ha : ofTheLoop a = false)
    (hs : Service.Moves w a v) {dest : MachineId} {events : List InputEvent}
    (hm : .sendInput dest events ∈ v.inbox) : .sendInput dest events ∈ w.inbox := by
  cases hs with
  | handled hin hh => exact hin ▸ List.mem_cons_of_mem _ hm
  | moved ht hstep =>
    obtain hm | hm := List.mem_append.mp hm
    · exact hm
    · obtain ⟨o, -, heq⟩ := List.mem_map.mp hm
      cases heq
  | sent hok =>
    obtain hm | hm := List.mem_append.mp hm
    · exact hm
    · obtain rfl := List.mem_singleton.mp hm
      cases ha
  | pushed =>
    obtain hm | hm := List.mem_append.mp hm
    · exact hm
    · cases List.mem_singleton.mp hm
  | accepted | wrote | stopped | edited | agent | event | elapsed => exact hm

theorem Sound.step {os : Os} {h k : Host} {a : Action} (hi : h.Sound)
    (hs : h.step os a = some k) : k.Sound := by
  cases a with
  | loop a =>
    obtain ⟨r, hr, rfl⟩ := Option.map_eq_some_iff.mp hs
    refine ⟨hi.routing.step hr, hi.wired, fun dest events hm => ?_⟩
    obtain ⟨batch, hb, he⟩ := hi.asked dest events hm
    obtain ⟨s, hstep, rfl⟩ := Option.map_eq_some_iff.mp hr
    have hout := Sharing.outgoing_step hstep (List.mem_filter.mpr ⟨hb, rfl⟩)
    exact ⟨batch, (List.mem_filter.mp hout).1, he⟩
  | give offline =>
    simp only [Host.step] at hs
    split at hs
    · cases hs
    rename_i o ho
    split at hs
    · rename_i m hmsg
      obtain ⟨-, hs⟩ := Option.ite_none_right_eq_some.mp hs
      obtain rfl := Option.some.inj hs
      have hno : ∀ i q, m ≠ .session i q := by
        intro i q hq
        subst hq
        cases o <;> cases hmsg
      have hordered := hi.wired.ordered
      refine ⟨hi.routing, ⟨⟨hordered.number, hordered.course⟩, hi.wired.slot, ?_⟩, ?_⟩
      · intro i p name q hm
        obtain hm | hm := List.mem_append.mp hm
        · exact hi.wired.inbox i p name q hm
        · exact absurd (List.mem_singleton.mp hm).symm (hno _ _)
      · intro dest events hm
        obtain hm | hm := List.mem_append.mp hm
        · exact hi.asked dest events hm
        · obtain rfl := List.mem_singleton.mp hm
          cases o with
          | sendInput machine batch =>
            obtain ⟨rfl, rfl⟩ := Internal.sendInput.inj (Option.some.inj hmsg)
            exact ⟨batch, List.mem_of_getElem? ho, rfl⟩
          | announceCursorOwner machine tag => cases Option.some.inj hmsg
          | _ => cases hmsg
    · obtain rfl := Option.some.inj hs
      exact ⟨hi.routing, hi.wired, hi.asked⟩
  | service a =>
    simp only [Host.step] at hs
    split at hs
    · cases hs
    rename_i ha
    obtain ⟨w, hw, rfl⟩ := Option.map_eq_some_iff.mp hs
    have hmoves := Service.moves hw
    exact ⟨hi.routing, hi.wired.step hmoves, fun dest events hm =>
      hi.asked dest events (sendInput_step (by simpa using ha) hmoves hm)⟩

/-- Whatever the loop sends to a machine, it processed while it named that machine as the owner;
and the actor puts a batch that the loop asked for into the queue of an open session with its
destination, or nowhere. -/
theorem input_goes_to_the_owner {os : Os} {identity : Identity} {env : Env} {agent : State}
    {now : ℕ} {as : List Action} {h : Host}
    (hrun : Run (step os) Any (start os identity env agent now) as h) :
    h.routing.Routed ∧
    ∀ dest events rest, h.service.inbox = .sendInput dest events :: rest →
      h.Asked dest events ∧
      ∀ w, h.service.step .handle = some w → ∀ q,
        w.actor.queues q ≠ h.service.actor.queues q →
        (∃ t, h.service.tasks[q]? = some t ∧ t.stage.open = some dest) ∧
        (w.actor.queues q).items = (h.service.actor.queues q).items ++ [.input events] := by
  have hi := hrun.invariant (I := Sound) (fun _ _ _ hi _ hs => hi.step hs)
    (sound_start os identity env agent now)
  refine ⟨hi.routing.routed, fun dest events rest hin => ⟨?_, fun w hw q hq => ?_⟩⟩
  · exact hi.asked dest events (hin ▸ List.mem_cons_self)
  · have hactor : w.actor = h.service.actor.onSendInput dest events := by
      simp only [Service.step, hin, Option.some.injEq] at hw
      rw [← hw]
      rfl
    rw [hactor] at hq ⊢
    exact hi.wired.delivers hq

/-- The studio's machine, in a row with three others, knows the second one to be online. -/
def besideTwo : Env := ⟨some Layout.row, {2}, some ⟨90, 50⟩, 0⟩

/-- The second machine calls and the session is established; the pointer crosses to it and a key
is pressed. -/
def typing : List Action :=
  (Service.Action.accept "10.0.0.2" ::
      (Service.opening ⟨2, 12⟩ "Laptop" 0).map (Service.Action.session 0) ++
      [Service.Action.handle, .session 0 .snapshot]).map .service ++
    [.loop (.rawInput 20 0), .loop (.take besideTwo), .loop (.report Sharing.keyA),
      .loop (.take besideTwo), .loop (.flush besideTwo none)] ++
    List.replicate 5 (.give false) ++ [.service .handle, .service .handle]

theorem input_goes_to_the_owner_typing :
    ∃ h, Run (step .windows) Any
        (start .windows ⟨1, 11⟩ besideTwo (.ofDoc together) 0) typing h ∧
      h.routing.sends = [(2, ⟨.cursorEnter 0 50, none⟩), (2, ⟨Sharing.keyA, some 1⟩)] ∧
      h.service.inbox = [.sendInput 2 [Sharing.keyA]] ∧ h.routing.Routed ∧
      ∀ w, h.service.step .handle = some w → ∀ q,
        w.actor.queues q ≠ h.service.actor.queues q →
        ∃ t, h.service.tasks[q]? = some t ∧ t.stage.open = some 2 := by
  obtain ⟨h, hrun, hh⟩ := run_of_replay (step .windows) Any
    (start .windows ⟨1, 11⟩ besideTwo (.ofDoc together) 0) typing
    (fun h => (h.routing.sends, h.service.inbox))
    (b := ([(2, ⟨.cursorEnter 0 50, none⟩), (2, ⟨Sharing.keyA, some 1⟩)],
      [.sendInput 2 [Sharing.keyA]])) (by decide +kernel)
  obtain ⟨hsends, hin⟩ := Prod.mk.inj hh
  obtain ⟨hrouted, hdeliver⟩ := input_goes_to_the_owner hrun
  exact ⟨h, hrun, hsends, hin, hrouted, fun w hw q hq =>
    ((hdeliver 2 [Sharing.keyA] [] hin).2 w hw q hq).1⟩

end Host
end InputShare

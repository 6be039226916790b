import InputShare.Agent.Strokes
import InputShare.Core.Screens

/-! Two machines, their keyboards and their desktops. Each runs its hook and its loop; what a loop
asks for goes through the actor and the connection to the other one. -/
namespace InputShare
open Links Runs

structure Station where
  sharing : Sharing
  /-- What the loop has asked the networking actor for. -/
  mailbox : List (Output (Option ℕ))
  /-- The last announcement received, waiting for the loop. -/
  announced : Option MachineId
  /-- Input from the other machine, waiting for the loop. -/
  remoteInput : List (List InputEvent)
  /-- What the person at this machine holds down. -/
  held : Finset Key
  /-- What has taken effect on this desktop. -/
  desktop : List InputEvent

structure Duo where
  station : Bool → Station
  /-- The connection from one machine to the other. -/
  link : Bool → Link Message
  /-- A full queue has dropped a batch. -/
  dropped : Bool

namespace Station

def turn (os : Os) (s : Station) (a : Sharing.Action) : Option Station :=
  (s.sharing.fresh.step os a).map fun t => { s with
    sharing := t
    mailbox := s.mailbox ++ t.router.outgoing
    desktop := s.desktop ++ t.landed }

def use (event : InputEvent) (held : Finset Key) : Finset Key :=
  match event.stroke with
  | some (k, true) => insert k held
  | some (k, false) => held.erase k
  | none => held

def inbound (s : Station) : List InputEvent := s.sharing.arriving ++ s.remoteInput.flatten

def outbound (s : Station) : List InputEvent := Router.asked s.mailbox ++ s.sharing.queued

end Station

namespace Duo

inductive Action where
  /-- Something is pressed or released at `a`, or the wheel is turned. -/
  | device (a : Bool) (event : InputEvent)
  /-- Ctrl+Alt+F12, which the hook lets through and does not report. -/
  | escape (a : Bool) (scan : ℕ) (extended : Bool)
  | turn (a : Bool) (x : Sharing.Action)
  | flush (a : Bool) (env : Env)
  /-- The loop starts on the next batch of remote input. -/
  | receive (a : Bool)
  /-- The actor does the next thing it was asked for. -/
  | post (a : Bool)
  /-- The session writes a message to the other machine. -/
  | write (a : Bool)
  /-- The session of the other machine reads one. -/
  | read (a : Bool)

def set (w : Duo) (a : Bool) (s : Station) : Duo :=
  { w with station := Function.update w.station a s }

def setLink (w : Duo) (a : Bool) (l : Link Message) : Duo :=
  { w with link := Function.update w.link a l }

def unprompted : Sharing.Action → Bool
  | .decide _ | .glance _ | .rawInput .. | .take _ | .next _ | .heartbeat _ => true
  | .report _ | .escape | .batch _ | .flush .. | .stop _ => false

/-- The actor passes on what the loop asked for. A full queue ends the session. -/
def ask (w : Duo) (a : Bool) : Output (Option ℕ) → Duo
  | .sendInput dest events =>
    if dest = (w.station (!a)).sharing.router.me then
      { w.setLink a ((w.link a).send Room.queueLimit (.input (events.map Sample.event))) with
        dropped := w.dropped || !(w.link a).hasRoom Room.queueLimit }
    else w
  | .announceCursorOwner machine _ =>
    w.setLink a ((w.link a).offer Room.queueLimit (.cursorOwner machine))
  | _ => w

def deliver (w : Duo) (b : Bool) : Message → Duo
  | .input events =>
    let s := w.station b
    if s.remoteInput.length < Room.remoteLimit then
      w.set b { s with remoteInput := s.remoteInput ++ [events] }
    else { w with dropped := true }
  | .cursorOwner machine => w.set b { w.station b with announced := some machine }
  | _ => w

def f12 (scan : ℕ) (extended : Bool) : InputEvent := .key 123 scan true extended

def step (os : Bool → Os) (w : Duo) : Action → Option Duo
  | .device a event =>
    if event.discrete then
      ((w.station a).turn (os a) (.report event)).map fun s =>
        w.set a { s with held := Station.use event s.held }
    else none
  | .escape a scan extended =>
    ((w.station a).turn (os a) .escape).map fun s =>
      w.set a { s with
        held := Station.use (f12 scan extended) s.held
        desktop := s.desktop ++ [f12 scan extended] }
  | .turn a x => if unprompted x then ((w.station a).turn (os a) x).map (w.set a) else none
  | .flush a env =>
    (({ w.station a with announced := none } : Station).turn (os a)
      (.flush env (w.station a).announced)).map (w.set a)
  | .receive a =>
    match (w.station a).remoteInput with
    | [] => none
    | events :: rest =>
      (({ w.station a with remoteInput := rest } : Station).turn (os a) (.batch events)).map
        (w.set a)
  | .post a =>
    match (w.station a).mailbox with
    | [] => none
    | o :: rest => some ((w.set a { w.station a with mailbox := rest }).ask a o)
  | .write a => (w.link a).write.map (w.setLink a)
  | .read a => (w.link a).read.map fun p => (w.setLink a p.2).deliver (!a) p.1

/-- Both loops start with the pointer on their own machine, and nothing is held. -/
def start (os : Bool → Os) (me : Bool → MachineId) (env : Bool → Env) : Duo :=
  { station := fun a => ⟨.start (os a) (me a) (env a), [], none, [], ∅, []⟩
    link := fun _ => .fresh
    dropped := false }

def carried (messages : List Message) : List InputEvent :=
  messages.flatMap fun
    | .input events => events
    | _ => []

/-- What may still take effect on the desktop of `b`. -/
def coming (w : Duo) (b : Bool) : List InputEvent :=
  (w.station b).inbound ++ carried (w.link (!b)).inFlight ++ (w.station (!b)).outbound

def Held (w : Duo) (k : Key) : Prop := ∃ a, k ∈ (w.station a).held

/-- The key will go up on the desktop of `b`, if nothing keeps its release from it. -/
def Owed (w : Duo) (b : Bool) (k : Key) : Prop := w.Held k ∨ ∃ e ∈ w.coming b, e.lifts k = true

/-- What a step keeps from the desktop of `b`: a hook swallows it, a loop takes it in while the
pointer is here, gives it up before it is sent or does not replay it, or it is sent elsewhere. -/
def lost (os : Bool → Os) (w : Duo) (x : Action) (b : Bool) : List InputEvent :=
  match x with
  | .turn a y =>
    if a = b then (w.station a).sharing.missed (os a) y else (w.station a).sharing.withheld y
  | .flush a env =>
    if a = b then [] else (w.station a).sharing.withheld (.flush env (w.station a).announced)
  | .post a =>
    if a = b then []
    else
      match (w.station a).mailbox.head? with
      | some (.sendInput dest events) =>
        if dest = (w.station b).sharing.router.me then [] else events.map Sample.event
      | _ => []
  | _ => []

/-- What a step replays on the desktop of `b`. -/
def injects (w : Duo) (x : Action) (b : Bool) : List InputEvent :=
  match x with
  | .turn a y => if a = b then (w.station a).sharing.replays y else []
  | _ => []

/-- A release goes wherever its key is down: one that is kept from a desktop finds the key up
there, or still held, or another release on its way there. And a press is replayed only while its
release can follow. -/
def Follows (os : Bool → Os) (w : Duo) (x : Action) : Prop :=
  ∀ b, (∀ e ∈ w.lost os x b, ∀ p ∈ e.stroke, p.2 = false →
      Down p.1 (w.station b).desktop = true → w.Held p.1 ∨
        (w.lost os x b).countP (InputEvent.lifts p.1) <
          (w.coming b).countP (InputEvent.lifts p.1)) ∧
    ∀ e ∈ w.injects x b, ∀ p ∈ e.stroke, p.2 = true → w.Owed b p.1

instance (w : Duo) (k : Key) : Decidable (w.Held k) :=
  inferInstanceAs (Decidable (∃ a, k ∈ (w.station a).held))

instance (w : Duo) (b : Bool) (k : Key) : Decidable (w.Owed b k) :=
  inferInstanceAs (Decidable (w.Held k ∨ ∃ e ∈ w.coming b, e.lifts k = true))

instance (os : Bool → Os) (w : Duo) (x : Action) : Decidable (Follows os w x) :=
  inferInstanceAs (Decidable (∀ b, (∀ e ∈ w.lost os x b, ∀ p ∈ e.stroke, p.2 = false →
      Down p.1 (w.station b).desktop = true → w.Held p.1 ∨
        (w.lost os x b).countP (InputEvent.lifts p.1) <
          (w.coming b).countP (InputEvent.lifts p.1)) ∧
    ∀ e ∈ w.injects x b, ∀ p ∈ e.stroke, p.2 = true → w.Owed b p.1))

/-- Nobody holds anything, and every queue is empty. -/
structure Quiescent (w : Duo) : Prop where
  held : ∀ a, (w.station a).held = ∅
  hook : ∀ a, (w.station a).sharing.deciding = none ∧ (w.station a).sharing.channel = []
  loop : ∀ a, (w.station a).sharing.router.pending = [] ∧ (w.station a).sharing.batch = []
  actor : ∀ a, (w.station a).mailbox = [] ∧ (w.station a).remoteInput = []
  link : ∀ a, (w.link a).inFlight = []

@[simp] theorem set_same (w : Duo) (a : Bool) (s : Station) : (w.set a s).station a = s := by
  simp [set]
@[simp] theorem set_other (w : Duo) (a : Bool) (s : Station) :
    (w.set a s).station (!a) = w.station (!a) := by simp [set]
@[simp] theorem set_link (w : Duo) (a : Bool) (s : Station) : (w.set a s).link = w.link := rfl
@[simp] theorem set_dropped (w : Duo) (a : Bool) (s : Station) :
    (w.set a s).dropped = w.dropped := rfl
@[simp] theorem setLink_station (w : Duo) (a : Bool) (l : Link Message) :
    (w.setLink a l).station = w.station := rfl
theorem setLink_link (w : Duo) (a c : Bool) (l : Link Message) :
    (w.setLink a l).link c = if c = a then l else w.link c := Function.update_apply ..

theorem carried_append (xs ys : List Message) : carried (xs ++ ys) = carried xs ++ carried ys :=
  List.flatMap_append

theorem count_set {w : Duo} {a : Bool} {s : Station} {landed missed withheld : List InputEvent}
    {p : InputEvent → Bool}
    (hin : (w.station a).inbound.countP p ≤
      s.inbound.countP p + landed.countP p + missed.countP p)
    (hout : (w.station a).outbound.countP p ≤ s.outbound.countP p + withheld.countP p) (b : Bool) :
    (w.coming b).countP p ≤ ((w.set a s).coming b).countP p +
      (if a = b then landed else []).countP p + (if a = b then missed else withheld).countP p := by
  obtain rfl | hb := eq_or_ne a b
  · simp only [coming, set_same, set_other, set_link, List.countP_append, if_true]
    omega
  · obtain rfl : b = !a := (Bool.not_eq.mpr hb).symm
    simp only [coming, set_same, set_other, set_link, Bool.not_not, List.countP_append, if_neg hb,
      List.countP_nil]
    omega

end Duo

namespace Station

theorem turn_spec {os : Os} {s t : Station} {a : Sharing.Action} (h : s.turn os a = some t) :
    s.sharing.fresh.step os a = some t.sharing ∧ t.remoteInput = s.remoteInput ∧
      t.held = s.held ∧ t.mailbox = s.mailbox ++ t.sharing.router.outgoing ∧
      t.desktop = s.desktop ++ (s.sharing.passes os a ++ s.sharing.replays a) := by
  obtain ⟨u, hu, rfl⟩ := Option.map_eq_some_iff.mp h
  exact ⟨hu, rfl, rfl, rfl, by rw [Sharing.landed_step hu]⟩

theorem turn_count {os : Os} {s t : Station} {a : Sharing.Action} (h : s.turn os a = some t)
    (p : InputEvent → Bool) :
    s.inbound.countP p ≤ t.inbound.countP p +
        (s.sharing.passes os a ++ s.sharing.replays a).countP p +
        (s.sharing.missed os a).countP p ∧
      s.outbound.countP p ≤ t.outbound.countP p + (s.sharing.withheld a).countP p := by
  obtain ⟨hs, hremote, -, hmail, -⟩ := turn_spec h
  have hin := Sharing.count_arriving hs p
  have hout := Sharing.count_queued hs p
  rw [Sharing.landed_step hs] at hin
  have hasked : Router.asked t.mailbox =
      Router.asked s.mailbox ++ Router.asked t.sharing.router.outgoing := by
    rw [hmail, Router.asked, Router.inputs_append, List.map_append]
    rfl
  constructor
  · simp only [inbound, hremote, List.countP_append] at hin ⊢
    omega
  · simp only [outbound, hasked, List.countP_append]
    omega

end Station

namespace Duo
variable {os : Bool → Os} {w t : Duo} {x : Action}

/-- What one step does to a desktop and to what is on its way there. -/
structure Moved (os : Bool → Os) (w t : Duo) (x : Action) (b : Bool)
    (landed : List InputEvent) : Prop where
  desktop : (t.station b).desktop = (w.station b).desktop ++ landed
  count : t.dropped = false → ∀ p, (w.coming b).countP p ≤
    (t.coming b).countP p + landed.countP p + (w.lost os x b).countP p
  landed : landed = [] ∨ ∃ e, landed = [e] ∧ w.lost os x b = [] ∧
    (e ∈ w.injects x b ∨ (∃ y ∈ (w.station b).sharing.deciding, y.event = e) ∨
      ∀ k, e.presses k = true → k ∈ (t.station b).held)

theorem landed_turn {s : Sharing} {o : Os} {y : Sharing.Action} :
    s.passes o y ++ s.replays y = [] ∨ ∃ e, s.passes o y ++ s.replays y = [e] ∧
      s.missed o y = [] ∧ (e ∈ s.replays y ∨ ∃ z ∈ s.deciding, z.event = e) := by
  cases y with
  | decide now =>
    cases hc : (s.router.capture.suppressingNow o now).2 with
    | true => exact .inl (by simp [Sharing.passes, Sharing.replays, hc])
    | false =>
      cases hd : s.deciding with
      | none => exact .inl (by simp [Sharing.passes, Sharing.replays, hd])
      | some z =>
        refine .inr ⟨z.event, ?_, ?_, .inr ⟨z, rfl, rfl⟩⟩
        · simp [Sharing.passes, Sharing.replays, hc, hd]
        · simp [Sharing.missed, hc]
  | next env =>
    cases hb : s.batch with
    | nil => exact .inl (by simp [Sharing.passes, Sharing.replays, hb])
    | cons e rest =>
      by_cases h : s.router.owner = s.router.me ∧ e.discrete = true
      · refine .inr ⟨e, ?_, ?_, .inl ?_⟩ <;>
          simp [Sharing.passes, Sharing.replays, Sharing.missed, hb, h]
      · exact .inl (by simpa [Sharing.passes, Sharing.replays, hb] using h)
  | _ => exact .inl rfl

theorem Moved.of_set {a : Bool} (s : Station) (landed missed withheld : List InputEvent)
    (hlost : ∀ b, w.lost os x b = if a = b then missed else withheld)
    (hdesktop : s.desktop = (w.station a).desktop ++ landed)
    (hcount : ∀ p, (w.station a).inbound.countP p ≤
        s.inbound.countP p + landed.countP p + missed.countP p ∧
      (w.station a).outbound.countP p ≤ s.outbound.countP p + withheld.countP p)
    (hlanded : landed = [] ∨ ∃ e, landed = [e] ∧ missed = [] ∧
      (e ∈ w.injects x a ∨ (∃ y ∈ (w.station a).sharing.deciding, y.event = e) ∨
        ∀ k, e.presses k = true → k ∈ s.held)) (b : Bool) :
    Moved os w (w.set a s) x b (if a = b then landed else []) := by
  refine ⟨?_, fun _ p => ?_, ?_⟩
  · obtain rfl | hb := eq_or_ne a b
    · simpa using hdesktop
    · obtain rfl : b = !a := (Bool.not_eq.mpr hb).symm
      simp
  · rw [hlost b]
    exact count_set (hcount p).1 (hcount p).2 b
  · obtain rfl | hb := eq_or_ne a b
    · rw [if_pos rfl, hlost, if_pos rfl, set_same]
      exact hlanded
    · exact .inl (if_neg hb)

theorem turn_batch {o : Os} {s t : Station} {events : List InputEvent}
    (h : s.turn o (.batch events) = some t) : s.sharing.batch = [] ∧
      t.sharing = { s.sharing.fresh with batch := events } := by
  obtain ⟨u, hu, rfl⟩ := Option.map_eq_some_iff.mp h
  obtain ⟨hw, hu⟩ := Option.ite_none_right_eq_some.mp hu
  obtain rfl := Option.some.inj hu
  exact ⟨List.isEmpty_iff.mp (Bool.and_eq_true_iff.mp hw).2, rfl⟩

theorem Moved.still {b : Bool} (hdesktop : (t.station b).desktop = (w.station b).desktop)
    (hcount : t.dropped = false → ∀ p, (w.coming b).countP p ≤
      (t.coming b).countP p + (w.lost os x b).countP p) : Moved os w t x b [] :=
  ⟨by rw [hdesktop, List.append_nil], hcount, .inl rfl⟩

theorem asked_cons (o : Output (Option ℕ)) (out : List (Output (Option ℕ))) :
    Router.asked (o :: out) = Router.asked [o] ++ Router.asked out := by
  rw [Router.asked, ← List.singleton_append, Router.inputs_append, List.map_append]
  rfl

theorem ask_station (a : Bool) (o : Output (Option ℕ)) : (w.ask a o).station = w.station := by
  cases o with
  | sendInput dest events =>
    simp only [ask]
    split_ifs <;> rfl
  | _ => rfl

theorem ask_link_other (a : Bool) (o : Output (Option ℕ)) :
    (w.ask a o).link (!a) = w.link (!a) := by
  cases o with
  | sendInput dest events =>
    simp only [ask]
    split_ifs
    · exact (setLink_link w a (!a) _).trans (if_neg (by simp))
    · rfl
  | announceCursorOwner machine tag => exact (setLink_link w a (!a) _).trans (if_neg (by simp))
  | _ => rfl

theorem ask_carried {a : Bool} {o : Output (Option ℕ)} (hdrop : (w.ask a o).dropped = false) :
    carried ((w.ask a o).link a).inFlight = carried (w.link a).inFlight ++ Router.asked [o] ∨
      ∃ dest events, o = .sendInput dest events ∧ dest ≠ (w.station (!a)).sharing.router.me ∧
        w.ask a o = w := by
  cases o with
  | sendInput dest events =>
    by_cases hd : dest = (w.station (!a)).sharing.router.me
    · refine .inl ?_
      simp only [ask, if_pos hd, Bool.or_eq_false_iff, Bool.not_eq_false'] at hdrop ⊢
      rw [setLink_link, if_pos rfl, Link.inFlight_send, if_pos hdrop.2, carried_append]
      simp [carried, Router.asked, Router.inputs, Function.comp_def]
    · exact .inr ⟨dest, events, rfl, hd, by simp [ask, hd]⟩
  | announceCursorOwner machine tag =>
    refine .inl ?_
    simp only [ask]
    rw [setLink_link, if_pos rfl, Link.inFlight_offer, carried_append]
    split_ifs <;> simp [carried, Router.asked, Router.inputs]
  | _ => exact .inl (List.append_nil _).symm

theorem moved_post {a : Bool} {o : Output (Option ℕ)} {rest : List (Output (Option ℕ))}
    (hmail : (w.station a).mailbox = o :: rest) (b : Bool) :
    Moved os w ((w.set a { w.station a with mailbox := rest }).ask a o) (.post a) b [] := by
  have hout : (w.station a).outbound =
      Router.asked [o] ++ ({ w.station a with mailbox := rest } : Station).outbound := by
    simp only [Station.outbound, hmail]
    rw [asked_cons, List.append_assoc]
  obtain rfl | hb := eq_or_ne a b
  · refine .still (by rw [ask_station, set_same]) fun _ p => Nat.le_add_right_of_le (le_of_eq ?_)
    simp only [coming, ask_station, ask_link_other, set_same, set_other, set_link]
    rfl
  · obtain rfl : b = !a := (Bool.not_eq.mpr hb).symm
    refine .still (by rw [ask_station, set_other]) fun hdrop p => ?_
    simp only [coming, ask_station, Bool.not_not, set_same, set_other, hout, List.countP_append]
    obtain h | ⟨dest, events, rfl, hd, h⟩ := ask_carried hdrop
    · rw [h, set_link, List.countP_append]
      omega
    · rw [set_other] at hd
      have hlost : w.lost os (.post a) (!a) = Router.asked [.sendInput dest events] := by
        simp [lost, hmail, hd, Router.asked, Router.inputs, Function.comp_def]
      rw [h, hlost, set_link]
      omega

theorem deliver_spec {c : Bool} (m : Message) : w.deliver c m = { w with dropped := true } ∨
    ∃ s, w.deliver c m = w.set c s ∧ s.desktop = (w.station c).desktop ∧
      s.outbound = (w.station c).outbound ∧
      s.inbound = (w.station c).inbound ++ carried [m] ∧
      s.sharing = (w.station c).sharing ∧ s.held = (w.station c).held := by
  cases m with
  | input events =>
    by_cases h : (w.station c).remoteInput.length < Room.remoteLimit
    · refine .inr ⟨_, if_pos h, rfl, rfl, ?_⟩
      simp [Station.inbound, carried]
    · exact .inl (if_neg h)
  | cursorOwner machine => exact .inr ⟨_, rfl, rfl, rfl, (List.append_nil _).symm, rfl, rfl⟩
  | _ =>
    refine .inr ⟨w.station c, ?_, rfl, rfl, (List.append_nil _).symm, rfl, rfl⟩
    simp [deliver, set]

theorem moved_read {a : Bool} {m : Message} {l : Link Message}
    (hread : (w.link a).read = some (m, l)) (b : Bool) :
    Moved os w ((w.setLink a l).deliver (!a) m) (.read a) b [] := by
  have hflight : carried (w.link a).inFlight = carried [m] ++ carried l.inFlight := by
    rw [Link.inFlight_read hread, ← List.singleton_append, carried_append]
  obtain hd | ⟨s, hs, hdesk, hout, hin, -⟩ := (w.setLink a l).deliver_spec (c := !a) m
  · rw [hd]
    exact .still rfl fun hdrop => by cases hdrop
  rw [hs]
  obtain rfl | hb := eq_or_ne b a
  · have hother : ((w.setLink b l).set (!b) s).station b = w.station b := by
      simpa using set_other (w.setLink b l) (!b) s
    refine .still (by rw [hother]) fun _ p => Nat.le_add_right_of_le (le_of_eq ?_)
    simp only [coming, hother, set_same, set_link, setLink_link, hout, setLink_station]
    simp
  · obtain rfl : b = !a := (Bool.not_eq.mpr hb.symm).symm
    have hother : ((w.setLink a l).set (!a) s).station a = w.station a := by
      simpa using set_other (w.setLink a l) (!a) s
    refine .still (by rw [set_same, hdesk, setLink_station]) fun _ p =>
      Nat.le_add_right_of_le (le_of_eq ?_)
    simp only [coming, hother, set_same, set_link, setLink_link, hin, setLink_station, Bool.not_not,
      hflight, if_true, List.countP_append]
    omega

theorem moved (hs : w.step os x = some t) (b : Bool) : ∃ landed, Moved os w t x b landed := by
  cases x with
  | device a event =>
    obtain ⟨-, hs⟩ := Option.ite_none_right_eq_some.mp hs
    obtain ⟨s, hturn, rfl⟩ := Option.map_eq_some_iff.mp hs
    have hdesk := (Station.turn_spec hturn).2.2.2.2
    exact ⟨_, Moved.of_set { s with held := Station.use event s.held } [] [] []
      (fun _ => (ite_self _).symm) hdesk (Station.turn_count hturn) (.inl rfl) b⟩
  | escape a scan extended =>
    obtain ⟨s, hturn, rfl⟩ := Option.map_eq_some_iff.mp hs
    have hdesk : s.desktop = (w.station a).desktop := by
      simpa [Sharing.passes, Sharing.replays] using (Station.turn_spec hturn).2.2.2.2
    refine ⟨_, Moved.of_set { s with
      held := Station.use (f12 scan extended) s.held
      desktop := s.desktop ++ [f12 scan extended] } [f12 scan extended] [] []
      (fun _ => (ite_self _).symm) (by rw [hdesk]) (fun p => ?_)
      (.inr ⟨_, rfl, rfl, .inr (.inr fun k hk => ?_)⟩) b⟩
    · obtain ⟨hin, hout⟩ := Station.turn_count hturn p
      refine ⟨?_, hout⟩
      have hin' : (w.station a).inbound.countP p ≤ s.inbound.countP p := hin
      exact Nat.le_add_right_of_le (Nat.le_add_right_of_le hin')
    · have hkey : Key.key 123 scan extended = k := by
        simpa [InputEvent.presses, f12, InputEvent.stroke] using hk
      rw [← hkey]
      exact Finset.mem_insert_self _ _
  | turn a y =>
    obtain ⟨-, hs⟩ := Option.ite_none_right_eq_some.mp hs
    obtain ⟨s, hturn, rfl⟩ := Option.map_eq_some_iff.mp hs
    have hdesk := (Station.turn_spec hturn).2.2.2.2
    refine ⟨_, Moved.of_set s _ _ _ (fun _ => rfl) hdesk (Station.turn_count hturn) ?_ b⟩
    obtain h | ⟨e, he, hm, h⟩ := landed_turn (s := (w.station a).sharing) (o := os a) (y := y)
    · exact .inl h
    · refine .inr ⟨e, he, hm, h.imp (fun h => ?_) .inl⟩
      simpa [injects] using h
  | flush a env =>
    obtain ⟨s, hturn, rfl⟩ := Option.map_eq_some_iff.mp hs
    have hdesk := (Station.turn_spec hturn).2.2.2.2
    exact ⟨_, Moved.of_set s [] [] _ (fun _ => rfl) hdesk
      (Station.turn_count (s := { w.station a with announced := none }) hturn) (.inl rfl) b⟩
  | receive a =>
    simp only [step] at hs
    split at hs
    · cases hs
    rename_i events rest hr
    obtain ⟨s, hturn, rfl⟩ := Option.map_eq_some_iff.mp hs
    obtain ⟨-, hremote, -, -, hdesk⟩ := Station.turn_spec hturn
    obtain ⟨hb, hsharing⟩ := turn_batch hturn
    refine ⟨_, Moved.of_set s [] [] [] (fun _ => (ite_self _).symm) hdesk (fun p => ⟨?_, ?_⟩)
      (.inl rfl) b⟩
    · have hb' : (w.station a).sharing.batch = [] := hb
      simp [Station.inbound, Sharing.arriving, hremote, hsharing, hr, hb']
    · exact (Station.turn_count (s := { w.station a with remoteInput := rest }) hturn p).2
  | post a =>
    simp only [step] at hs
    split at hs
    · cases hs
    rename_i o rest hmail
    obtain rfl := Option.some.inj hs
    exact ⟨[], moved_post hmail b⟩
  | write a =>
    obtain ⟨l, hl, rfl⟩ := Option.map_eq_some_iff.mp hs
    refine ⟨[], .still rfl fun _ p => Nat.le_add_right_of_le (le_of_eq ?_)⟩
    have hflight : ((w.setLink a l).link (!b)).inFlight = (w.link (!b)).inFlight := by
      rw [setLink_link]
      split_ifs with h
      · rw [h, Link.inFlight_write hl]
      · rfl
    simp only [coming, hflight, setLink_station]
  | read a =>
    obtain ⟨⟨m, l⟩, hread, rfl⟩ := Option.map_eq_some_iff.mp hs
    exact ⟨[], moved_read hread b⟩

/-- What one step does to what is held at a machine, and to what its hook has in hand. -/
inductive Hand (s t : Station) : Prop where
  | same (hd : t.sharing.deciding = none ∨ t.sharing.deciding = s.sharing.deciding)
      (hh : s.held ⊆ t.held)
  | used (event : InputEvent) (n : Option ℕ) (hd : t.sharing.deciding = some ⟨event, n⟩)
      (hc : ⟨event, n⟩ ∈ t.sharing.channel) (hh : t.held = Station.use event s.held)

theorem hand_turn {o : Os} {s u : Station} {y : Sharing.Action} (h : s.turn o y = some u)
    (hy : ∀ e, y ≠ .report e) : (u.sharing.deciding = none ∨
      u.sharing.deciding = s.sharing.deciding) ∧ s.held ⊆ u.held := by
  obtain ⟨hs, -, hheld, -, -⟩ := Station.turn_spec h
  refine ⟨?_, Finset.subset_of_eq hheld.symm⟩
  generalize u.sharing = v at hs
  cases Sharing.stepped hs with
  | report => exact absurd rfl (hy _)
  | swallow | pass => exact .inl rfl
  | _ => exact .inr rfl

theorem hand_set {a : Bool} {s : Station} (h : Hand (w.station a) s) (c : Bool) :
    Hand (w.station c) ((w.set a s).station c) := by
  obtain rfl | hc := eq_or_ne a c
  · rw [set_same]
    exact h
  · obtain rfl : c = !a := (Bool.not_eq.mpr hc).symm
    rw [set_other]
    exact .same (.inr rfl) (Finset.Subset.refl _)

theorem hand (hs : w.step os x = some t) (c : Bool) : Hand (w.station c) (t.station c) := by
  cases x with
  | device a event =>
    obtain ⟨-, hs⟩ := Option.ite_none_right_eq_some.mp hs
    obtain ⟨s, hturn, rfl⟩ := Option.map_eq_some_iff.mp hs
    obtain ⟨u, hstep, rfl⟩ := Option.map_eq_some_iff.mp hturn
    obtain ⟨-, hu⟩ := Option.ite_none_right_eq_some.mp hstep
    obtain rfl := Option.some.inj hu
    exact hand_set (.used event _ rfl (List.mem_append_right _ List.mem_cons_self) rfl) c
  | escape a scan extended =>
    obtain ⟨s, hturn, rfl⟩ := Option.map_eq_some_iff.mp hs
    obtain ⟨hd, hh⟩ := hand_turn hturn (by simp)
    exact hand_set (s := { s with
      held := Station.use (f12 scan extended) s.held
      desktop := s.desktop ++ [f12 scan extended] })
      (.same hd (Finset.Subset.trans hh (Finset.subset_insert _ _))) c
  | turn a y =>
    obtain ⟨hy, hs⟩ := Option.ite_none_right_eq_some.mp hs
    obtain ⟨s, hturn, rfl⟩ := Option.map_eq_some_iff.mp hs
    obtain ⟨hd, hh⟩ := hand_turn hturn fun e he => by rw [he] at hy; cases hy
    exact hand_set (.same hd hh) c
  | flush a env =>
    obtain ⟨s, hturn, rfl⟩ := Option.map_eq_some_iff.mp hs
    obtain ⟨hd, hh⟩ := hand_turn hturn (by simp)
    exact hand_set (.same hd hh) c
  | receive a =>
    simp only [step] at hs
    split at hs
    · cases hs
    obtain ⟨s, hturn, rfl⟩ := Option.map_eq_some_iff.mp hs
    obtain ⟨hd, hh⟩ := hand_turn hturn (by simp)
    exact hand_set (.same hd hh) c
  | post a =>
    simp only [step] at hs
    split at hs
    · cases hs
    rename_i o rest hmail
    obtain rfl := Option.some.inj hs
    rw [ask_station]
    exact hand_set (s := { w.station a with mailbox := rest })
      (.same (.inr rfl) (Finset.Subset.refl _)) c
  | write a =>
    obtain ⟨l, hl, rfl⟩ := Option.map_eq_some_iff.mp hs
    exact .same (.inr rfl) (Finset.Subset.refl _)
  | read a =>
    obtain ⟨⟨m, l⟩, hread, rfl⟩ := Option.map_eq_some_iff.mp hs
    obtain hd | ⟨s, hs, -, -, -, hsharing, hheld⟩ := (w.setLink a l).deliver_spec (c := !a) m
    · rw [hd]
      exact .same (.inr rfl) (Finset.Subset.refl _)
    · rw [hs]
      exact hand_set (w := w.setLink a l) (.same (.inr (by rw [hsharing]))
        (Finset.subset_of_eq hheld.symm)) c

/-- Every press the hook has in hand is of a key held there, and every key that is down will go up,
if no batch has been dropped. -/
structure Sound (w : Duo) : Prop where
  pressed : ∀ a, ∀ y ∈ (w.station a).sharing.deciding, ∀ k, y.event.presses k = true →
    k ∈ (w.station a).held
  owed : w.dropped = false → ∀ b k, Down k (w.station b).desktop = true → w.Owed b k

theorem presses_use {e : InputEvent} {k : Key} {held : Finset Key} (h : e.presses k = true) :
    k ∈ Station.use e held := by
  have hs : e.stroke = some (k, true) := of_decide_eq_true h
  simp [Station.use, hs]

theorem held_use {e : InputEvent} {k : Key} {held : Finset Key} (hk : k ∈ held)
    (h : e.lifts k = false) : k ∈ Station.use e held := by
  cases hs : e.stroke with
  | none => simpa [Station.use, hs] using hk
  | some p =>
    obtain ⟨k', down⟩ := p
    cases down with
    | true =>
      simp only [Station.use, hs]
      exact Finset.mem_insert_of_mem hk
    | false =>
      have hne : k ≠ k' := by
        intro heq
        simp [InputEvent.lifts, hs, heq] at h
      simp only [Station.use, hs]
      exact Finset.mem_erase.mpr ⟨hne, hk⟩

theorem mem_coming {c : Bool} {y : Captured}
    (hd : (t.station c).sharing.deciding = some y) (hc : y ∈ (t.station c).sharing.channel)
    (b : Bool) : y.event ∈ t.coming b := by
  obtain rfl | hb := eq_or_ne c b
  · have hin : y.event ∈ (t.station c).inbound := by
      simp [Station.inbound, Sharing.arriving, hd]
    exact List.mem_append_left _ (List.mem_append_left _ hin)
  · obtain rfl : b = !c := (Bool.not_eq.mpr hb).symm
    have hout : y.event ∈ (t.station (!(!c))).outbound := by
      rw [Bool.not_not]
      exact List.mem_append_right _ (List.mem_append_right _ (List.mem_map_of_mem hc))
    exact List.mem_append_right _ hout

theorem held_step (hs : w.step os x = some t) {k : Key} (h : w.Held k) (b : Bool) :
    t.Owed b k := by
  obtain ⟨c, hc⟩ := h
  cases hand hs c with
  | same hd hh => exact .inl ⟨c, hh hc⟩
  | used event n hd hch hh =>
    cases hk : event.lifts k with
    | true => exact .inr ⟨event, mem_coming hd hch b, hk⟩
    | false => exact .inl ⟨c, hh ▸ held_use hc hk⟩

theorem dropped_step (hs : w.step os x = some t) (h : t.dropped = false) : w.dropped = false := by
  cases x with
  | post a =>
    simp only [Duo.step] at hs
    split at hs
    · cases hs
    rename_i o rest hmail
    obtain rfl := Option.some.inj hs
    cases o with
    | sendInput dest events =>
      simp only [ask] at h
      split_ifs at h
      · exact (Bool.or_eq_false_iff.mp h).1
      · exact h
    | _ => exact h
  | read a =>
    obtain ⟨⟨m, l⟩, hread, rfl⟩ := Option.map_eq_some_iff.mp hs
    obtain hd | ⟨s, hs, -⟩ := (w.setLink a l).deliver_spec (c := !a) m
    · rw [hd] at h
      cases h
    · rw [hs] at h
      exact h
  | write a =>
    obtain ⟨l, hl, rfl⟩ := Option.map_eq_some_iff.mp hs
    exact h
  | receive a =>
    simp only [Duo.step] at hs
    split at hs
    · cases hs
    obtain ⟨s, hturn, rfl⟩ := Option.map_eq_some_iff.mp hs
    exact h
  | device a event =>
    obtain ⟨-, hs⟩ := Option.ite_none_right_eq_some.mp hs
    obtain ⟨s, hturn, rfl⟩ := Option.map_eq_some_iff.mp hs
    exact h
  | turn a y =>
    obtain ⟨-, hs⟩ := Option.ite_none_right_eq_some.mp hs
    obtain ⟨s, hturn, rfl⟩ := Option.map_eq_some_iff.mp hs
    exact h
  | escape a scan extended =>
    obtain ⟨s, hturn, rfl⟩ := Option.map_eq_some_iff.mp hs
    exact h
  | flush a env =>
    obtain ⟨s, hturn, rfl⟩ := Option.map_eq_some_iff.mp hs
    exact h

/-- What was owed is owed still, unless it is what the step loses, or has landed. -/
theorem owed_step {b : Bool} {k : Key} {landed : List InputEvent} (hs : w.step os x = some t)
    (hm : Moved os w t x b landed) (hdrop : t.dropped = false) (h : w.Owed b k)
    (hland : ∀ e ∈ landed, e.lifts k = false)
    (hlost : (∃ e ∈ w.lost os x b, e.lifts k = true) → w.Held k ∨
      (w.lost os x b).countP (InputEvent.lifts k) < (w.coming b).countP (InputEvent.lifts k)) :
    t.Owed b k := by
  obtain hheld | hcoming := h
  · exact held_step hs hheld b
  have hpos : 0 < (w.coming b).countP (InputEvent.lifts k) := List.countP_pos_iff.mpr hcoming
  have hcount := hm.count hdrop (InputEvent.lifts k)
  have hnone : landed.countP (InputEvent.lifts k) = 0 :=
    List.countP_eq_zero.mpr fun e he => Bool.not_eq_true _ ▸ hland e he
  by_cases hany : ∃ f ∈ w.lost os x b, f.lifts k = true
  · obtain hheld | hlt := hlost hany
    · exact held_step hs hheld b
    · exact .inr (List.countP_pos_iff.mp (by omega))
  · have hzero : (w.lost os x b).countP (InputEvent.lifts k) = 0 :=
      List.countP_eq_zero.mpr fun f hf hl => hany ⟨f, hf, hl⟩
    exact .inr (List.countP_pos_iff.mp (by omega))

theorem Sound.step (h : w.Sound) (hok : Follows os w x) (hs : w.step os x = some t) :
    t.Sound := by
  refine ⟨fun a y hy k hk => ?_, fun hdrop b k hdown => ?_⟩
  · cases hand hs a with
    | same hd hh =>
      obtain hd | hd := hd
      · rw [hd] at hy
        cases hy
      · exact hh (h.pressed a y (hd ▸ hy) k hk)
    | used event n hd hc hh =>
      rw [hd] at hy
      obtain rfl := Option.some.inj hy
      rw [hh]
      exact presses_use hk
  · obtain ⟨landed, hm⟩ := moved hs b
    obtain ⟨hlost, hinject⟩ := hok b
    -- a release of a key that is down is not the last one on its way there
    have hkept : Down k (w.station b).desktop = true → (∀ e ∈ landed, e.lifts k = false) →
        t.Owed b k := fun hd hland =>
      owed_step hs hm hdrop (h.owed (dropped_step hs hdrop) b k hd) hland fun ⟨f, hf, hl⟩ =>
        hlost f hf (k, false) (of_decide_eq_true hl) rfl hd
    rw [hm.desktop] at hdown
    obtain rfl | ⟨e, rfl, hno, hwhence⟩ := hm.landed
    · exact hkept (by simpa using hdown) (by simp)
    rw [down_append_singleton] at hdown
    split_ifs at hdown with hl
    have hland : ∀ f ∈ [e], f.lifts k = false := by simpa using hl
    obtain hd | hpress := Bool.or_eq_true_iff.mp hdown
    · exact hkept hd hland
    obtain hin | ⟨y, hy, rfl⟩ | hheld := hwhence
    · have howed := hinject e hin (k, true) (of_decide_eq_true hpress) rfl
      exact owed_step hs hm hdrop howed hland fun ⟨f, hf, _⟩ => absurd hf (by simp [hno])
    · exact held_step hs ⟨b, h.pressed b y hy k hpress⟩ b
    · exact .inl ⟨b, hheld k hpress⟩

theorem Quiescent.coming (h : w.Quiescent) (b : Bool) : w.coming b = [] := by
  simp [Duo.coming, Station.inbound, Station.outbound, Sharing.arriving, Sharing.queued, h.hook,
    h.loop, h.actor, h.link, carried, Router.asked, Router.inputs]

/-- Nothing is left down once nobody holds anything and nothing is on its way, provided every
release could follow its press. -/
theorem released_of_follows {me : Bool → MachineId} {env : Bool → Env} {as : List Action} {w : Duo}
    (hrun : Run (step os) (Follows os) (start os me env) as w) (hquiet : w.Quiescent)
    (hdrop : w.dropped = false) (b : Bool) : Released (w.station b).desktop := by
  have hstart : (start os me env).Sound := by
    refine ⟨fun a y hy => ?_, fun _ b k hk => ?_⟩
    · cases hy
    · cases hk
  have hi := hrun.invariant (I := Sound) (fun _ _ _ hi hok hs => hi.step hok hs) hstart
  refine (released_iff _).mpr fun k => Bool.eq_false_iff.mpr fun hdown => ?_
  obtain ⟨a, ha⟩ | ⟨e, he, -⟩ := hi.owed hdrop b k hdown
  · rw [hquiet.held a] at ha
    cases ha
  · rw [hquiet.coming b] at he
    cases he

instance (w : Duo) : Decidable w.Quiescent :=
  decidable_of_iff (∀ a, ((w.station a).held = ∅ ∧ (w.station a).sharing.deciding = none ∧
      (w.station a).sharing.channel = []) ∧ ((w.station a).sharing.router.pending = [] ∧
      (w.station a).sharing.batch = []) ∧ ((w.station a).mailbox = [] ∧
      (w.station a).remoteInput = []) ∧ (w.link a).inFlight = [])
    ⟨fun h => ⟨fun a => (h a).1.1, fun a => (h a).1.2, fun a => (h a).2.1, fun a => (h a).2.2.1,
      fun a => (h a).2.2.2⟩,
    fun h a => ⟨⟨h.held a, h.hook a⟩, h.loop a, h.actor a, h.link a⟩⟩

/-! Two machines side by side: the pointer is near the right edge of the first. -/

def windows : Bool → Os := fun _ => .windows

def numbered (a : Bool) : MachineId := if a then 2 else 1

def beside : Bool → Env
  | false => ⟨some Layout.row, {2}, some ⟨90, 50⟩, 0⟩
  | true => ⟨some Layout.row, {1}, some ⟨0, 50⟩, 0⟩

def keyAUp : InputEvent := .key 65 30 false false

def stroke (event : InputEvent) : List Action :=
  [.device false event, .turn false (.decide 0), .turn false (.take (beside false))]

/-- Its mouse pushes the pointer to the second machine. -/
def crosses : List Action :=
  [.turn false (.rawInput 20 0), .turn false (.take (beside false)), .post false, .post false,
    .write false, .write false, .read false, .read false, .receive true,
    .turn true (.next (beside true)), .flush true (beside true)]

def forwards : List Action :=
  [.flush false (beside false), .post false, .write false, .read false, .receive true,
    .turn true (.next (beside true))]

/-- A key typed before the pointer crosses, and one typed after. -/
theorem released_of_follows_typing : ∃ w, Run (step windows) (Follows windows)
      (start windows numbered beside)
      (stroke Sharing.keyA ++ stroke keyAUp ++ crosses ++ stroke Sharing.keyA ++ forwards ++
        stroke keyAUp ++ forwards) w ∧
    (w.station true).desktop = [Sharing.keyA, keyAUp] ∧
      ∀ b, Released (w.station b).desktop := by
  obtain ⟨w, hrun, hw⟩ := run_of_replay (step windows) (Follows windows)
    (start windows numbered beside)
    (stroke Sharing.keyA ++ stroke keyAUp ++ crosses ++ stroke Sharing.keyA ++ forwards ++
      stroke keyAUp ++ forwards)
    (fun w => (decide w.Quiescent, w.dropped, (w.station true).desktop))
    (b := (true, false, [Sharing.keyA, keyAUp])) (by decide +kernel)
  simp only [Prod.mk.injEq, decide_eq_true_eq] at hw
  exact ⟨w, hrun, hw.2.2, released_of_follows hrun hw.1 hw.2.1⟩

/-- A key held while the pointer crosses goes up on the other machine only. -/
theorem held_across_stays_down : ∃ w, Run (step windows) Any (start windows numbered beside)
      (stroke Sharing.keyA ++ crosses ++ stroke keyAUp ++ forwards) w ∧
    w.Quiescent ∧ w.dropped = false ∧ ¬ Released (w.station false).desktop := by
  obtain ⟨w, hrun, hw⟩ := run_of_replay (step windows) Any (start windows numbered beside)
    (stroke Sharing.keyA ++ crosses ++ stroke keyAUp ++ forwards)
    (fun w => (decide w.Quiescent, w.dropped, (w.station false).desktop))
    (b := (true, false, [Sharing.keyA])) (by decide +kernel)
  simp only [Prod.mk.injEq, decide_eq_true_eq] at hw
  obtain ⟨hquiet, hdrop, hdesk⟩ := hw
  refine ⟨w, hrun, hquiet, hdrop, fun h => ?_⟩
  obtain ⟨f, hf, -⟩ := h [] Sharing.keyA [] (.key 65 30 false) (by rw [hdesk]; rfl) rfl
  cases hf

end Duo
end InputShare

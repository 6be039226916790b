import InputShare.Agent.Router
import InputShare.Lib.Runs

/-! Sharing at work: the capture hook on one side, the routing loop on the other, and the channel
that carries what the hook reports. The hook thread and the loop interleave freely; the hook
reports an event before it decides whether to swallow it, and the loop may have it by then. -/
namespace InputShare
open Runs

/-- A captured event, under the number the hook reported it with; `none` for any other event. -/
abbrev Captured := Sample (Option ℕ)

structure Sharing where
  router : Router (Option ℕ)
  /-- What the hook has reported and the loop has not taken in. -/
  channel : List Captured
  /-- The event the hook has reported and not yet swallowed or let through. -/
  deciding : Option Captured
  /-- What the hook has let through to the local desktop. -/
  passed : List Captured
  /-- The rest of the batch the loop is working through. -/
  batch : List InputEvent
  running : Bool
  /-- How many events the hook has reported. -/
  reported : ℕ
deriving DecidableEq

namespace Sharing

inductive Action where
  /-- The hook reports an event it has captured. -/
  | report (event : InputEvent)
  /-- The hook swallows what it has just reported, or lets it through. -/
  | decide (now : ℕ)
  /-- The hook sees something it does not report, such as the motion of the pointer. -/
  | glance (now : ℕ)
  /-- Motion read from the device itself. -/
  | rawInput (dx dy : Int)
  /-- Ctrl+Alt+F12. -/
  | escape
  /-- The loop takes in what is first in the channel. -/
  | take (env : Env)
  /-- A batch arrives from another machine. -/
  | batch (events : List InputEvent)
  /-- The loop handles the next event of the batch. -/
  | next (env : Env)
  | heartbeat (env : Env)
  | flush (env : Env) (announced : Option MachineId)
  /-- A stop request, or one of the channels is closed. -/
  | stop (env : Env)

def start (os : Os) (me : MachineId) (env : Env) : Sharing :=
  { router := .start os me env
    channel := []
    deciding := none
    passed := []
    batch := []
    running := true
    reported := 0 }

def setCapture (s : Sharing) (c : Capture) : Sharing :=
  { s with router := { s.router with capture := c } }

def emit (s : Sharing) (event : InputEvent) : Sharing :=
  { s with
    channel := s.channel ++ [⟨event, some s.reported⟩]
    reported := s.reported + 1 }

/-- The loop is waiting in its `select`. -/
def waiting (s : Sharing) : Bool := s.running && s.batch.isEmpty

def listening (s : Sharing) : Bool := s.running && s.deciding.isNone

theorem running_of_waiting {s : Sharing} (h : s.waiting = true) : s.running = true :=
  (Bool.and_eq_true_iff.mp h).1

def step (os : Os) (s : Sharing) : Action → Option Sharing
  | .report event =>
    if s.listening then
      some { s.emit event with deciding := some ⟨event, some s.reported⟩ }
    else none
  | .decide now =>
    match s.deciding with
    | none => none
    | some x =>
      let (c, swallow) := s.router.capture.suppressingNow os now
      let s := s.setCapture c
      some { s with
        deciding := none
        passed := if swallow then s.passed else s.passed ++ [x] }
  | .glance now =>
    if s.listening then some (s.setCapture (s.router.capture.suppressingNow os now).1) else none
  | .rawInput dx dy => if s.listening then some (s.emit (.mouseMove dx dy)) else none
  | .escape =>
    if s.listening then some (s.setCapture (s.router.capture.emergencyRelease os)) else none
  | .take env =>
    match s.channel with
    | [] => none
    | x :: rest =>
      if s.waiting then
        some { s with channel := rest, router := s.router.handle os env none x .local }
      else none
  | .batch events => if s.waiting then some { s with batch := events } else none
  | .next env =>
    match s.batch with
    | [] => none
    | e :: rest =>
      if s.running then
        some { s with batch := rest, router := s.router.handle os env none ⟨e, none⟩ .remote }
      else none
  | .heartbeat env =>
    if s.waiting then some { s with router := s.router.onHeartbeat os env none } else none
  | .flush env announced =>
    if s.waiting then some { s with router := s.router.onFlush os env announced } else none
  | .stop env =>
    if s.waiting then some { s with running := false, router := s.router.finish os env } else none

/-- Every step, with what it needs and what it leads to. -/
inductive Stepped (os : Os) (s : Sharing) : Action → Sharing → Prop where
  | report {event : InputEvent} (hl : s.listening = true) : Stepped os s (.report event)
      { s.emit event with deciding := some ⟨event, some s.reported⟩ }
  | swallow {now : ℕ} {x : Captured} (hd : s.deciding = some x)
      (hc : (s.router.capture.suppressingNow os now).2 = true) : Stepped os s (.decide now)
      { s.setCapture (s.router.capture.suppressingNow os now).1 with deciding := none }
  | pass {now : ℕ} {x : Captured} (hd : s.deciding = some x)
      (hc : (s.router.capture.suppressingNow os now).2 = false) : Stepped os s (.decide now)
      { s.setCapture (s.router.capture.suppressingNow os now).1 with
        deciding := none, passed := s.passed ++ [x] }
  | glance {now : ℕ} (hl : s.listening = true) : Stepped os s (.glance now)
      (s.setCapture (s.router.capture.suppressingNow os now).1)
  | rawInput {dx dy : Int} (hl : s.listening = true) :
      Stepped os s (.rawInput dx dy) (s.emit (.mouseMove dx dy))
  | escape (hl : s.listening = true) :
      Stepped os s .escape (s.setCapture (s.router.capture.emergencyRelease os))
  | take {env : Env} {x : Captured} {rest : List Captured} (hc : s.channel = x :: rest)
      (hw : s.running = true) : Stepped os s (.take env)
      { s with channel := rest, router := s.router.handle os env none x .local }
  | batch {events : List InputEvent} (hw : s.running = true) :
      Stepped os s (.batch events) { s with batch := events }
  | next {env : Env} {e : InputEvent} {rest : List InputEvent} (hb : s.batch = e :: rest)
      (hw : s.running = true) : Stepped os s (.next env)
      { s with batch := rest, router := s.router.handle os env none ⟨e, none⟩ .remote }
  | heartbeat {env : Env} (hw : s.running = true) :
      Stepped os s (.heartbeat env) { s with router := s.router.onHeartbeat os env none }
  | flush {env : Env} {announced : Option MachineId} (hw : s.running = true) :
      Stepped os s (.flush env announced) { s with router := s.router.onFlush os env announced }
  | stop {env : Env} : Stepped os s (.stop env)
      { s with running := false, router := s.router.finish os env }

theorem stepped {os : Os} {s t : Sharing} {a : Action} (hs : s.step os a = some t) :
    Stepped os s a t := by
  cases a with
  | decide now =>
    cases hd : s.deciding with
    | none => simp [step, hd] at hs
    | some x =>
      simp only [step, hd, Option.some.injEq] at hs
      subst hs
      cases hc : (s.router.capture.suppressingNow os now).2 with
      | false => exact .pass hd hc
      | true => exact .swallow hd hc
  | take env =>
    cases hc : s.channel with
    | nil => simp [step, hc] at hs
    | cons x rest =>
      simp only [step, hc, Option.ite_none_right_eq_some, Option.some.injEq] at hs
      obtain ⟨hw, rfl⟩ := hs
      exact .take hc (running_of_waiting hw)
  | next env =>
    cases hb : s.batch with
    | nil => simp [step, hb] at hs
    | cons e rest =>
      simp only [step, hb, Option.ite_none_right_eq_some, Option.some.injEq] at hs
      obtain ⟨hw, rfl⟩ := hs
      exact .next hb hw
  | report event =>
    simp only [step, Option.ite_none_right_eq_some, Option.some.injEq] at hs
    obtain ⟨hl, rfl⟩ := hs
    exact .report hl
  | glance now =>
    simp only [step, Option.ite_none_right_eq_some, Option.some.injEq] at hs
    obtain ⟨hl, rfl⟩ := hs
    exact .glance hl
  | rawInput dx dy =>
    simp only [step, Option.ite_none_right_eq_some, Option.some.injEq] at hs
    obtain ⟨hl, rfl⟩ := hs
    exact .rawInput hl
  | escape =>
    simp only [step, Option.ite_none_right_eq_some, Option.some.injEq] at hs
    obtain ⟨hl, rfl⟩ := hs
    exact .escape hl
  | batch events =>
    simp only [step, Option.ite_none_right_eq_some, Option.some.injEq] at hs
    obtain ⟨hw, rfl⟩ := hs
    exact .batch (running_of_waiting hw)
  | heartbeat env =>
    simp only [step, Option.ite_none_right_eq_some, Option.some.injEq] at hs
    obtain ⟨hw, rfl⟩ := hs
    exact .heartbeat (running_of_waiting hw)
  | flush env announced =>
    simp only [step, Option.ite_none_right_eq_some, Option.some.injEq] at hs
    obtain ⟨hw, rfl⟩ := hs
    exact .flush (running_of_waiting hw)
  | stop env =>
    simp only [step, Option.ite_none_right_eq_some, Option.some.injEq] at hs
    obtain ⟨-, rfl⟩ := hs
    exact .stop

end Sharing

/-! Fail open. -/

namespace Router
variable {τ : Type}

/-- Local input is only swallowed while another machine is named as the owner, and the pointer is
attached accordingly. -/
structure FailsOpen (os : Os) (r : Router τ) : Prop where
  away : r.capture.suppressing = true → r.owner ≠ r.me
  attached : r.capture.Attached os

section FailsOpen
variable {os : Os} {env : Env} {tag : τ} {r t : Router τ}

theorem FailsOpen.quiet (h : r.FailsOpen os) (q : r.Quiet t) : t.FailsOpen os :=
  ⟨by rw [q.capture, q.owner, q.me]; exact h.away, by rw [q.capture]; exact h.attached⟩

theorem Named.failsOpen {now : ℕ} {m : MachineId} {q : List (Sample τ)} {sent : List (Output τ)}
    (h : Named os now m q sent r t) : t.FailsOpen os := by
  refine ⟨fun hs => ?_, ?_⟩
  · rw [h.capture, Capture.setSuppressing_suppressing] at hs
    rw [h.owner, h.me]
    exact of_decide_eq_true hs
  · rw [h.capture]
    exact Capture.attached_setSuppression os _ _

theorem FailsOpen.released (c : Capture) (r : Router τ) :
    ({ r with capture := c.setSuppression os false } : Router τ).FailsOpen os :=
  ⟨by simp, Capture.attached_setSuppression os c false⟩

theorem failsOpen_start (me : MachineId) (env : Env) :
    (start os me env : Router τ).FailsOpen os :=
  ⟨by simp [start], Capture.attached_setSuppression os _ false⟩

theorem FailsOpen.handle (h : r.FailsOpen os) (s : Sample τ) (source : Source) :
    (r.handle os env tag s source).FailsOpen os := by
  cases handle_spec os env tag s source r with
  | quiet _ hq => exact h.quiet hq
  | queued hs ho hq =>
    rw [hq]
    exact ⟨h.away, h.attached⟩
  | entered x y hs he ho hn => exact hn.failsOpen
  | crossed doc m p ho hd hm hon he hn => exact hn.failsOpen

theorem FailsOpen.onHeartbeat (h : r.FailsOpen os) : (r.onHeartbeat os env tag).FailsOpen os := by
  obtain hq | ⟨-, -, hn⟩ := onHeartbeat_spec os env tag r
  · rw [hq]
    exact ⟨h.away, h.attached.heartbeat env.now⟩
  · exact hn.failsOpen

theorem FailsOpen.onFlush (h : r.FailsOpen os) (announced : Option MachineId) :
    (r.onFlush os env announced).FailsOpen os := by
  obtain ⟨-, hq⟩ | ⟨m, -, -, hn⟩ := onFlush_spec os env announced r
  · obtain ⟨hme, hown, -, hcap, -⟩ := r.flush_spec
    rw [hq]
    exact ⟨by rw [hcap, hown, hme]; exact h.away, by rw [hcap]; exact h.attached⟩
  · exact hn.failsOpen

theorem finish_suppressing (env : Env) (r : Router τ) :
    (r.finish os env).capture.suppressing = false := by
  simp [finish, Capture.drop]

theorem failsOpen_finish (env : Env) (r : Router τ) : (r.finish os env).FailsOpen os :=
  ⟨by simp [finish_suppressing], Capture.attached_setSuppression os _ false⟩

end FailsOpen
end Router

namespace Sharing

/-- What fails open at every point of a run. -/
structure FailsOpen (os : Os) (me : MachineId) (s : Sharing) : Prop where
  router : s.router.FailsOpen os
  running : s.router.capture.suppressing = true → s.running = true
  me : s.router.me = me

theorem failsOpen_start (os : Os) (me : MachineId) (env : Env) :
    (start os me env).FailsOpen os me :=
  ⟨Router.failsOpen_start me env, fun _ => rfl, rfl⟩

theorem FailsOpen.setCapture {os : Os} {me : MachineId} {s : Sharing} {c : Capture}
    (h : s.FailsOpen os me)
    (hc : c = s.router.capture ∨ c = s.router.capture.setSuppression os false) :
    (s.setCapture c).FailsOpen os me := by
  obtain rfl | rfl := hc
  · exact h
  · exact ⟨.released s.router.capture s.router,
      fun k => absurd k (by simp [Sharing.setCapture]), h.me⟩

theorem FailsOpen.suppressingNow {os : Os} {me : MachineId} {s : Sharing} (h : s.FailsOpen os me)
    (now : ℕ) : (s.setCapture (s.router.capture.suppressingNow os now).1).FailsOpen os me :=
  h.setCapture (s.router.capture.suppressingNow_cases os now)

theorem FailsOpen.step {os : Os} {me : MachineId} {s t : Sharing} {a : Action}
    (h : s.FailsOpen os me) (hs : s.step os a = some t) : t.FailsOpen os me := by
  cases stepped hs with
  | report | rawInput | batch => exact ⟨h.router, h.running, h.me⟩
  | swallow | pass => exact ⟨(h.suppressingNow _).router, (h.suppressingNow _).running, h.me⟩
  | glance => exact h.suppressingNow _
  | escape => exact h.setCapture (s.router.capture.emergencyRelease_cases os)
  | take hc hw => exact ⟨h.router.handle _ .local, fun _ => hw, by simp [h.me]⟩
  | next hb hw => exact ⟨h.router.handle _ .remote, fun _ => hw, by simp [h.me]⟩
  | heartbeat hw => exact ⟨h.router.onHeartbeat, fun _ => hw, by simp [h.me]⟩
  | flush hw => exact ⟨h.router.onFlush _, fun _ => hw, by simp [h.me]⟩
  | stop =>
    exact ⟨Router.failsOpen_finish _ s.router,
      fun k => absurd k (by simp [Router.finish_suppressing]), h.me⟩

/-- Local input is swallowed only while the loop runs and names another machine, and on macOS the
mouse is detached exactly then. -/
theorem fail_open {os : Os} {me : MachineId} {env : Env} {as : List Action} {s : Sharing}
    (h : Run (step os) Any (start os me env) as s) :
    (s.router.capture.suppressing = true → s.running = true ∧ s.router.owner ≠ me) ∧
      (os = .macOs → s.router.capture.detached = s.router.capture.suppressing) := by
  have hi := h.invariant (I := FailsOpen os me) (fun _ _ _ hi _ hs => hi.step hs)
    (failsOpen_start os me env)
  exact ⟨fun hs => ⟨hi.running hs, hi.me ▸ hi.router.away hs⟩, hi.router.attached⟩

/-- A moment in which another machine is online and nothing more is known. -/
def nearby (other : MachineId) (now : ℕ) : Env := ⟨none, {other}, none, now⟩

/-- A Mac that has handed the pointer over and swallows its own keyboard. -/
theorem fail_open_away : ∃ s, Run (step .macOs) Any (start .macOs 1 (nearby 2 0))
      [.flush (nearby 2 8) (some 2), .report (.key 65 30 true false), .decide 9] s ∧
    s.router.capture.suppressing = true ∧ s.running = true ∧ s.router.owner ≠ 1 ∧
      s.router.capture.detached = true := by
  obtain ⟨s, hr, hs⟩ := run_of_replay (step .macOs) Any (start .macOs 1 (nearby 2 0))
    [.flush (nearby 2 8) (some 2), .report (.key 65 30 true false), .decide 9]
    (fun s => s.router.capture.suppressing) (b := true) (by decide +kernel)
  obtain ⟨h, hd⟩ := fail_open hr
  exact ⟨s, hr, hs, (h hs).1, (h hs).2, (hd rfl).trans hs⟩

end Sharing
end InputShare

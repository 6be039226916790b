import InputShare.Input.Capture
import InputShare.Lib.Runs
import Mathlib.Algebra.Group.Nat.Defs
import Mathlib.Data.Int.Notation

/-! The watchdog of the capture hooks against real time. What the owner's calls and the hooks read
is the system clock, which may be set forwards and backwards at any moment. -/
namespace InputShare.Watchdog
open Runs Capture

def nanosPerMs : ℕ := 1000000

/-- The milliseconds of a system clock that stands so many nanoseconds behind the epoch. -/
def nowMs (clock : ℤ) : ℕ := if clock < 0 then 0 else clock.toNat / nanosPerMs % 2 ^ 64

/-- The calls of the owner, an input event that reaches a hook, and the key that releases all. -/
inductive Act where
  | start
  | setSuppressing (suppress : Bool)
  | heartbeat
  | input
  | emergency
  | drop
deriving DecidableEq, Repr

/-- What happens, so many nanoseconds after what happened last, and the system clock by then. -/
structure Action where
  elapsed : ℕ
  clock : ℤ
  act : Act
deriving DecidableEq, Repr

/-- An input event: the real time since the owner last set suppression or sent a heartbeat. -/
structure Arrival where
  silence : ℕ
  swallowed : Bool
deriving DecidableEq, Repr

structure World where
  capture : Capture
  silence : ℕ
  /-- The system clock at the owner's last call. -/
  heard : ℤ
  arrivals : List Arrival

def step (os : Os) (w : World) (a : Action) : Option World :=
  let now := nowMs a.clock
  let silence := w.silence + a.elapsed
  match a.act with
  | .start => some { w with capture := .start now, silence }
  | .setSuppressing suppress =>
    some { w with
      capture := w.capture.setSuppressing os now suppress
      silence := 0, heard := a.clock }
  | .heartbeat => some { w with capture := w.capture.heartbeat now, silence := 0, heard := a.clock }
  | .input =>
    some { w with
      capture := (w.capture.suppressingNow os now).1, silence
      arrivals := w.arrivals ++ [⟨silence, (w.capture.suppressingNow os now).2⟩] }
  | .emergency =>
    some { w with
      capture := w.capture.emergencyRelease os, silence
      arrivals := w.arrivals ++ [⟨silence, false⟩] }
  | .drop => some { w with capture := w.capture.drop os, silence }

/-- The hooks were installed when the system clock stood there. -/
def started (clock : ℤ) : World := ⟨.start (nowMs clock), 0, clock, []⟩

/-- Nothing that arrives after so long a silence is swallowed. -/
def FailsOpenAfter (nanos : ℕ) (w : World) : Prop :=
  ∀ e ∈ w.arrivals, nanos < e.silence → e.swallowed = false

/-- Whenever an event finds the input suppressed after so long a silence, the system clock reads
more than the limit past what it read at the owner's last call. -/
def MovedOn (nanos : ℕ) (w : World) (a : Action) : Prop :=
  a.act = .input → w.capture.suppressing → nanos < w.silence + a.elapsed →
    nowMs w.heard + watchdogLimitMs < nowMs a.clock

instance (nanos : ℕ) (w : World) (a : Action) : Decidable (MovedOn nanos w a) :=
  inferInstanceAs (Decidable (_ → _))

/-- While input is suppressed, the watchdog holds what the clock read at the owner's last call. -/
def Inv (w : World) : Prop := w.capture.suppressing → w.capture.watchdog = nowMs w.heard

theorem suppressingNow_snd (os : Os) (c : Capture) (now : ℕ) :
    (c.suppressingNow os now).2 = false ↔ (c.suppressing → c.watchdog + watchdogLimitMs < now) := by
  unfold suppressingNow
  cases hs : c.suppressing with
  | false => simp
  | true =>
    by_cases hlate : now - c.watchdog > watchdogLimitMs
    · simp only [hlate, Bool.not_true, Bool.false_eq_true, if_true, if_false, true_iff]
      intro _
      omega
    · simp only [hlate, Bool.not_true, Bool.false_eq_true, if_false, Bool.true_eq_false, false_iff,
        forall_const]
      unfold watchdogLimitMs at hlate ⊢
      omega

theorem failsOpenAfter_append {nanos : ℕ} {w v : World} {e : Arrival}
    (h : v.arrivals = w.arrivals ++ [e]) :
    FailsOpenAfter nanos v ↔
      FailsOpenAfter nanos w ∧ (nanos < e.silence → e.swallowed = false) := by
  simp only [FailsOpenAfter, h, List.mem_append, List.mem_singleton]
  constructor
  · intro hv
    exact ⟨fun x hx => hv x (.inl hx), hv e (.inr rfl)⟩
  · rintro ⟨hw, he⟩ x (hx | rfl)
    · exact hw x hx
    · exact he

theorem Inv.of_released {os : Os} {w v : World} (h : Inv w) (hheard : v.heard = w.heard)
    (hc : v.capture = w.capture ∨ v.capture = w.capture.setSuppression os false) : Inv v := by
  intro hsup
  obtain hc | hc := hc
  · rw [hc] at hsup ⊢
    rw [hheard]
    exact h hsup
  · rw [hc, setSuppression_suppressing] at hsup
    cases hsup

theorem step_inv {os : Os} {w v : World} {a : Action} (h : Inv w) (hs : step os w a = some v) :
    Inv v := by
  obtain ⟨elapsed, clock, act⟩ := a
  cases act with
  | start =>
    obtain rfl := Option.some.inj hs
    intro hsup
    cases hsup
  | setSuppressing suppress =>
    obtain rfl := Option.some.inj hs
    intro _
    cases os <;> rfl
  | heartbeat =>
    obtain rfl := Option.some.inj hs
    intro _
    rfl
  | input =>
    obtain rfl := Option.some.inj hs
    exact h.of_released rfl (suppressingNow_cases os _ _)
  | emergency =>
    obtain rfl := Option.some.inj hs
    exact h.of_released rfl (emergencyRelease_cases os _)
  | drop =>
    obtain rfl := Option.some.inj hs
    exact h.of_released rfl (.inr rfl)

/-- A step keeps the hooks failing open exactly if it finds the clock moved on. -/
theorem step_failsOpenAfter {os : Os} {w v : World} {a : Action} (nanos : ℕ) (h : Inv w)
    (hs : step os w a = some v) :
    FailsOpenAfter nanos v ↔ FailsOpenAfter nanos w ∧ MovedOn nanos w a := by
  obtain ⟨elapsed, clock, act⟩ := a
  cases act with
  | start | setSuppressing suppress | heartbeat | drop =>
    obtain rfl := Option.some.inj hs
    simp [FailsOpenAfter, MovedOn]
  | input =>
    obtain rfl := Option.some.inj hs
    rw [failsOpenAfter_append rfl, suppressingNow_snd]
    refine and_congr_right fun _ => ⟨fun hopen _ hsup hlate => ?_, fun hmoved hlate hsup => ?_⟩
    · rw [← h hsup]
      exact hopen hlate hsup
    · rw [h hsup]
      exact hmoved rfl hsup hlate
  | emergency =>
    obtain rfl := Option.some.inj hs
    rw [failsOpenAfter_append rfl]
    simp [MovedOn]

/-- In a run the hooks fail open exactly if every such event finds the clock moved on. -/
theorem failsOpenAfter_iff {os : Os} {clock : ℤ} {as : List Action} {w : World} (nanos : ℕ)
    (h : Run (step os) Any (started clock) as w) :
    FailsOpenAfter nanos w ↔ Run (step os) (MovedOn nanos) (started clock) as w := by
  rw [h.keeps_iff (I := Inv) (P := FailsOpenAfter nanos)
    (fun _ _ _ hi hs => step_inv hi hs) (fun _ _ _ hi hs => step_failsOpenAfter nanos hi hs)
    (fun hsup => by cases hsup)]
  exact and_iff_right fun e he => by cases he

def limitNanos : ℕ := watchdogLimitMs * nanosPerMs

/-- No event that arrives past the limit of real time is swallowed, exactly if each that finds the
input suppressed finds the system clock moved on past the limit as well. -/
theorem lockout_bounded_iff {os : Os} {clock : ℤ} {as : List Action} {w : World}
    (h : Run (step os) Any (started clock) as w) :
    FailsOpenAfter limitNanos w ↔ Run (step os) (MovedOn limitNanos) (started clock) as w :=
  failsOpenAfter_iff limitNanos h

def epoch : ℤ := 1700000000000000000
def second : ℕ := 1000000000

/-- The clock runs true: an event within the limit is swallowed, one past it is not. -/
theorem lockout_bounded_three_seconds : ∃ w,
    Run (step .windows) Any (started epoch)
      [⟨second, epoch + second, .setSuppressing true⟩, ⟨second, epoch + 2 * second, .input⟩,
        ⟨2 * second, epoch + 4 * second, .input⟩] w ∧
    w.arrivals = [⟨second, true⟩, ⟨3 * second, false⟩] ∧ FailsOpenAfter limitNanos w := by
  obtain ⟨w, hrun, hw⟩ := run_of_replay (step .windows) (MovedOn limitNanos) (started epoch)
    [⟨second, epoch + second, .setSuppressing true⟩, ⟨second, epoch + 2 * second, .input⟩,
      ⟨2 * second, epoch + 4 * second, .input⟩] World.arrivals
    (b := [⟨second, true⟩, ⟨3 * second, false⟩]) (by decide +kernel)
  have hany : Run (step .windows) Any _ _ w := hrun.mono fun _ _ _ => trivial
  exact ⟨w, hany, hw, (lockout_bounded_iff hany).mpr hrun⟩

/-- The clock is set back by an hour after the owner's last call. -/
theorem locked_out_by_clock : ∃ w,
    Run (step .windows) Any (started epoch)
      [⟨second, epoch + second, .setSuppressing true⟩,
        ⟨3 * second, epoch + 4 * second - 3600 * second, .input⟩] w ∧
    w.arrivals = [⟨3 * second, true⟩] ∧ ¬ FailsOpenAfter limitNanos w := by
  obtain ⟨w, hrun, hw⟩ := run_of_replay (step .windows) Any (started epoch)
    [⟨second, epoch + second, .setSuppressing true⟩,
      ⟨3 * second, epoch + 4 * second - 3600 * second, .input⟩] World.arrivals
    (b := [⟨3 * second, true⟩]) (by decide +kernel)
  refine ⟨w, hrun, hw, fun h => ?_⟩
  exact absurd (h ⟨3 * second, true⟩ (by rw [hw]; exact List.mem_singleton_self _) (by decide))
    (by decide)

/-! What the watchdog is worth as long as nobody sets the clock. -/

/-- The clock has run at least as far as real time since the owner's last call, and it is in the
range of its type. -/
def RunsTrue (w : World) (a : Action) : Prop :=
  0 ≤ w.heard ∧ w.heard + (w.silence + a.elapsed : ℕ) ≤ a.clock ∧
    a.clock.toNat < 2 ^ 64 * nanosPerMs

theorem movedOn_of_runsTrue {w : World} {a : Action} (h : RunsTrue w a) :
    MovedOn (limitNanos + nanosPerMs) w a := by
  intro _ _ hlate
  obtain ⟨hheard, hclock, hrange⟩ := h
  unfold nowMs limitNanos watchdogLimitMs nanosPerMs at *
  rw [if_neg (by omega), if_neg (by omega), Nat.mod_eq_of_lt (by omega),
    Nat.mod_eq_of_lt (by omega)]
  omega

/-- As long as the clock runs true, no lockout outlasts the limit by more than the millisecond
that rounding takes. -/
theorem lockout_bounded_of_runsTrue {os : Os} {clock : ℤ} {as : List Action} {w : World}
    (h : Run (step os) RunsTrue (started clock) as w) :
    FailsOpenAfter (limitNanos + nanosPerMs) w :=
  (failsOpenAfter_iff _ (h.mono fun _ _ _ => trivial)).mpr
    (h.mono fun _ _ => movedOn_of_runsTrue)

end InputShare.Watchdog

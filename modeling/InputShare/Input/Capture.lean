import Mathlib.Tactic.SplitIfs

/-! The capture hooks: the flag that makes them swallow local input, the watchdog that clears it,
and the two calls a hook callback makes. Times are milliseconds of the system clock. -/
namespace InputShare

inductive Os where
  | windows | macOs
deriving DecidableEq, Repr

structure Capture where
  suppressing : Bool
  /-- The physical mouse has been unhooked from the cursor (macOS only). -/
  detached : Bool
  watchdog : Nat
deriving DecidableEq, Repr

namespace Capture

def watchdogLimitMs : Nat := 2000

def start (now : Nat) : Capture := ⟨false, false, now⟩

/-- Sets suppression and, where there is one, the pointer attachment together. -/
def setSuppression (os : Os) (c : Capture) (suppress : Bool) : Capture :=
  match os with
  | .windows => { c with suppressing := suppress }
  | .macOs => { c with suppressing := suppress, detached := suppress }

def setSuppressing (os : Os) (c : Capture) (now : Nat) (suppress : Bool) : Capture :=
  { c with watchdog := now }.setSuppression os suppress

def heartbeat (c : Capture) (now : Nat) : Capture := { c with watchdog := now }

/-- Whether the hook swallows what it has just reported; it releases when the owner went quiet. -/
def suppressingNow (os : Os) (c : Capture) (now : Nat) : Capture × Bool :=
  if !c.suppressing then (c, false)
  else if now - c.watchdog > watchdogLimitMs then (c.setSuppression os false, false)
  else (c, true)

def emergencyRelease (os : Os) (c : Capture) : Capture :=
  if c.suppressing then c.setSuppression os false else c

def drop (os : Os) (c : Capture) : Capture := c.setSuppression os false

/-- On macOS the mouse is detached from the cursor exactly while input is suppressed. -/
def Attached (os : Os) (c : Capture) : Prop := os = .macOs → c.detached = c.suppressing

@[simp] theorem setSuppression_suppressing (os : Os) (c : Capture) (s : Bool) :
    (c.setSuppression os s).suppressing = s := by cases os <;> rfl
@[simp] theorem setSuppressing_suppressing (os : Os) (c : Capture) (now : Nat) (s : Bool) :
    (c.setSuppressing os now s).suppressing = s := by simp [setSuppressing]
@[simp] theorem heartbeat_suppressing (c : Capture) (now : Nat) :
    (c.heartbeat now).suppressing = c.suppressing := rfl

theorem heartbeat_setSuppressing (os : Os) (c : Capture) (now later : Nat) (s : Bool) :
    (c.heartbeat now).setSuppressing os later s = c.setSuppressing os later s := by
  cases os <;> rfl

theorem attached_setSuppression (os : Os) (c : Capture) (s : Bool) :
    (c.setSuppression os s).Attached os := by
  rintro rfl
  rfl

theorem Attached.heartbeat {os : Os} {c : Capture} (h : c.Attached os) (now : Nat) :
    (c.heartbeat now).Attached os := h

theorem suppressingNow_cases (os : Os) (c : Capture) (now : Nat) :
    (c.suppressingNow os now).1 = c ∨ (c.suppressingNow os now).1 = c.setSuppression os false := by
  unfold suppressingNow
  split_ifs <;> simp

theorem emergencyRelease_cases (os : Os) (c : Capture) :
    c.emergencyRelease os = c ∨ c.emergencyRelease os = c.setSuppression os false := by
  unfold emergencyRelease
  split_ifs <;> simp

end Capture
end InputShare

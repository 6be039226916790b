import InputShare.Core.Stamp
import InputShare.Lib.Runs
import Mathlib.Logic.Function.Basic

/-! The sharing switch. Calls that turn it on and off run side by side, each taking its steps
between those of the others and those of the routing loops; the hooks are one to a process. -/
namespace InputShare.Toggle
open Runs

/-- How far an attempt to share has come: from the claim of the hooks to the end of its loop. -/
inductive Stage where
  | unborn
  /-- `RUNNING` is set. -/
  | claimed
  /-- Captured input goes to this attempt. -/
  | fed
  | hooked
  /-- So does the input of other machines. -/
  | connected
  | working
  /-- The loop has left its `select`. -/
  | breaking
  | released
  | unhooked
  | unfed
  /-- `RUNNING` is cleared. -/
  | dropped
  | disconnected
  | finished
  | refused
deriving DecidableEq, Repr

/-- Where a call of `set_sharing` is. -/
inductive Call where
  | idle
  | asked (enabled : Bool)
  | turningOn
  | starting (k : ℕ)
  /-- The loop runs and its handle is not stored. -/
  | storing (k : ℕ)
  | flagging
  | turningOff
  | releasing
  /-- The handle is out of its slot and the loop has not been told. -/
  | taken (k : ℕ)
  | waiting (k : ℕ)
  | clearing
deriving DecidableEq, Repr

structure World where
  /-- What the switch shows. -/
  sharing : Bool
  slot : Option ℕ
  /-- `RUNNING`, which admits one capture at a time. -/
  running : Bool
  /-- Who is fed what the hooks report. -/
  sink : Option ℕ
  suppressing : Bool
  remoteInput : Option ℕ
  cursorOwner : Option MachineId
  stage : ℕ → Stage
  /-- A stop that the loop has not taken in. -/
  notified : ℕ → Bool
  next : ℕ
  calls : ℕ → Call

def start : World :=
  { sharing := false
    slot := none
    running := false
    sink := none
    suppressing := false
    remoteInput := none
    cursorOwner := none
    stage := fun _ => .unborn
    notified := fun _ => false
    next := 0
    calls := fun _ => .idle }

def World.setStage (w : World) (k : ℕ) (s : Stage) : World :=
  { w with stage := Function.update w.stage k s }

def World.setCall (w : World) (c : ℕ) (x : Call) : World :=
  { w with calls := Function.update w.calls c x }

/-- `notify_one` of the stop of a handle, be it there. -/
def World.notify (w : World) : Option ℕ → World
  | none => w
  | some k => { w with notified := Function.update w.notified k true }

@[simp] theorem notify_stage (w : World) (o : Option ℕ) : (w.notify o).stage = w.stage := by
  cases o <;> rfl
@[simp] theorem notify_next (w : World) (o : Option ℕ) : (w.notify o).next = w.next := by
  cases o <;> rfl
@[simp] theorem notify_running (w : World) (o : Option ℕ) : (w.notify o).running = w.running := by
  cases o <;> rfl
@[simp] theorem notify_suppressing (w : World) (o : Option ℕ) :
    (w.notify o).suppressing = w.suppressing := by cases o <;> rfl
@[simp] theorem notify_calls (w : World) (o : Option ℕ) : (w.notify o).calls = w.calls := by
  cases o <;> rfl
@[simp] theorem notify_sharing (w : World) (o : Option ℕ) : (w.notify o).sharing = w.sharing := by
  cases o <;> rfl

def World.dropCapture (w : World) : World :=
  { w with suppressing := false, sink := none, running := false }

inductive Action where
  | call (c : ℕ) (enabled : Bool)
  /-- The next step of a call. -/
  | advance (c : ℕ)
  /-- The hooks are refused, or there is no thread for what is behind them. -/
  | refuse (c : ℕ)
  /-- There is no thread for the hooks. -/
  | exhaust (c : ℕ)
  /-- Three seconds are over. -/
  | giveUp (c : ℕ)
  /-- The next step of a loop. -/
  | loop (k : ℕ)
  /-- A loop at work moves the pointer to a machine. -/
  | route (k : ℕ) (owner : MachineId) (suppress : Bool)
  /-- The hooks release by themselves. -/
  | release
deriving DecidableEq, Repr

/-- `sharing::start`, one step after the other. -/
def startStep (w : World) (c k : ℕ) : Option World :=
  match w.stage k with
  | .claimed => some ({ w with sink := some k, suppressing := false }.setStage k .fed)
  | .fed => some (w.setStage k .hooked)
  | .hooked => some ({ w with remoteInput := some k }.setStage k .connected)
  | .connected => some ((w.setStage k .working).setCall c (.storing k))
  | _ => none

def callStep (w : World) (c : ℕ) : Option World :=
  match w.calls c with
  | .idle => none
  | .asked enabled =>
    some (w.setCall c (if enabled = w.sharing then .idle
      else if enabled then .turningOn else .turningOff))
  | .turningOn =>
    if w.running then some (w.setCall c .idle)
    else some (({ w with running := true, next := w.next + 1 }.setStage w.next .claimed).setCall c
      (.starting w.next))
  | .starting k => startStep w c k
  -- a handle that is still there is dropped, which stops its loop
  | .storing k => some ({ w.notify w.slot with slot := some k }.setCall c .flagging)
  | .flagging => some ({ w with sharing := true }.setCall c .idle)
  | .turningOff => some ({ w with sharing := false }.setCall c .releasing)
  | .releasing =>
    some ({ w with slot := none }.setCall c
      (match w.slot with
        | some k => .taken k
        | none => .clearing))
  | .taken k => some ((w.notify (some k)).setCall c (.waiting k))
  | .waiting k =>
    if w.stage k = .finished then some ((w.notify (some k)).setCall c .clearing) else none
  | .clearing => some ({ w with cursorOwner := none }.setCall c .idle)

def World.ends (w : World) (k : ℕ) : Bool :=
  w.notified k || w.sink ≠ some k || w.remoteInput ≠ some k

/-- The end of `run`. -/
def loopStep (w : World) (k : ℕ) : Option World :=
  match w.stage k with
  | .working => if w.ends k then some (w.setStage k .breaking) else none
  | .breaking => some ({ w with suppressing := false }.setStage k .released)
  -- the drop of the capture
  | .released => some ({ w with suppressing := false }.setStage k .unhooked)
  | .unhooked => some ({ w with sink := none }.setStage k .unfed)
  | .unfed => some ({ w with running := false }.setStage k .dropped)
  | .dropped => some ({ w with remoteInput := none }.setStage k .disconnected)
  | .disconnected => some ({ w with cursorOwner := none }.setStage k .finished)
  | _ => none

def step (w : World) : Action → Option World
  | .call c enabled => if w.calls c = .idle then some (w.setCall c (.asked enabled)) else none
  | .advance c => callStep w c
  | .refuse c =>
    match w.calls c with
    | .starting k =>
      match w.stage k with
      | .fed => some (({ w with running := false }.setStage k .refused).setCall c .idle)
      -- the capture that is there already is dropped
      | .hooked => some ((w.dropCapture.setStage k .refused).setCall c .idle)
      | _ => none
    | _ => none
  -- `RUNNING` stays set
  | .exhaust c =>
    match w.calls c with
    | .starting k =>
      if w.stage k = .fed then some ((w.setStage k .refused).setCall c .idle) else none
    | _ => none
  | .giveUp c =>
    match w.calls c with
    | .waiting k => some ((w.notify (some k)).setCall c .clearing)
    | _ => none
  | .loop k => loopStep w k
  | .route k owner suppress =>
    if w.stage k = .working then
      some { w with cursorOwner := some owner, suppressing := suppress }
    else none
  | .release => some { w with suppressing := false }

/-- Every step, with what it needs and what it leads to. -/
inductive Stepped (w : World) : Action → World → Prop where
  | call {c : ℕ} {enabled : Bool} (hc : w.calls c = .idle) :
      Stepped w (.call c enabled) (w.setCall c (.asked enabled))
  | settled {c : ℕ} (hc : w.calls c = .asked w.sharing) : Stepped w (.advance c) (w.setCall c .idle)
  | turnOn {c : ℕ} (hc : w.calls c = .asked true) (hoff : w.sharing = false) :
      Stepped w (.advance c) (w.setCall c .turningOn)
  | turnOff {c : ℕ} (hc : w.calls c = .asked false) (hon : w.sharing = true) :
      Stepped w (.advance c) (w.setCall c .turningOff)
  | busy {c : ℕ} (hc : w.calls c = .turningOn) (hr : w.running = true) :
      Stepped w (.advance c) (w.setCall c .idle)
  | claim {c : ℕ} (hc : w.calls c = .turningOn) (hr : w.running = false) :
      Stepped w (.advance c) (({ w with running := true, next := w.next + 1 }.setStage
        w.next .claimed).setCall c (.starting w.next))
  | feed {c k : ℕ} (hc : w.calls c = .starting k) (hk : w.stage k = .claimed) :
      Stepped w (.advance c) ({ w with sink := some k, suppressing := false }.setStage k .fed)
  | hook {c k : ℕ} (hc : w.calls c = .starting k) (hk : w.stage k = .fed) :
      Stepped w (.advance c) (w.setStage k .hooked)
  | connect {c k : ℕ} (hc : w.calls c = .starting k) (hk : w.stage k = .hooked) :
      Stepped w (.advance c) ({ w with remoteInput := some k }.setStage k .connected)
  | spawn {c k : ℕ} (hc : w.calls c = .starting k) (hk : w.stage k = .connected) :
      Stepped w (.advance c) ((w.setStage k .working).setCall c (.storing k))
  | store {c k : ℕ} (hc : w.calls c = .storing k) :
      Stepped w (.advance c) ({ w.notify w.slot with slot := some k }.setCall c .flagging)
  | flag {c : ℕ} (hc : w.calls c = .flagging) :
      Stepped w (.advance c) ({ w with sharing := true }.setCall c .idle)
  | unflag {c : ℕ} (hc : w.calls c = .turningOff) :
      Stepped w (.advance c) ({ w with sharing := false }.setCall c .releasing)
  | take {c k : ℕ} (hc : w.calls c = .releasing) (hslot : w.slot = some k) :
      Stepped w (.advance c) ({ w with slot := none }.setCall c (.taken k))
  | takeNone {c : ℕ} (hc : w.calls c = .releasing) (hslot : w.slot = none) :
      Stepped w (.advance c) (w.setCall c .clearing)
  | tell {c k : ℕ} (hc : w.calls c = .taken k) :
      Stepped w (.advance c) ((w.notify (some k)).setCall c (.waiting k))
  | stopped {c k : ℕ} (hc : w.calls c = .waiting k) (hk : w.stage k = .finished) :
      Stepped w (.advance c) ((w.notify (some k)).setCall c .clearing)
  | giveUp {c k : ℕ} (hc : w.calls c = .waiting k) :
      Stepped w (.giveUp c) ((w.notify (some k)).setCall c .clearing)
  | clear {c : ℕ} (hc : w.calls c = .clearing) :
      Stepped w (.advance c) ({ w with cursorOwner := none }.setCall c .idle)
  | refuse {c k : ℕ} (hc : w.calls c = .starting k) (hk : w.stage k = .fed) :
      Stepped w (.refuse c) (({ w with running := false }.setStage k .refused).setCall c .idle)
  | discard {c k : ℕ} (hc : w.calls c = .starting k) (hk : w.stage k = .hooked) :
      Stepped w (.refuse c) ((w.dropCapture.setStage k .refused).setCall c .idle)
  | exhaust {c k : ℕ} (hc : w.calls c = .starting k) (hk : w.stage k = .fed) :
      Stepped w (.exhaust c) ((w.setStage k .refused).setCall c .idle)
  | leave {k : ℕ} (hk : w.stage k = .working) (he : w.ends k = true) :
      Stepped w (.loop k) (w.setStage k .breaking)
  | quieten {k : ℕ} (hk : w.stage k = .breaking) :
      Stepped w (.loop k) ({ w with suppressing := false }.setStage k .released)
  | unhook {k : ℕ} (hk : w.stage k = .released) :
      Stepped w (.loop k) ({ w with suppressing := false }.setStage k .unhooked)
  | unfeed {k : ℕ} (hk : w.stage k = .unhooked) :
      Stepped w (.loop k) ({ w with sink := none }.setStage k .unfed)
  | drop {k : ℕ} (hk : w.stage k = .unfed) :
      Stepped w (.loop k) ({ w with running := false }.setStage k .dropped)
  | disconnect {k : ℕ} (hk : w.stage k = .dropped) :
      Stepped w (.loop k) ({ w with remoteInput := none }.setStage k .disconnected)
  | finish {k : ℕ} (hk : w.stage k = .disconnected) :
      Stepped w (.loop k) ({ w with cursorOwner := none }.setStage k .finished)
  | route {k : ℕ} {owner : MachineId} {suppress : Bool} (hk : w.stage k = .working) :
      Stepped w (.route k owner suppress)
        { w with cursorOwner := some owner, suppressing := suppress }
  | release : Stepped w .release { w with suppressing := false }

theorem stepped_of_start {w t : World} {c k : ℕ} (hc : w.calls c = .starting k)
    (h : startStep w c k = some t) : Stepped w (.advance c) t := by
  unfold startStep at h
  split at h
  · obtain rfl := Option.some.inj h
    exact .feed hc ‹_›
  · obtain rfl := Option.some.inj h
    exact .hook hc ‹_›
  · obtain rfl := Option.some.inj h
    exact .connect hc ‹_›
  · obtain rfl := Option.some.inj h
    exact .spawn hc ‹_›
  · cases h

theorem stepped_of_call {w t : World} {c : ℕ} (h : callStep w c = some t) :
    Stepped w (.advance c) t := by
  unfold callStep at h
  split at h
  · cases h
  · rename_i enabled hc
    obtain rfl := Option.some.inj h
    by_cases hsame : enabled = w.sharing
    · simp only [hsame, if_true]
      exact .settled (hsame ▸ hc)
    · cases enabled with
      | true =>
        simp only [hsame, if_false, if_true]
        exact .turnOn hc (by simpa using Ne.symm hsame)
      | false =>
        simp only [hsame, if_false, Bool.false_eq_true]
        exact .turnOff hc (by simpa using Ne.symm hsame)
  · rename_i hc
    split at h
    · obtain rfl := Option.some.inj h
      exact .busy hc ‹_›
    · obtain rfl := Option.some.inj h
      exact .claim hc (Bool.eq_false_iff.mpr ‹_›)
  · exact stepped_of_start ‹_› h
  · obtain rfl := Option.some.inj h
    exact .store ‹_›
  · obtain rfl := Option.some.inj h
    exact .flag ‹_›
  · obtain rfl := Option.some.inj h
    exact .unflag ‹_›
  · rename_i hc
    obtain rfl := Option.some.inj h
    cases hslot : w.slot with
    | some k => exact .take hc hslot
    | none =>
      have hsame : { w with slot := none } = w := by rw [← hslot]
      rw [hsame]
      exact .takeNone hc hslot
  · obtain rfl := Option.some.inj h
    exact .tell ‹_›
  · rename_i k hc
    split at h
    · obtain rfl := Option.some.inj h
      exact .stopped hc ‹_›
    · cases h
  · obtain rfl := Option.some.inj h
    exact .clear ‹_›

theorem stepped_of_loop {w t : World} {k : ℕ} (h : loopStep w k = some t) :
    Stepped w (.loop k) t := by
  unfold loopStep at h
  split at h
  · rename_i hk
    split at h
    · obtain rfl := Option.some.inj h
      exact .leave hk ‹_›
    · cases h
  · obtain rfl := Option.some.inj h
    exact .quieten ‹_›
  · obtain rfl := Option.some.inj h
    exact .unhook ‹_›
  · obtain rfl := Option.some.inj h
    exact .unfeed ‹_›
  · obtain rfl := Option.some.inj h
    exact .drop ‹_›
  · obtain rfl := Option.some.inj h
    exact .disconnect ‹_›
  · obtain rfl := Option.some.inj h
    exact .finish ‹_›
  · cases h

theorem stepped_of_step {w t : World} {a : Action} (h : step w a = some t) : Stepped w a t := by
  cases a with
  | call c enabled =>
    simp only [step] at h
    split at h
    · obtain rfl := Option.some.inj h
      exact .call ‹_›
    · cases h
  | advance c => exact stepped_of_call h
  | refuse c =>
    simp only [step] at h
    split at h
    · split at h
      · obtain rfl := Option.some.inj h
        exact .refuse ‹_› ‹_›
      · obtain rfl := Option.some.inj h
        exact .discard ‹_› ‹_›
      · cases h
    · cases h
  | exhaust c =>
    simp only [step] at h
    split at h
    · split at h
      · obtain rfl := Option.some.inj h
        exact .exhaust ‹_› ‹_›
      · cases h
    · cases h
  | giveUp c =>
    simp only [step] at h
    split at h
    · obtain rfl := Option.some.inj h
      exact .giveUp ‹_›
    · cases h
  | loop k => exact stepped_of_loop h
  | route k owner suppress =>
    simp only [step] at h
    split at h
    · obtain rfl := Option.some.inj h
      exact .route ‹_›
    · cases h
  | release =>
    obtain rfl := Option.some.inj h
    exact .release

/-! In every interleaving. -/

def Stage.Holds : Stage → Prop
  | .claimed | .fed | .hooked | .connected | .working | .breaking | .released | .unhooked
  | .unfed => True
  | _ => False

/-- `sharing::start` is on its way. -/
def Stage.Starts : Stage → Prop
  | .claimed | .fed | .hooked | .connected => True
  | _ => False

def Stage.Routes (s : Stage) : Prop := s = .working ∨ s = .breaking

/-- One attempt at a time has the hooks, and input is swallowed for it alone. -/
structure Hooks (w : World) : Prop where
  unborn : ∀ k, w.next ≤ k → w.stage k = .unborn
  running : ∀ k, (w.stage k).Holds → w.running = true
  single : ∀ k j, (w.stage k).Holds → (w.stage j).Holds → k = j
  suppressing : w.suppressing = true → ∃ k, (w.stage k).Routes

/-- What is not stopped can be stopped: somebody has its handle. -/
structure Handles (w : World) : Prop where
  starting : ∀ k, (w.stage k).Starts → ∃ c, w.calls c = .starting k
  working : ∀ k, w.stage k = .working → w.notified k = true ∨ w.slot = some k ∨
    ∃ c, w.calls c = .storing k ∨ w.calls c = .taken k
  slot : w.slot ≠ none → w.sharing = false → ∃ c, w.calls c = .flagging ∨ w.calls c = .releasing

variable {w t : World} {a : Action} {c k : ℕ} {s : Stage} {x : Call}

theorem hooks_start : Hooks start where
  unborn _ _ := rfl
  running _ h := h.elim
  single _ _ h := h.elim
  suppressing h := by cases h

theorem Hooks.move (h : Hooks w) (hk : w.stage k ≠ .unborn)
    (hstage : t.stage = Function.update w.stage k s) (hnext : t.next = w.next)
    (hholds : s.Holds → (w.stage k).Holds)
    (hrun : t.running = w.running ∨ (w.stage k).Holds ∧ ¬ s.Holds)
    (hsup : t.suppressing = true → w.suppressing = true ∧ ((w.stage k).Routes → s.Routes)) :
    Hooks t := by
  have hback : ∀ j, (t.stage j).Holds → (w.stage j).Holds := by
    intro j hj
    rw [hstage, Function.update_apply] at hj
    split at hj
    · rename_i heq
      exact heq ▸ hholds hj
    · exact hj
  refine ⟨fun j hj => ?_, fun j hj => ?_, fun i j hi hj => h.single i j (hback i hi) (hback j hj),
    fun ht => ?_⟩
  · have hne : j ≠ k := by
      rintro rfl
      exact hk (h.unborn j (hnext ▸ hj))
    rw [hstage, Function.update_of_ne hne]
    exact h.unborn j (hnext ▸ hj)
  · obtain hsame | ⟨hkh, hgone⟩ := hrun
    · exact hsame ▸ h.running j (hback j hj)
    · -- the one that had the hooks has given them back
      have hjk : j = k := h.single j k (hback j hj) hkh
      rw [hstage, hjk, Function.update_self] at hj
      exact absurd hj hgone
  · obtain ⟨hw, hroutes⟩ := hsup ht
    obtain ⟨j, hj⟩ := h.suppressing hw
    by_cases hjk : j = k
    · exact ⟨k, by rw [hstage, Function.update_self]; exact hroutes (hjk ▸ hj)⟩
    · exact ⟨j, by rwa [hstage, Function.update_of_ne hjk]⟩

theorem Hooks.keep (h : Hooks w) (hstage : t.stage = w.stage) (hnext : t.next = w.next)
    (hrun : t.running = w.running)
    (hsup : t.suppressing = true → w.suppressing = true ∨ ∃ k, (w.stage k).Routes) : Hooks t where
  unborn k hk := by
    rw [hstage]
    exact h.unborn k (hnext ▸ hk)
  running k hk := by
    rw [hrun]
    exact h.running k (hstage ▸ hk)
  single k j hk hj := h.single k j (hstage ▸ hk) (hstage ▸ hj)
  suppressing ht := by
    rw [hstage]
    exact (hsup ht).elim h.suppressing id

theorem Hooks.claim (h : Hooks w) (hr : w.running = false) : Hooks
    (({ w with running := true, next := w.next + 1 }.setStage w.next .claimed).setCall c
      (.starting w.next)) := by
  have hnone : ∀ k, ¬ (w.stage k).Holds := fun k hk => by
    rw [h.running k hk] at hr
    cases hr
  have honly : ∀ k, (Function.update w.stage w.next .claimed k).Holds → k = w.next := by
    intro k hk
    by_contra hne
    rw [Function.update_of_ne hne] at hk
    exact hnone k hk
  refine ⟨fun k hk => ?_, fun _ _ => rfl, fun i j hi hj => (honly i hi).trans (honly j hj).symm,
    fun ht => ?_⟩
  · have hlt : w.next + 1 ≤ k := hk
    show Function.update w.stage w.next .claimed k = .unborn
    rw [Function.update_of_ne (by omega)]
    exact h.unborn k (by omega)
  · obtain ⟨k, hk⟩ := h.suppressing ht
    refine absurd ?_ (hnone k)
    obtain hk | hk := hk <;> rw [hk] <;> trivial

theorem Hooks.stepped (h : Hooks w) (hs : Stepped w a t) : Hooks t := by
  cases hs with
  | claim hc hr => exact h.claim hr
  | call | settled | turnOn | turnOff | busy | flag | unflag | take | takeNone | tell | stopped
  | giveUp | clear => exact h.keep rfl rfl rfl .inl
  | store hc =>
    exact h.keep (notify_stage _ _) (notify_next _ _) (notify_running _ _) fun hsup =>
      .inl ((notify_suppressing _ _).symm.trans hsup)
  | route hk => exact h.keep rfl rfl rfl fun _ => .inr ⟨_, .inl hk⟩
  | release => exact h.keep rfl rfl rfl fun hsup => by cases hsup
  -- forward with the hooks
  | hook hc hk | connect hc hk | spawn hc hk =>
    exact h.move (by simp [hk]) rfl rfl (fun _ => hk ▸ trivial) (.inl rfl) fun hsup =>
      ⟨hsup, by simp [hk, Stage.Routes]⟩
  | leave hk he =>
    exact h.move (by simp [hk]) rfl rfl (fun _ => hk ▸ trivial) (.inl rfl) fun hsup =>
      ⟨hsup, fun _ => .inr rfl⟩
  | unfeed hk =>
    exact h.move (by simp [hk]) rfl rfl (fun _ => hk ▸ trivial) (.inl rfl) fun hsup =>
      ⟨hsup, by simp [hk, Stage.Routes]⟩
  | feed hc hk =>
    exact h.move (by simp [hk]) rfl rfl (fun _ => hk ▸ trivial) (.inl rfl) fun hsup => by cases hsup
  | quieten hk | unhook hk =>
    exact h.move (by simp [hk]) rfl rfl (fun _ => hk ▸ trivial) (.inl rfl) fun hsup => by cases hsup
  -- they are given back
  | refuse hc hk | drop hk =>
    exact h.move (by simp [hk]) rfl rfl False.elim (.inr ⟨hk ▸ trivial, id⟩) fun hsup =>
      ⟨hsup, by simp [hk, Stage.Routes]⟩
  | discard hc hk =>
    exact h.move (by simp [hk]) rfl rfl False.elim (.inr ⟨hk ▸ trivial, id⟩) fun hsup => by
      cases hsup
  | exhaust hc hk | disconnect hk | finish hk =>
    exact h.move (by simp [hk]) rfl rfl False.elim (.inl rfl) fun hsup =>
      ⟨hsup, by simp [hk, Stage.Routes]⟩

/-- A call that has an attempt in hand, or has the slot and the switch to bring together. -/
def Call.Matters : Call → Prop
  | .starting _ | .storing _ | .taken _ | .flagging | .releasing => True
  | _ => False

theorem exists_setCall {P : Call → Prop} (h : ∃ c, P (w.calls c)) (hx : P (w.calls c) → P x) :
    ∃ d, P (Function.update w.calls c x d) := by
  obtain ⟨d, hd⟩ := h
  by_cases hdc : d = c
  · exact ⟨c, by rw [Function.update_self]; exact hx (hdc ▸ hd)⟩
  · exact ⟨d, by rwa [Function.update_of_ne hdc]⟩

theorem handles_start : Handles start where
  starting _ h := h.elim
  working _ h := by cases h
  slot h := absurd rfl h

theorem Handles.recall (h : Handles w) (hc : ¬ (w.calls c).Matters)
    (hcalls : t.calls = Function.update w.calls c x) (hstage : t.stage = w.stage)
    (hslot : t.slot = w.slot) (hsharing : t.sharing = w.sharing)
    (htold : ∀ k, w.notified k = true → t.notified k = true) : Handles t where
  starting k hk := by
    rw [hcalls]
    refine exists_setCall (P := (· = .starting k)) (h.starting k (hstage ▸ hk)) fun heq => ?_
    exact absurd (heq ▸ trivial) hc
  working k hk := by
    rw [hcalls, hslot]
    refine (h.working k (hstage ▸ hk)).imp (htold k) (.imp_right fun hcall => ?_)
    refine exists_setCall (P := fun y => y = .storing k ∨ y = .taken k) hcall fun heq => ?_
    obtain heq | heq := heq <;> exact absurd (heq ▸ trivial) hc
  slot hs hoff := by
    rw [hcalls]
    refine exists_setCall (P := fun y => y = .flagging ∨ y = .releasing)
      (h.slot (hslot ▸ hs) (hsharing ▸ hoff)) fun heq => ?_
    obtain heq | heq := heq <;> exact absurd (heq ▸ trivial) hc

theorem Handles.move (h : Handles w) (hstage : t.stage = Function.update w.stage k s)
    (hcalls : t.calls = w.calls) (hslot : t.slot = w.slot) (hsharing : t.sharing = w.sharing)
    (htold : t.notified = w.notified) (hstarts : s.Starts → (w.stage k).Starts)
    (hworks : s ≠ .working) : Handles t where
  starting j hj := by
    rw [hcalls]
    refine h.starting j ?_
    rw [hstage, Function.update_apply] at hj
    split at hj
    · rename_i heq
      exact heq ▸ hstarts hj
    · exact hj
  working j hj := by
    rw [hcalls, hslot, htold]
    refine h.working j ?_
    rw [hstage, Function.update_apply] at hj
    split at hj
    · exact absurd hj hworks
    · exact hj
  slot hs hoff := by
    rw [hcalls]
    exact h.slot (hslot ▸ hs) (hsharing ▸ hoff)

theorem Handles.starting_setCall (h : Handles w) {j : ℕ} (hj : (w.stage j).Starts)
    (hc : w.calls c ≠ .starting j) : ∃ d, Function.update w.calls c x d = .starting j :=
  exists_setCall (P := (· = .starting j)) (h.starting j hj) fun heq => absurd heq hc

theorem Handles.working_setCall (h : Handles w) {j : ℕ} (hj : w.stage j = .working)
    (hc : w.calls c ≠ .storing j ∧ w.calls c ≠ .taken j) :
    w.notified j = true ∨ w.slot = some j ∨
      ∃ d, Function.update w.calls c x d = .storing j ∨
        Function.update w.calls c x d = .taken j := by
  refine (h.working j hj).imp_right (.imp_right fun hcall => ?_)
  exact exists_setCall (P := fun y => y = .storing j ∨ y = .taken j) hcall fun heq =>
    absurd heq (not_or.mpr hc)

theorem Handles.slot_setCall (h : Handles w) (hs : w.slot ≠ none) (hoff : w.sharing = false)
    (hc : w.calls c ≠ .flagging ∧ w.calls c ≠ .releasing) :
    ∃ d, Function.update w.calls c x d = .flagging ∨ Function.update w.calls c x d = .releasing :=
  exists_setCall (P := fun y => y = .flagging ∨ y = .releasing) (h.slot hs hoff) fun heq =>
    absurd heq (not_or.mpr hc)

theorem Handles.claim (h : Handles w) (hc : w.calls c = .turningOn) : Handles
    (({ w with running := true, next := w.next + 1 }.setStage w.next .claimed).setCall c
      (.starting w.next)) where
  starting j hj := by
    by_cases hjn : j = w.next
    · subst hjn
      exact ⟨c, Function.update_self ..⟩
    · have hj' : (Function.update w.stage w.next .claimed j).Starts := hj
      rw [Function.update_of_ne hjn] at hj'
      exact h.starting_setCall hj' (by simp [hc])
  working j hj := by
    have hj' : Function.update w.stage w.next .claimed j = .working := hj
    rw [Function.update_apply] at hj'
    split at hj'
    · cases hj'
    · exact h.working_setCall hj' (by simp [hc])
  slot hs hoff := h.slot_setCall hs hoff (by simp [hc])

theorem Handles.spawn (h : Handles w) (hc : w.calls c = .starting k) :
    Handles ((w.setStage k .working).setCall c (.storing k)) where
  starting j hj := by
    have hj' : (Function.update w.stage k .working j).Starts := hj
    rw [Function.update_apply] at hj'
    split at hj'
    · exact hj'.elim
    · rename_i hjk
      exact h.starting_setCall hj' (by simpa [hc] using Ne.symm hjk)
  working j hj := by
    by_cases hjk : j = k
    · subst hjk
      exact .inr (.inr ⟨c, .inl (Function.update_self ..)⟩)
    · have hj' : Function.update w.stage k .working j = .working := hj
      rw [Function.update_of_ne hjk] at hj'
      exact h.working_setCall hj' (by simp [hc])
  slot hs hoff := h.slot_setCall hs hoff (by simp [hc])

theorem told {o : Option ℕ} (ht : t.notified = (w.notify o).notified)
    (hk : w.notified k = true ∨ o = some k) : t.notified k = true := by
  rw [ht]
  cases o with
  | none => simpa [World.notify] using hk
  | some j =>
    by_cases hkj : k = j
    · subst hkj
      exact Function.update_self ..
    · simp only [World.notify, Function.update_of_ne hkj]
      exact hk.resolve_right fun heq => hkj (Option.some.inj heq).symm

theorem Handles.store (h : Handles w) (hc : w.calls c = .storing k) :
    Handles ({ w.notify w.slot with slot := some k }.setCall c .flagging) where
  starting j hj := by
    have hj' : (w.stage j).Starts := by simpa [World.setCall] using hj
    simpa [World.setCall] using h.starting_setCall (x := .flagging) hj' (by simp [hc])
  working j hj := by
    have hj' : w.stage j = .working := by simpa [World.setCall] using hj
    by_cases hjk : j = k
    · exact .inr (.inl (hjk ▸ rfl))
    · obtain hw | hw | hw := h.working_setCall (c := c) (x := .flagging) hj'
        (by simpa [hc] using Ne.symm hjk)
      · exact .inl (told rfl (.inl hw))
      -- the handle of the other is dropped
      · exact .inl (told rfl (.inr hw))
      · exact .inr (.inr (by simpa [World.setCall] using hw))
  slot _ _ := ⟨c, .inl (Function.update_self ..)⟩

theorem Handles.take (h : Handles w) (hc : w.calls c = .releasing) (hslot : w.slot = some k) :
    Handles ({ w with slot := none }.setCall c (.taken k)) where
  starting j hj := h.starting_setCall hj (by simp [hc])
  working j hj := by
    obtain hw | hw | hw := h.working_setCall (c := c) (x := .taken k) hj (by simp [hc])
    · exact .inl hw
    · obtain rfl := Option.some.inj (hslot.symm.trans hw)
      exact .inr (.inr ⟨c, .inr (Function.update_self ..)⟩)
    · exact .inr (.inr hw)
  slot hs _ := absurd rfl hs

theorem Handles.tell (h : Handles w) (hc : w.calls c = .taken k) :
    Handles ((w.notify (some k)).setCall c (.waiting k)) where
  starting j hj := h.starting_setCall hj (by simp [hc])
  working j hj := by
    by_cases hjk : j = k
    · exact .inl (told rfl (.inr (congrArg some hjk.symm)))
    · obtain hw | hw := h.working_setCall (c := c) (x := .waiting k) hj
        (by simpa [hc] using Ne.symm hjk)
      · exact .inl (told rfl (.inl hw))
      · exact .inr hw
  slot hs hoff := h.slot_setCall hs hoff (by simp [hc])

theorem Handles.refuse (h : Handles w) (hc : w.calls c = .starting k)
    (hstage : t.stage = Function.update w.stage k .refused)
    (hcalls : t.calls = Function.update w.calls c .idle) (hslot : t.slot = w.slot)
    (hsharing : t.sharing = w.sharing) (htold : t.notified = w.notified) : Handles t where
  starting j hj := by
    rw [hstage, Function.update_apply] at hj
    split at hj
    · exact hj.elim
    · rename_i hjk
      rw [hcalls]
      exact h.starting_setCall hj (by simpa [hc] using Ne.symm hjk)
  working j hj := by
    rw [hstage, Function.update_apply] at hj
    split at hj
    · cases hj
    · rw [hcalls, hslot, htold]
      exact h.working_setCall hj (by simp [hc])
  slot hs hoff := by
    rw [hcalls]
    exact h.slot_setCall (hslot ▸ hs) (hsharing ▸ hoff) (by simp [hc])

theorem Handles.stepped (h : Handles w) (hs : Stepped w a t) : Handles t := by
  cases hs with
  | call hc | settled hc | turnOn hc | turnOff hc | busy hc | clear hc =>
    exact h.recall (by simp [hc, Call.Matters]) rfl rfl rfl rfl fun _ => id
  | stopped hc | giveUp hc =>
    exact h.recall (by simp [hc, Call.Matters]) rfl rfl rfl rfl fun j hj => told rfl (.inl hj)
  | claim hc => exact h.claim hc
  | spawn hc => exact h.spawn hc
  | store hc => exact h.store hc
  | take hc hslot => exact h.take hc hslot
  | tell hc => exact h.tell hc
  | takeNone hc hslot =>
    exact ⟨fun j hj => h.starting_setCall hj (by simp [hc]),
      fun j hj => h.working_setCall hj (by simp [hc]), fun hs => absurd hslot hs⟩
  | flag hc =>
    exact ⟨fun j hj => h.starting_setCall hj (by simp [hc]),
      fun j hj => h.working_setCall hj (by simp [hc]), fun _ hoff => by cases hoff⟩
  | unflag hc =>
    exact ⟨fun j hj => h.starting_setCall hj (by simp [hc]),
      fun j hj => h.working_setCall hj (by simp [hc]),
      fun _ _ => ⟨_, .inr (Function.update_self ..)⟩⟩
  | refuse hc | discard hc | exhaust hc => exact h.refuse hc rfl rfl rfl rfl rfl
  | feed hc hk | hook hc hk | connect hc hk =>
    exact h.move rfl rfl rfl rfl rfl (fun _ => hk ▸ trivial) (by simp)
  | leave | quieten | unhook | unfeed | drop | disconnect | finish =>
    exact h.move rfl rfl rfl rfl rfl False.elim (by simp)
  | route | release => exact ⟨h.starting, h.working, h.slot⟩

def Stage.toGo : Stage → ℕ
  | .working => 7
  | .breaking => 6
  | .released => 5
  | .unhooked => 4
  | .unfed => 3
  | .dropped => 2
  | .disconnected => 1
  | _ => 0

theorem loopStep_toGo {n : ℕ} (hn : (w.stage k).toGo = n + 1)
    (htold : w.stage k = .working → w.notified k = true) :
    ∃ v, loopStep w k = some v ∧ (v.stage k).toGo = n ∧ v.stage k ≠ .working ∧
      (n = 0 → v.stage k = .finished) ∧ ∀ j ≠ k, v.stage j = w.stage j := by
  have hend : ∀ {s : Stage} {v : World}, v.stage = Function.update w.stage k s →
      s.toGo = n → s ≠ .working → (n = 0 → s = .finished) → (v.stage k).toGo = n ∧
      v.stage k ≠ .working ∧ (n = 0 → v.stage k = .finished) ∧
      ∀ j ≠ k, v.stage j = w.stage j := by
    intro s v hv h₁ h₂ h₃
    rw [hv, Function.update_self]
    exact ⟨h₁, h₂, h₃, fun j hj => Function.update_of_ne hj ..⟩
  cases hs : w.stage k with
  | working =>
    have hends : w.ends k = true := by simp [World.ends, htold hs]
    rw [hs] at hn
    obtain rfl : n = 6 := by simpa [Stage.toGo] using hn.symm
    exact ⟨_, by simp only [loopStep, hs, hends, if_true]; rfl, hend rfl rfl (by simp) (by simp)⟩
  | breaking | released | unhooked | unfed | dropped | disconnected =>
    rw [hs, Stage.toGo] at hn
    obtain rfl := Nat.succ.inj hn
    exact ⟨_, by simp only [loopStep, hs]; rfl, hend rfl rfl (by simp) (by simp)⟩
  | _ => simp [hs, Stage.toGo] at hn

/-- A loop that was told to stop comes to its end by its own steps. -/
theorem run_to_end {n : ℕ} (hn : (w.stage k).toGo = n + 1)
    (htold : w.stage k = .working → w.notified k = true) :
    ∃ t, Run step Any w (List.replicate (n + 1) (.loop k)) t ∧ t.stage k = .finished ∧
      ∀ j ≠ k, t.stage j = w.stage j := by
  induction n generalizing w with
  | zero =>
    obtain ⟨v, hv, -, -, hend, hothers⟩ := loopStep_toGo hn htold
    exact ⟨v, .cons trivial hv (.nil _), hend rfl, hothers⟩
  | succ n ih =>
    obtain ⟨v, hv, hgo, hnot, -, hothers⟩ := loopStep_toGo hn htold
    obtain ⟨t, ht, hend, hkept⟩ := ih hgo fun h => absurd h hnot
    exact ⟨t, .cons trivial hv ht, hend, fun j hj => (hkept j hj).trans (hothers j hj)⟩

/-- What holds of the switch however its calls overlap. -/
structure Safe (w : World) : Prop where
  /-- One attempt at a time has the hooks. -/
  single : ∀ k j, (w.stage k).Holds → (w.stage j).Holds → k = j
  /-- Input is swallowed only while there is a loop that routes it. -/
  suppressing : w.suppressing = true → ∃ k, (w.stage k).Routes
  /-- Once it is off and no call is under way, the loop that still has the hooks gives them back by
  its own steps. -/
  off : (∀ c, w.calls c = .idle) → w.sharing = false → ∀ k, (w.stage k).Holds →
    ∃ n t, Run step Any w (List.replicate n (.loop k)) t ∧ t.suppressing = false ∧
      ∀ j, ¬ (t.stage j).Holds

theorem Hooks.run {as : List Action} {ok : World → Action → Prop} (h : Hooks w)
    (hr : Run step ok w as t) : Hooks t :=
  hr.invariant (fun _ _ _ hi _ hs => hi.stepped (stepped_of_step hs)) h

theorem safe_of (hh : Hooks w) (hd : Handles w) : Safe w where
  single := hh.single
  suppressing := hh.suppressing
  off hidle hoff k hk := by
    have hslot : w.slot = none := by
      by_contra hs
      obtain ⟨c, hc | hc⟩ := hd.slot hs hoff <;> rw [hidle c] at hc <;> cases hc
    have htold : w.stage k = .working → w.notified k = true := by
      intro hw
      obtain h | h | ⟨c, hc⟩ := hd.working k hw
      · exact h
      · rw [hslot] at h
        cases h
      · rw [hidle c] at hc
        obtain hc | hc := hc <;> cases hc
    have hgo : ∃ n, (w.stage k).toGo = n + 1 := by
      have hstarts : ¬ (w.stage k).Starts := fun hs => by
        obtain ⟨c, hc⟩ := hd.starting k hs
        rw [hidle c] at hc
        cases hc
      cases hs : w.stage k <;> simp_all [Stage.Holds, Stage.Starts, Stage.toGo]
    obtain ⟨n, hn⟩ := hgo
    obtain ⟨t, ht, hend, hothers⟩ := run_to_end hn htold
    have hnone : ∀ j, ¬ (t.stage j).Holds := by
      intro j hj
      by_cases hjk : j = k
      · rw [hjk, hend] at hj
        exact hj
      · rw [hothers j hjk] at hj
        exact hjk (hh.single j k hj hk)
    refine ⟨n + 1, t, ht, ?_, hnone⟩
    by_contra hsup
    obtain ⟨j, hj⟩ := (hh.run ht).suppressing (by simpa using hsup)
    refine hnone j ?_
    obtain hj | hj := hj <;> rw [hj] <;> trivial

/-- However the calls overlap, there is one capture at a time, input is swallowed for a loop that
routes it, and a switch that is off gives the keyboard back. -/
theorem switch_safe {as : List Action} (h : Run step Any start as w) : Safe w :=
  safe_of (hooks_start.run h)
    (h.invariant (I := Handles) (fun _ _ _ hi _ hs => hi.stepped (stepped_of_step hs))
      handles_start)

/-- Two calls turn it on at the same time and one is refused; with the pointer elsewhere it is
turned off, and the call does not wait for the loop. -/
def twice : List Action :=
  [.call 0 true, .call 1 true, .advance 0, .advance 1, .advance 0, .advance 1, .advance 0,
    .advance 0, .advance 0, .advance 0, .route 0 2 true, .advance 0, .advance 0, .call 2 false,
    .advance 2, .advance 2, .advance 2, .advance 2, .giveUp 2, .advance 2]

theorem switch_safe_twice : ∃ w, Run step Any start twice w ∧
    (w.sharing, w.suppressing, w.stage 0, w.calls 0, w.calls 1, w.calls 2) =
      (false, true, .working, .idle, .idle, .idle) ∧ Safe w := by
  obtain ⟨w, hrun, hw⟩ := run_of_replay step Any start twice
    (fun w => (w.sharing, w.suppressing, w.stage 0, w.calls 0, w.calls 1, w.calls 2))
    (b := (false, true, .working, .idle, .idle, .idle)) (by decide +kernel)
  exact ⟨w, hrun, hw, switch_safe hrun⟩

/-! One call after the other. -/

/-- A call is made when the one before has returned, and the loop ends within the three seconds. -/
def Alone (w : World) : Action → Prop
  | .call _ _ => ∀ c, w.calls c = .idle
  | .giveUp _ => False
  | _ => True

def Stage.Ended : Stage → Prop
  | .unborn | .finished | .refused => True
  | _ => False

structure Rests (w : World) : Prop where
  ended : ∀ k, (w.stage k).Ended
  slot : w.slot = none
  remoteInput : w.remoteInput = none
  cursorOwner : w.cursorOwner = none

/-- One loop is at work, has both of its inputs, and nobody has stopped it. -/
structure Works (w : World) (k : ℕ) : Prop where
  stage : w.stage k = .working
  others : ∀ j ≠ k, (w.stage j).Ended
  notified : w.notified k = false
  sink : w.sink = some k
  remoteInput : w.remoteInput = some k

def BeginsAt (w : World) (k : ℕ) : Stage → Prop
  | .claimed => w.remoteInput = none
  | .fed | .hooked => w.sink = some k ∧ w.remoteInput = none
  | .connected => w.sink = some k ∧ w.remoteInput = some k
  | _ => False

structure Begins (w : World) (k : ℕ) : Prop where
  others : ∀ j ≠ k, (w.stage j).Ended
  slot : w.slot = none
  cursorOwner : w.cursorOwner = none
  notified : w.notified k = false
  inputs : BeginsAt w k (w.stage k)

def EndsAt (w : World) : Stage → Prop
  | .working | .breaking | .released | .unhooked | .unfed | .dropped => True
  | .disconnected => w.remoteInput = none
  | .finished => w.remoteInput = none ∧ w.cursorOwner = none
  | _ => False

structure Ends (w : World) (k : ℕ) : Prop where
  others : ∀ j ≠ k, (w.stage j).Ended
  slot : w.slot = none
  inputs : EndsAt w (w.stage k)

def Settled (w : World) : Call → Prop
  | .idle | .asked _ =>
    (w.sharing = true ∧ ∃ k, w.slot = some k ∧ Works w k) ∨ w.sharing = false ∧ Rests w
  | .turningOn => w.sharing = false ∧ Rests w
  | .starting k => w.sharing = false ∧ Begins w k
  | .storing k => w.sharing = false ∧ w.slot = none ∧ Works w k
  | .flagging | .releasing => w.sharing = false ∧ ∃ k, w.slot = some k ∧ Works w k
  | .turningOff => w.sharing = true ∧ ∃ k, w.slot = some k ∧ Works w k
  | .taken k => w.sharing = false ∧ w.slot = none ∧ Works w k
  | .waiting k => w.sharing = false ∧ Ends w k
  | .clearing => w.sharing = false ∧ Rests w

structure Orderly (w : World) : Prop where
  hooks : Hooks w
  notified : ∀ k, w.next ≤ k → w.notified k = false
  one : ∀ c d, w.calls c ≠ .idle → w.calls d ≠ .idle → c = d
  settled : ∀ c, w.calls c ≠ .idle → Settled w (w.calls c)
  idle : (∀ c, w.calls c = .idle) → Settled w .idle

theorem orderly_of_next (hh : Hooks t) (hn : ∀ k, t.next ≤ k → t.notified k = false)
    (hc : ∀ d, w.calls d ≠ .idle → d = c) (hcalls : t.calls = Function.update w.calls c x)
    (hset : Settled t x) : Orderly t := by
  have honly : ∀ d, t.calls d ≠ .idle → d = c := by
    intro d hd
    by_contra hdc
    rw [hcalls, Function.update_of_ne hdc] at hd
    exact hdc (hc d hd)
  refine ⟨hh, hn, fun d e hd he => (honly d hd).trans (honly e he).symm, fun d hd => ?_,
    fun hall => ?_⟩
  · obtain rfl := honly d hd
    rw [hcalls, Function.update_self]
    exact hset
  · have hx : x = .idle := by
      have := hall c
      rwa [hcalls, Function.update_self] at this
    exact hx ▸ hset

theorem Orderly.keep (h : Orderly w) (hh : Hooks t) (hn : ∀ k, t.next ≤ k → t.notified k = false)
    (hcalls : t.calls = w.calls) (hset : ∀ x, Settled w x → Settled t x) : Orderly t where
  hooks := hh
  notified := hn
  one := hcalls ▸ h.one
  settled c hc := by
    rw [hcalls] at hc ⊢
    exact hset _ (h.settled c hc)
  idle hall := hset _ (h.idle (hcalls ▸ hall))

theorem Rests.congr (h : Rests w) (hstage : t.stage = w.stage) (hslot : t.slot = w.slot)
    (hremote : t.remoteInput = w.remoteInput) (howner : t.cursorOwner = w.cursorOwner) :
    Rests t :=
  ⟨hstage ▸ h.ended, hslot ▸ h.slot, hremote ▸ h.remoteInput, howner ▸ h.cursorOwner⟩

theorem Works.congr (h : Works w k) (hstage : t.stage = w.stage)
    (hnotified : t.notified = w.notified) (hsink : t.sink = w.sink)
    (hremote : t.remoteInput = w.remoteInput) : Works t k :=
  ⟨hstage ▸ h.stage, hstage ▸ h.others, hnotified ▸ h.notified, hsink ▸ h.sink,
    hremote ▸ h.remoteInput⟩

theorem Settled.congr (h : Settled w x) (hsharing : t.sharing = w.sharing)
    (hslot : t.slot = w.slot) (hsink : t.sink = w.sink) (hremote : t.remoteInput = w.remoteInput)
    (howner : t.cursorOwner = w.cursorOwner) (hstage : t.stage = w.stage)
    (hnotified : t.notified = w.notified) : Settled t x := by
  have hrests : Rests w → Rests t := fun h => h.congr hstage hslot hremote howner
  have hworks : ∀ k, Works w k → Works t k := fun k h => h.congr hstage hnotified hsink hremote
  cases x with
  | idle | asked =>
    refine h.imp (fun ⟨hon, k, hk, hw⟩ => ⟨hsharing ▸ hon, k, hslot ▸ hk, hworks k hw⟩) ?_
    exact fun ⟨hoff, hr⟩ => ⟨hsharing ▸ hoff, hrests hr⟩
  | turningOn | clearing => exact ⟨hsharing ▸ h.1, hrests h.2⟩
  | storing k | taken k => exact ⟨hsharing ▸ h.1, hslot ▸ h.2.1, hworks k h.2.2⟩
  | flagging | turningOff | releasing =>
    obtain ⟨hs, k, hk, hw⟩ := h
    exact ⟨hsharing ▸ hs, k, hslot ▸ hk, hworks k hw⟩
  | starting k =>
    obtain ⟨hs, h₁, h₂, h₃, h₄, h₅⟩ := h
    exact ⟨hsharing ▸ hs, hstage ▸ h₁, hslot ▸ h₂, howner ▸ h₃, hnotified ▸ h₄,
      by rw [hstage]; unfold BeginsAt; rw [hsink, hremote]; exact h₅⟩
  | waiting k =>
    obtain ⟨hs, h₁, h₂, h₃⟩ := h
    exact ⟨hsharing ▸ hs, hstage ▸ h₁, hslot ▸ h₂,
      by rw [hstage]; unfold EndsAt; rw [hremote, howner]; exact h₃⟩

theorem Settled.waiting (h : Settled w x) (hk : ¬ (w.stage k).Ended) (hs : ¬ (w.stage k).Starts)
    (he : w.stage k = .working → w.ends k = true) : x = .waiting k := by
  have hrests : ¬ Rests w := fun hr => hk (hr.ended k)
  have hworks : ∀ j, ¬ Works w j := by
    intro j hw
    have hkj : k = j := by
      by_contra hne
      exact hk (hw.others k hne)
    subst hkj
    have hends := he hw.stage
    simp [World.ends, hw.notified, hw.sink, hw.remoteInput] at hends
  cases x with
  | idle | asked =>
    obtain ⟨-, j, -, hw⟩ | ⟨-, hr⟩ := h
    · exact absurd hw (hworks j)
    · exact absurd hr hrests
  | turningOn | clearing => exact absurd h.2 hrests
  | storing j | taken j => exact absurd h.2.2 (hworks j)
  | flagging | turningOff | releasing =>
    obtain ⟨-, j, -, hw⟩ := h
    exact absurd hw (hworks j)
  | starting j =>
    have hkj : k = j := by
      by_contra hne
      exact hk (h.2.others k hne)
    subst hkj
    have hin := h.2.inputs
    cases hstage : w.stage k <;> simp_all [Stage.Starts, BeginsAt]
  | waiting j =>
    have hkj : k = j := by
      by_contra hne
      exact hk (h.2.others k hne)
    exact hkj ▸ rfl

theorem Orderly.loop (h : Orderly w) (hh : Hooks t) (hk : ¬ (w.stage k).Ended)
    (hs : ¬ (w.stage k).Starts) (he : w.stage k = .working → w.ends k = true)
    (hstage : t.stage = Function.update w.stage k s) (hcalls : t.calls = w.calls)
    (hsharing : t.sharing = w.sharing) (hslot : t.slot = w.slot)
    (hnotified : t.notified = w.notified) (hnext : t.next = w.next)
    (hin : EndsAt w (w.stage k) → EndsAt t s) : Orderly t := by
  refine h.keep hh (hnotified ▸ hnext ▸ h.notified) hcalls fun x hx => ?_
  obtain rfl := hx.waiting hk hs he
  obtain ⟨hoff, hends⟩ := hx
  refine ⟨hsharing ▸ hoff, fun j hj => ?_, hslot ▸ hends.slot, ?_⟩
  · rw [hstage, Function.update_of_ne hj]
    exact hends.others j hj
  · rw [hstage, Function.update_self]
    exact hin hends.inputs

theorem Orderly.route (h : Orderly w) (hh : Hooks t) (hk : w.stage k = .working)
    (hstage : t.stage = w.stage) (hcalls : t.calls = w.calls) (hsharing : t.sharing = w.sharing)
    (hslot : t.slot = w.slot) (hnotified : t.notified = w.notified) (hnext : t.next = w.next)
    (hsink : t.sink = w.sink) (hremote : t.remoteInput = w.remoteInput) : Orderly t := by
  refine h.keep hh (hnotified ▸ hnext ▸ h.notified) hcalls fun x hx => ?_
  have hrests : ¬ Rests w := fun hr => by
    have hend := hr.ended k
    rw [hk] at hend
    exact hend
  have hworks : ∀ j, Works w j → Works t j := fun j hw => hw.congr hstage hnotified hsink hremote
  cases x with
  | idle | asked =>
    obtain ⟨hon, j, hj, hw⟩ | ⟨-, hr⟩ := hx
    · exact .inl ⟨hsharing ▸ hon, j, hslot ▸ hj, hworks j hw⟩
    · exact absurd hr hrests
  | turningOn | clearing => exact absurd hx.2 hrests
  | storing j | taken j => exact ⟨hsharing ▸ hx.1, hslot ▸ hx.2.1, hworks j hx.2.2⟩
  | flagging | turningOff | releasing =>
    obtain ⟨hs, j, hj, hw⟩ := hx
    exact ⟨hsharing ▸ hs, j, hslot ▸ hj, hworks j hw⟩
  | starting j =>
    -- nothing is at work yet
    have hin := hx.2.inputs
    by_cases hkj : k = j
    · rw [← hkj, hk] at hin
      exact hin.elim
    · have hend := hx.2.others k hkj
      rw [hk] at hend
      exact hend.elim
  | waiting j =>
    have hkj : k = j := by
      by_contra hne
      have hend := hx.2.others k hne
      rw [hk] at hend
      exact hend
    refine ⟨hsharing ▸ hx.1, hstage ▸ hx.2.others, hslot ▸ hx.2.slot, ?_⟩
    rw [hstage, ← hkj, hk]
    trivial

theorem Begins.advance (h : Begins w k) (hstage : t.stage = Function.update w.stage k s)
    (hslot : t.slot = w.slot) (howner : t.cursorOwner = w.cursorOwner)
    (hnotified : t.notified = w.notified)
    (hin : BeginsAt w k (w.stage k) → BeginsAt t k s) : Begins t k where
  others j hj := by
    rw [hstage, Function.update_of_ne hj]
    exact h.others j hj
  slot := hslot ▸ h.slot
  cursorOwner := howner ▸ h.cursorOwner
  notified := hnotified ▸ h.notified
  inputs := by
    rw [hstage, Function.update_self]
    exact hin h.inputs

theorem Begins.refuse (h : Begins w k) (hstage : t.stage = Function.update w.stage k .refused)
    (hslot : t.slot = w.slot) (howner : t.cursorOwner = w.cursorOwner)
    (hremote : t.remoteInput = none) : Rests t where
  ended j := by
    rw [hstage]
    by_cases hj : j = k
    · rw [hj, Function.update_self]
      trivial
    · rw [Function.update_of_ne hj]
      exact h.others j hj
  slot := hslot ▸ h.slot
  remoteInput := hremote
  cursorOwner := howner ▸ h.cursorOwner

theorem Orderly.notify_fresh (h : Orderly w) (hk : w.stage k ≠ .unborn) :
    ∀ j, w.next ≤ j → (w.notify (some k)).notified j = false := by
  intro j hj
  have hne : j ≠ k := by
    rintro rfl
    exact hk (h.hooks.unborn j hj)
  show Function.update w.notified k true j = false
  rw [Function.update_of_ne hne]
  exact h.notified j hj

theorem Orderly.stepped (h : Orderly w) (hok : Alone w a) (hs : Stepped w a t) : Orderly t := by
  have hh : Hooks t := h.hooks.stepped hs
  have hone : ∀ {c : ℕ}, w.calls c ≠ .idle → ∀ d, w.calls d ≠ .idle → d = c :=
    fun hc d hd => h.one d _ hd hc
  have hat : ∀ {c : ℕ} {x : Call}, w.calls c = x → x ≠ .idle → Settled w x :=
    fun hc hx => hc ▸ h.settled _ (hc ▸ hx)
  have hsame : ∀ {c : ℕ} {x : Call}, w.calls c = x → w.calls = Function.update w.calls c x :=
    fun hc => hc ▸ (Function.update_eq_self ..).symm
  cases hs with
  | @call c enabled hc =>
    have hset : Settled w (.asked enabled) := h.idle hok
    exact orderly_of_next hh h.notified (fun d hd => absurd (hok d) hd) rfl
      (hset.congr rfl rfl rfl rfl rfl rfl rfl)
  | settled hc =>
    have hset : Settled w (.asked w.sharing) := hat hc (by simp)
    exact orderly_of_next hh h.notified (hone (by simp [hc])) rfl
      (Settled.congr (x := .idle) hset rfl rfl rfl rfl rfl rfl rfl)
  | turnOn hc hoff =>
    have hset : Settled w (.asked true) := hat hc (by simp)
    obtain ⟨hon, -⟩ | hrest := hset
    · rw [hoff] at hon
      cases hon
    · exact orderly_of_next hh h.notified (hone (by simp [hc])) rfl
        (Settled.congr (x := .turningOn) hrest rfl rfl rfl rfl rfl rfl rfl)
  | turnOff hc hon =>
    have hset : Settled w (.asked false) := hat hc (by simp)
    obtain hworks | ⟨hoff, -⟩ := hset
    · exact orderly_of_next hh h.notified (hone (by simp [hc])) rfl
        (Settled.congr (x := .turningOff) hworks rfl rfl rfl rfl rfl rfl rfl)
    · rw [hon] at hoff
      cases hoff
  | busy hc hr =>
    have hset : Settled w .turningOn := hat hc (by simp)
    exact orderly_of_next hh h.notified (hone (by simp [hc])) rfl
      (Settled.congr (x := .idle) (.inr hset) rfl rfl rfl rfl rfl rfl rfl)
  | claim hc hr =>
    obtain ⟨hoff, hrest⟩ : Settled w .turningOn := hat hc (by simp)
    refine orderly_of_next hh (fun j hj => h.notified j (Nat.le_of_succ_le hj))
      (hone (by simp [hc])) rfl ⟨hoff, fun j hj => ?_, hrest.slot, hrest.cursorOwner,
        h.notified _ le_rfl, ?_⟩
    · show (Function.update w.stage w.next .claimed j).Ended
      rw [Function.update_of_ne hj]
      exact hrest.ended j
    · show BeginsAt _ _ (Function.update w.stage w.next .claimed w.next)
      rw [Function.update_self]
      exact hrest.remoteInput
  | @feed c k hc hk =>
    obtain ⟨hoff, hb⟩ : Settled w (.starting k) := hat hc (by simp)
    refine orderly_of_next (x := .starting k) hh h.notified (hone (by simp [hc])) (hsame hc)
      ⟨hoff, hb.advance rfl rfl rfl rfl fun hin => ?_⟩
    rw [hk] at hin
    exact ⟨rfl, hin⟩
  | @hook c k hc hk =>
    obtain ⟨hoff, hb⟩ : Settled w (.starting k) := hat hc (by simp)
    refine orderly_of_next (x := .starting k) hh h.notified (hone (by simp [hc])) (hsame hc)
      ⟨hoff, hb.advance rfl rfl rfl rfl fun hin => ?_⟩
    rw [hk] at hin
    exact hin
  | @connect c k hc hk =>
    obtain ⟨hoff, hb⟩ : Settled w (.starting k) := hat hc (by simp)
    refine orderly_of_next (x := .starting k) hh h.notified (hone (by simp [hc])) (hsame hc)
      ⟨hoff, hb.advance rfl rfl rfl rfl fun hin => ?_⟩
    rw [hk] at hin
    exact ⟨hin.1, rfl⟩
  | @spawn c k hc hk =>
    obtain ⟨hoff, hb⟩ : Settled w (.starting k) := hat hc (by simp)
    have hin := hb.inputs
    rw [hk] at hin
    refine orderly_of_next (x := .storing k) hh h.notified (hone (by simp [hc])) rfl
      ⟨hoff, hb.slot, Function.update_self .., fun j hj => ?_, hb.notified, hin.1, hin.2⟩
    show (Function.update w.stage k .working j).Ended
    rw [Function.update_of_ne hj]
    exact hb.others j hj
  | @store c k hc =>
    obtain ⟨hoff, hslot, hw⟩ : Settled w (.storing k) := hat hc (by simp)
    have hnobody : w.notify w.slot = w := by
      rw [hslot]
      rfl
    rw [hnobody] at hh ⊢
    exact orderly_of_next (x := .flagging) hh h.notified (hone (by simp [hc])) rfl
      ⟨hoff, k, rfl, hw.congr rfl rfl rfl rfl⟩
  | flag hc =>
    obtain ⟨-, k, hslot, hw⟩ : Settled w .flagging := hat hc (by simp)
    exact orderly_of_next (x := .idle) hh h.notified (hone (by simp [hc])) rfl
      (.inl ⟨rfl, k, hslot, hw.congr rfl rfl rfl rfl⟩)
  | unflag hc =>
    obtain ⟨-, k, hslot, hw⟩ : Settled w .turningOff := hat hc (by simp)
    exact orderly_of_next (x := .releasing) hh h.notified (hone (by simp [hc])) rfl
      ⟨rfl, k, hslot, hw.congr rfl rfl rfl rfl⟩
  | @take c k hc hslot =>
    obtain ⟨hoff, j, hj, hw⟩ : Settled w .releasing := hat hc (by simp)
    obtain rfl := Option.some.inj (hslot.symm.trans hj)
    exact orderly_of_next (x := .taken k) hh h.notified (hone (by simp [hc])) rfl
      ⟨hoff, rfl, hw.congr rfl rfl rfl rfl⟩
  | takeNone hc hslot =>
    obtain ⟨-, j, hj, -⟩ : Settled w .releasing := hat hc (by simp)
    rw [hslot] at hj
    cases hj
  | @tell c k hc =>
    obtain ⟨hoff, hslot, hw⟩ : Settled w (.taken k) := hat hc (by simp)
    refine orderly_of_next (x := .waiting k) hh (h.notify_fresh (by simp [hw.stage]))
      (hone (by simp [hc])) rfl ⟨hoff, hw.others, hslot, ?_⟩
    show EndsAt _ (w.stage k)
    rw [hw.stage]
    trivial
  | @stopped c k hc hk =>
    obtain ⟨hoff, hends⟩ : Settled w (.waiting k) := hat hc (by simp)
    have hin := hends.inputs
    rw [hk] at hin
    refine orderly_of_next (x := .clearing) hh (h.notify_fresh (by simp [hk]))
      (hone (by simp [hc])) rfl ⟨hoff, fun j => ?_, hends.slot, hin.1, hin.2⟩
    by_cases hj : j = k
    · show (w.stage j).Ended
      rw [hj, hk]
      trivial
    · exact hends.others j hj
  | giveUp => exact absurd hok id
  | clear hc =>
    obtain ⟨hoff, hrest⟩ : Settled w .clearing := hat hc (by simp)
    exact orderly_of_next (x := .idle) hh h.notified (hone (by simp [hc])) rfl
      (.inr ⟨hoff, hrest.ended, hrest.slot, hrest.remoteInput, rfl⟩)
  | @refuse c k hc hk | @discard c k hc hk | @exhaust c k hc hk =>
    obtain ⟨hoff, hb⟩ : Settled w (.starting k) := hat hc (by simp)
    have hin := hb.inputs
    rw [hk] at hin
    exact orderly_of_next (x := .idle) hh h.notified (hone (by simp [hc])) rfl
      (.inr ⟨hoff, hb.refuse rfl rfl rfl hin.2⟩)
  | leave hk he =>
    exact h.loop hh (by simp [hk, Stage.Ended]) (by simp [hk, Stage.Starts]) (fun _ => he) rfl rfl
      rfl rfl rfl rfl fun _ => trivial
  | quieten hk | unhook hk | unfeed hk | drop hk =>
    exact h.loop hh (by simp [hk, Stage.Ended]) (by simp [hk, Stage.Starts]) (by simp [hk]) rfl rfl
      rfl rfl rfl rfl fun _ => trivial
  | disconnect hk =>
    exact h.loop hh (by simp [hk, Stage.Ended]) (by simp [hk, Stage.Starts]) (by simp [hk]) rfl rfl
      rfl rfl rfl rfl fun _ => rfl
  | finish hk =>
    refine h.loop hh (by simp [hk, Stage.Ended]) (by simp [hk, Stage.Starts]) (by simp [hk]) rfl rfl
      rfl rfl rfl rfl fun hin => ?_
    rw [hk] at hin
    exact ⟨hin, rfl⟩
  | route hk => exact h.route hh hk rfl rfl rfl rfl rfl rfl rfl rfl
  | release => exact h.keep hh h.notified rfl fun x hx => hx.congr rfl rfl rfl rfl rfl rfl rfl

theorem orderly_start : Orderly start where
  hooks := hooks_start
  notified _ _ := rfl
  one _ _ hc := absurd rfl hc
  settled _ hc := absurd rfl hc
  idle _ := .inr ⟨rfl, fun _ => trivial, rfl, rfl, rfl⟩

def Truthful (w : World) : Prop :=
  if w.sharing then
    ∃ k, w.slot = some k ∧ w.stage k = .working ∧ w.notified k = false ∧ w.sink = some k ∧
      w.remoteInput = some k
  else
    (∀ k, ¬ (w.stage k).Holds) ∧ w.suppressing = false ∧ w.remoteInput = none ∧
      w.cursorOwner = none

theorem Stage.Ended.not_holds {s : Stage} (h : s.Ended) : ¬ s.Holds := by
  cases s <;> simp_all [Stage.Ended, Stage.Holds]

/-- When the calls come one after the other, then between them the switch is on exactly if there is
a loop at work, which has the hooks, gets the input of the other machines and can be stopped; and
while it is off nothing is captured or swallowed and nothing shows where the pointer is. -/
theorem switch_truthful {as : List Action} (h : Run step Alone start as w)
    (hidle : ∀ c, w.calls c = .idle) : Truthful w := by
  have hord : Orderly w :=
    h.invariant (fun _ _ _ hi hok hs => hi.stepped hok (stepped_of_step hs)) orderly_start
  unfold Truthful
  obtain ⟨hon, k, hslot, hw⟩ | ⟨hoff, hrest⟩ := hord.idle hidle
  · rw [if_pos hon]
    exact ⟨k, hslot, hw.stage, hw.notified, hw.sink, hw.remoteInput⟩
  · rw [if_neg (by simp [hoff])]
    have hnone : ∀ k, ¬ (w.stage k).Holds := fun k => (hrest.ended k).not_holds
    refine ⟨hnone, ?_, hrest.remoteInput, hrest.cursorOwner⟩
    by_contra hsup
    obtain ⟨k, hk⟩ := hord.hooks.suppressing (by simpa using hsup)
    refine hnone k ?_
    obtain hk | hk := hk <;> rw [hk] <;> trivial

/-! A caller that waits for its own calls. -/

def FirstCaller (_ : World) : Action → Prop
  | .call c _ | .advance c | .refuse c | .exhaust c => c = 0
  | .giveUp _ => False
  | .loop _ | .route _ _ _ | .release => True

instance (w : World) (a : Action) : Decidable (FirstCaller w a) := by
  cases a <;> unfold FirstCaller <;> infer_instance

theorem calls_kept (hok : FirstCaller w a) (hs : Stepped w a t) :
    ∀ d ≠ 0, t.calls d = w.calls d := by
  intro d hd
  cases hs <;> simp_all [FirstCaller, World.setCall, World.setStage, World.dropCapture]

theorem alone_of_firstCaller {as : List Action} (h : Run step FirstCaller w as t)
    (hidle : ∀ d ≠ 0, w.calls d = .idle) :
    Run step Alone w as t ∧ ∀ d ≠ 0, t.calls d = .idle := by
  induction h with
  | nil w => exact ⟨.nil w, hidle⟩
  | @cons w v t a as hok hs _ ih =>
    have hnext : ∀ d ≠ 0, v.calls d = .idle := fun d hd =>
      (calls_kept hok (stepped_of_step hs) d hd).trans (hidle d hd)
    obtain ⟨hrun, hlast⟩ := ih hnext
    refine ⟨.cons ?_ hs hrun, hlast⟩
    cases a with
    | call c enabled =>
      intro d
      by_cases hd : d = 0
      · cases stepped_of_step hs with
        | call hc =>
          have hzero : c = 0 := hok
          rw [hd, ← hzero, hc]
      · exact hidle d hd
    | giveUp => exact hok
    | _ => trivial

/-- The switch is turned on, the pointer moves away, and the switch is turned off. -/
def onAndOff : List Action :=
  .call 0 true :: List.replicate 8 (.advance 0) ++ .route 0 2 true :: .call 0 false ::
    List.replicate 4 (.advance 0) ++ List.replicate 7 (.loop 0) ++ List.replicate 2 (.advance 0)

theorem switch_truthful_off : ∃ w, Run step Alone start onAndOff w ∧
    (w.sharing, w.stage 0, w.calls 0) = (false, .finished, .idle) ∧ Truthful w := by
  obtain ⟨w, hrun, hw⟩ := run_of_replay step FirstCaller start onAndOff
    (fun w => (w.sharing, w.stage 0, w.calls 0)) (b := (false, .finished, .idle))
    (by decide +kernel)
  obtain ⟨halone, hothers⟩ := alone_of_firstCaller hrun fun _ _ => rfl
  have hidle : ∀ c, w.calls c = .idle := by
    intro c
    by_cases hc : c = 0
    · rw [hc]
      exact (Prod.mk.inj (Prod.mk.inj hw).2).2
    · exact hothers c hc
  exact ⟨w, halone, hw, switch_truthful halone hidle⟩

def overlapping : List Action :=
  .call 0 true :: List.replicate 8 (.advance 0) ++ .call 1 false ::
    List.replicate 4 (.advance 1) ++ List.replicate 5 (.loop 0) ++ .call 2 true ::
    List.replicate 8 (.advance 2) ++ List.replicate 2 (.loop 0) ++
    List.replicate 2 (.advance 1) ++ List.replicate 7 (.loop 1)

/-- Calls that overlap may leave it on with no loop at work: the loop that ends takes the input of
the other machines from the one that has just begun. -/
theorem overlap_untruthful : ∃ w, Run step Any start overlapping w ∧
    (w.calls 0, w.calls 1, w.calls 2) = (.idle, .idle, .idle) ∧ ¬ Truthful w := by
  obtain ⟨w, hrun, hw⟩ := run_of_replay step Any start overlapping
    (fun w => ((w.calls 0, w.calls 1, w.calls 2), w.sharing, w.slot, w.stage 1))
    (b := ((.idle, .idle, .idle), true, some 1, .finished)) (by decide +kernel)
  obtain ⟨hcalls, hw⟩ := Prod.mk.inj hw
  obtain ⟨hon, hw⟩ := Prod.mk.inj hw
  obtain ⟨hslot, hend⟩ := Prod.mk.inj hw
  refine ⟨w, hrun, hcalls, fun h => ?_⟩
  rw [Truthful, if_pos hon] at h
  obtain ⟨k, hk, hwork, -⟩ := h
  obtain rfl := Option.some.inj (hslot.symm.trans hk)
  rw [hend] at hwork
  cases hwork

end InputShare.Toggle

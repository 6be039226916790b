import InputShare.Core.Geometry
import InputShare.Input.Capture
import InputShare.Input.MacKeys
import InputShare.Lib.Runs

/-! The event tap of a Mac: what it reports of an event the system shows it, and the modifier keys
among that. A modifier does not say whether it goes up or down; the tap infers it from a flag that
the two keys of a group share. -/
namespace InputShare
open Bits ModifierKey Modifier Runs

/-- The kinds of events the tap is told of. -/
inductive CGEventType where
  | leftMouseDown | leftMouseUp | rightMouseDown | rightMouseUp | mouseMoved | leftMouseDragged
  | rightMouseDragged | keyDown | keyUp | flagsChanged | scrollWheel | otherMouseDown | otherMouseUp
  | otherMouseDragged | tapDisabledByTimeout | tapDisabledByUserInput
deriving DecidableEq, Repr

/-- An event of the system, with the fields that are read or set here. -/
structure CGEvent where
  kind : CGEventType
  flags : BitVec 64 := 0
  sourceUserData : Int := 0
  location : Point := .default
  buttonNumber : Int := 0
  deltaX : Int := 0
  deltaY : Int := 0
  keycode : Int := 0
  deltaAxis1 : Int := 0
  deltaAxis2 : Int := 0
deriving DecidableEq, Repr

def injectedMarker : Int := 0x14E5055

def wheelNotch : Int := 120

namespace CGEvent
open MacKeys

def code (e : CGEvent) : ℕ := (e.keycode % 65536).toNat

/-- Whether a key is down: a modifier reports that the set of modifiers changed, and whether it is
now held is read from the flags. -/
def down (e : CGEvent) : Bool :=
  match e.kind with
  | .keyDown => true
  | .keyUp => false
  | _ =>
    match e.code with
    | 56 | 60 => e.flags &&& flagMaskShift ≠ 0
    | 59 | 62 => e.flags &&& flagMaskControl ≠ 0
    | 58 | 61 => e.flags &&& flagMaskAlternate ≠ 0
    | 55 | 54 => e.flags &&& flagMaskCommand ≠ 0
    | _ => false

def hatch (e : CGEvent) : Bool :=
  match e.kind with
  | .keyDown | .keyUp | .flagsChanged =>
    e.down && e.code = 111 && e.flags &&& flagMaskControl ≠ 0 && e.flags &&& flagMaskAlternate ≠ 0
  | _ => false

def reported (e : CGEvent) : Option InputEvent :=
  match e.kind with
  | .mouseMoved | .leftMouseDragged | .rightMouseDragged | .otherMouseDragged =>
    let dx := wrapI32 e.deltaX
    let dy := wrapI32 e.deltaY
    if dx = 0 ∧ dy = 0 then none else some (.mouseMove dx dy)
  | .leftMouseDown => some (.mouseButton .left true)
  | .leftMouseUp => some (.mouseButton .left false)
  | .rightMouseDown => some (.mouseButton .right true)
  | .rightMouseUp => some (.mouseButton .right false)
  | .otherMouseDown | .otherMouseUp =>
    let which : MouseButton :=
      if e.buttonNumber = 2 then .middle else if e.buttonNumber = 3 then .x1 else .x2
    some (.mouseButton which (e.kind = .otherMouseDown))
  | .scrollWheel =>
    let vertical := wrapI32 e.deltaAxis1
    let horizontal := wrapI32 e.deltaAxis2
    if vertical ≠ 0 then some (.wheel (wrapI32 (vertical * wheelNotch)) false)
    else if horizontal ≠ 0 then some (.wheel (wrapI32 (horizontal * wheelNotch)) true)
    else none
  | .keyDown | .keyUp | .flagsChanged =>
    (toPc e.code).map fun (scan, vk, extended) => .key vk scan e.down extended
  | .tapDisabledByTimeout | .tapDisabledByUserInput => none

end CGEvent

/-- The tap, with the capture it is part of and where what it reports goes. -/
structure Tap where
  capture : Capture
  /-- The handle of the tap is known to the callback. -/
  known : Bool
  enabled : Bool
  sink : Option (List InputEvent)

namespace Tap

def emit (t : Tap) (event : InputEvent) : Tap := { t with sink := t.sink.map (· ++ [event]) }

/-- One event; the flag says whether it goes on to the rest of the system. -/
def callback (now : ℕ) (e : CGEvent) (t : Tap) : Tap × Bool :=
  if e.kind = .tapDisabledByTimeout ∨ e.kind = .tapDisabledByUserInput then
    (if t.known then { t with enabled := true } else t, true)
  else if e.sourceUserData = injectedMarker then (t, true)
  else if e.hatch then ({ t with capture := t.capture.emergencyRelease .macOs }, true)
  else
    let t := match e.reported with
      | some event => t.emit event
      | none => t
    let (capture, swallowed) := t.capture.suppressingNow .macOs now
    ({ t with capture }, !swallowed)

theorem flagsChanged_down {e : CGEvent} {k : ModifierKey} (hkind : e.kind = .flagsChanged)
    (hcode : e.code = k.code) : e.down = decide (Has e.flags k.group.mask) := by
  unfold CGEvent.down
  rw [hkind, hcode]
  obtain ⟨g, right⟩ := k
  cases g <;> cases right <;> rfl

/-- What was injected here is never captured here. -/
theorem callback_injected (now : ℕ) {e : CGEvent} (t : Tap)
    (h : e.sourceUserData = injectedMarker) : (t.callback now e).1.sink = t.sink := by
  unfold callback
  split_ifs <;> rfl

theorem callback_modifier {now : ℕ} {e : CGEvent} {t : Tap} {log : List InputEvent}
    {k : ModifierKey} (hlog : t.sink = some log) (hkind : e.kind = .flagsChanged)
    (hcode : e.code = k.code) (hmark : e.sourceUserData ≠ injectedMarker) :
    (t.callback now e).1.sink = some (log ++ [k.event (decide (Has e.flags k.group.mask))]) := by
  have hreported : e.reported = some (k.event (decide (Has e.flags k.group.mask))) := by
    rw [← flagsChanged_down hkind hcode]
    simp only [CGEvent.reported, hkind, hcode, k.toPc_code, Option.map_some]
    rfl
  have hhatch : e.hatch = false := by
    have hne : k.code ≠ 111 := by
      obtain ⟨g, right⟩ := k
      cases g <;> cases right <;> decide
    simp [CGEvent.hatch, hkind, hcode, hne]
  have hon : ¬ (e.kind = .tapDisabledByTimeout ∨ e.kind = .tapDisabledByUserInput) := by
    rw [hkind]
    decide
  simp [callback, hon, hmark, hhatch, hreported, emit, hlog]

end Tap

namespace Modifiers

/-- A modifier key goes down or up, and the event that the system shows for it. -/
structure Action where
  key : ModifierKey
  down : Bool
  event : CGEvent
  now : ℕ
deriving DecidableEq, Repr

structure World where
  tap : Tap
  /-- The keys that are physically held. -/
  held : Finset ModifierKey
  /-- Every press and release so far. -/
  strokes : List (ModifierKey × Bool)

def step (w : World) (a : Action) : Option World :=
  some ⟨(w.tap.callback a.now a.event).1, after w.held a.key a.down,
    w.strokes ++ [(a.key, a.down)]⟩

/-- The tap has reported nothing yet, and no key is held. -/
def started (t : Tap) : World := ⟨{ t with sink := some [] }, ∅, []⟩

/-- The system sends a flags-changed event with the code of the key, and has the flag of each group
set in it exactly while a key of the group is held. -/
def Told (w : World) (a : Action) : Prop :=
  a.event.kind = .flagsChanged ∧ a.event.keycode = a.key.code ∧
    a.event.sourceUserData ≠ injectedMarker ∧
    ∀ g : Modifier, Has a.event.flags g.mask ↔ HeldIn (after w.held a.key a.down) g

instance (w : World) (a : Action) : Decidable (Told w a) := inferInstanceAs (Decidable (_ ∧ _))

/-- No key is released while the other key of its group is held. -/
def Alone (w : World) (a : Action) : Prop := a.down = false → a.key.partner ∉ w.held

instance (w : World) (a : Action) : Decidable (Alone w a) := inferInstanceAs (Decidable (_ → _))

/-- Each press was reported as a press and each release as a release, and what a receiver has down
is what is held. -/
def Faithful (w : World) : Prop :=
  ∃ log, w.tap.sink = some log ∧ log = w.strokes.map (fun (k, down) => k.event down) ∧
    ∀ k : ModifierKey, Down k.key log = true ↔ k ∈ w.held

theorem code_of_told {w : World} {a : Action} (h : Told w a) : a.event.code = a.key.code := by
  have hlt : a.key.code < 65536 := by
    obtain ⟨g, right⟩ := a.key
    cases g <;> cases right <;> decide
  rw [CGEvent.code, h.2.1]
  omega

theorem sink_step {w v : World} {a : Action} {log : List InputEvent} (h : Told w a)
    (hlog : w.tap.sink = some log) (hs : step w a = some v) :
    v.tap.sink = some (log ++ [a.key.event (decide (HeldIn v.held a.key.group))]) := by
  obtain rfl := Option.some.inj hs
  rw [Tap.callback_modifier hlog h.1 (code_of_told h) h.2.2.1]
  simp only [h.2.2.2 a.key.group]

theorem down_event (log : List InputEvent) (k j : ModifierKey) (down : Bool) :
    Down j.key (log ++ [k.event down]) = if j = k then down else Down j.key log := by
  rw [down_append_singleton]
  by_cases hjk : j = k
  · subst hjk
    cases down <;> simp [InputEvent.lifts, InputEvent.presses, stroke_event]
  · have hkey : k.key ≠ j.key := fun h => hjk (key_injective h).symm
    simp [InputEvent.lifts, InputEvent.presses, stroke_event, hkey, hjk]

/-- A press or release is reported as what it is exactly if it is not the release of a key whose
partner is held. -/
theorem step_faithful {w v : World} {a : Action} (h : Faithful w) (ht : Told w a)
    (hs : step w a = some v) : Faithful v ↔ Alone w a := by
  obtain ⟨log, hlog, hmap, hdown⟩ := h
  have hsink := sink_step ht hlog hs
  obtain rfl := Option.some.inj hs
  have hdir : decide (HeldIn (after w.held a.key a.down) a.key.group) = a.down ↔ Alone w a := by
    rw [Bool.eq_iff_iff, decide_eq_true_iff, heldIn_after]
    cases hd : a.down <;> simp [Alone, hd]
  rw [← hdir]
  constructor
  · intro ⟨log', hlog', hmap', _⟩
    obtain rfl := Option.some.inj (hlog'.symm.trans hsink)
    rw [List.map_append, ← hmap] at hmap'
    exact event_down_inj (List.singleton_inj.mp (List.append_cancel_left hmap'))
  · intro heq
    rw [heq] at hsink
    refine ⟨_, hsink, by simp [hmap], fun k => ?_⟩
    rw [down_event]
    by_cases hk : k = a.key
    · subst hk
      cases hd : a.down <;> simp [after]
    · cases hd : a.down <;> simp [after, hk, hdown]

theorem sink_of_faithful {w v : World} {a : Action} {log : List InputEvent} (h : Faithful w)
    (hlog : w.tap.sink = some log) (hs : step w a = some v) (hv : Faithful v) :
    v.tap.sink = some (log ++ [a.key.event a.down]) := by
  obtain ⟨log₀, hlog₀, hmap, -⟩ := h
  obtain rfl := Option.some.inj (hlog.symm.trans hlog₀)
  obtain ⟨log', hlog', hmap', -⟩ := hv
  obtain rfl := Option.some.inj hs
  rw [hlog', hmap', hmap, List.map_append]
  rfl

theorem faithful_started (t : Tap) : Faithful (started t) :=
  ⟨[], rfl, rfl, fun k => by simp [Down, started]⟩

/-- Every press is reported as a press and every release as a release, and the receiver has down
what is held, exactly as long as no key is released while the other one of its group is held. -/
theorem captured_faithful_iff {t : Tap} {as : List Action} {w : World}
    (h : Run step Told (started t) as w) :
    Throughout step Faithful (started t) as ↔ Run step Alone (started t) as w :=
  h.throughout_iff (I := fun _ => True) (fun _ _ _ _ _ _ => trivial)
    (fun _ _ _ _ hf ht hs => step_faithful hf ht hs) trivial (faithful_started t)

def leftShift : ModifierKey := ⟨.shift, false⟩
def rightShift : ModifierKey := ⟨.shift, true⟩
def leftControl : ModifierKey := ⟨.control, false⟩

/-- A press or a release with the flags the system has in it. -/
def stroke (key : ModifierKey) (down : Bool) (flags : BitVec 64) : Action :=
  ⟨key, down, { kind := .flagsChanged, flags, keycode := key.code }, 0⟩

def idle : Tap := ⟨.start 0, true, true, none⟩

/-- A shortcut: the two keys are of different groups. -/
theorem captured_faithful_iff_shortcut : ∃ w,
    Run step Told (started idle)
      [stroke leftControl true 0x40000, stroke leftShift true 0x60000,
        stroke leftControl false 0x20000, stroke leftShift false 0] w ∧
    w.tap.sink = some [.key 0xA2 0x1D true false, .key 0xA0 0x2A true false,
      .key 0xA2 0x1D false false, .key 0xA0 0x2A false false] ∧
    Throughout step Faithful (started idle)
      [stroke leftControl true 0x40000, stroke leftShift true 0x60000,
        stroke leftControl false 0x20000, stroke leftShift false 0] := by
  obtain ⟨w, hrun, hw⟩ := run_of_replay step (fun w a => Told w a ∧ Alone w a) (started idle)
    [stroke leftControl true 0x40000, stroke leftShift true 0x60000,
      stroke leftControl false 0x20000, stroke leftShift false 0] (fun w => w.tap.sink)
    (b := some [.key 0xA2 0x1D true false, .key 0xA0 0x2A true false,
      .key 0xA2 0x1D false false, .key 0xA0 0x2A false false]) (by decide +kernel)
  have htold : Run step Told _ _ w := hrun.mono fun _ _ => And.left
  exact ⟨w, htold, hw, (captured_faithful_iff htold).mpr (hrun.mono fun _ _ => And.right)⟩

/-- Both Shift keys are pressed, and the left one is released first: it is reported down once more,
and stays down on the receiver when nothing is held any longer. -/
theorem left_shift_sticks : ∃ w,
    Run step Told (started idle)
      [stroke leftShift true 0x20000, stroke rightShift true 0x20000,
        stroke leftShift false 0x20000, stroke rightShift false 0] w ∧
    w.held = ∅ ∧
    w.tap.sink = some [leftShift.event true, rightShift.event true, leftShift.event true,
      rightShift.event false] ∧
    Down leftShift.key [leftShift.event true, rightShift.event true, leftShift.event true,
      rightShift.event false] = true ∧ ¬ Faithful w := by
  obtain ⟨w, hrun, hw⟩ := run_of_replay step Told (started idle)
    [stroke leftShift true 0x20000, stroke rightShift true 0x20000,
      stroke leftShift false 0x20000, stroke rightShift false 0] (fun w => (w.held, w.tap.sink))
    (b := (∅, some [leftShift.event true, rightShift.event true, leftShift.event true,
      rightShift.event false])) (by decide +kernel)
  obtain ⟨hheld, hsink⟩ := Prod.mk.inj hw
  have hdown : Down leftShift.key [leftShift.event true, rightShift.event true,
      leftShift.event true, rightShift.event false] = true := by decide +kernel
  refine ⟨w, hrun, hheld, hsink, hdown, fun ⟨log, hlog, _, hfaithful⟩ => ?_⟩
  obtain rfl := Option.some.inj (hlog.symm.trans hsink)
  have hmem := (hfaithful leftShift).mp hdown
  rw [hheld] at hmem
  exact absurd hmem (Finset.notMem_empty _)

end Modifiers
end InputShare

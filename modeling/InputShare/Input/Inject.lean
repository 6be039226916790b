import InputShare.Input.Tap

/-! Injection on a Mac: what is posted for an event from another machine. The system takes the
modifiers from every event and does not infer them, so the injector keeps a mask of what the remote
keyboard holds and puts it in each event. -/
namespace InputShare
open Bits MacKeys ModifierKey Modifier Runs

/-- The rectangle covering every display. -/
structure Desktop where
  minX : Int
  minY : Int
  maxX : Int
  maxY : Int
deriving DecidableEq, Repr

/-- What the system answers during a call. -/
structure MacSystem where
  /-- An event could be made. -/
  created : Bool
  /-- The flags that a new event comes with. -/
  flags : BitVec 64
  cursor : Option Point
  desktop : Option Desktop
  warpStatus : Int
deriving DecidableEq, Repr

inductive InjectError where
  | os (message : String)
  | panic
deriving DecidableEq, Repr

structure Injector where
  lastX : Int
  lastY : Int
  haveLast : Bool
  /-- Which buttons are held down on behalf of a remote mouse. -/
  heldButtons : BitVec 32
  /-- Modifier state as the remote keyboard has left it. -/
  injectFlags : BitVec 64
deriving DecidableEq, Repr

namespace Injector

def start : Injector := ⟨0, 0, false, 0, 0⟩

def newEvent (s : MacSystem) (message : String) (e : CGEvent) : Except InjectError CGEvent :=
  if s.created then .ok { e with flags := s.flags } else .error (.os message)

/-- Finishes an event: stamped, and with the modifier state. -/
def post (i : Injector) (e : CGEvent) : CGEvent :=
  { e with sourceUserData := injectedMarker, flags := e.flags ||| i.injectFlags }

def remember (i : Injector) (x y : Int) : Injector :=
  { i with lastX := x, lastY := y, haveLast := true }

def currentPoint (i : Injector) (s : MacSystem) : Point :=
  if i.haveLast then ⟨i.lastX, i.lastY⟩ else s.cursor.getD .default

/-- The events posted, or why there are none; the state is changed in both cases. -/
abbrev Outcome := Injector × Except InjectError (List CGEvent)

def setCursorPosition (s : MacSystem) (x y : Int) (i : Injector) : Outcome :=
  if s.warpStatus ≠ 0 then
    (i, .error (.os ("CGWarpMouseCursorPosition failed with " ++ toString s.warpStatus)))
  else (i.remember x y, .ok [])

/-- `clamp`, which panics on an empty range. -/
def clamp (n low high : Int) : Option Int :=
  if high < low then none else some (max low (min n high))

def injectMove (s : MacSystem) (dx dy : Int) (i : Injector) : Outcome :=
  let p := i.currentPoint s
  let target : Option (Int × Int) :=
    let nx := wrapI32 (p.x + dx)
    let ny := wrapI32 (p.y + dy)
    match s.desktop with
    | some d => do
      let nx ← clamp nx d.minX (wrapI32 (d.maxX - 1))
      let ny ← clamp ny d.minY (wrapI32 (d.maxY - 1))
      return (nx, ny)
    | none => some (nx, ny)
  match target with
  | none => (i, .error .panic)
  | some (nx, ny) =>
    let (kind, button) : CGEventType × Int :=
      if i.heldButtons &&& 1 ≠ 0 then (.leftMouseDragged, 0)
      else if i.heldButtons &&& 2 ≠ 0 then (.rightMouseDragged, 1)
      else if i.heldButtons ≠ 0 then (.otherMouseDragged, 2)
      else (.mouseMoved, 0)
    match newEvent s "CGEventCreateMouseEvent returned nothing"
        { kind, location := ⟨nx, ny⟩, buttonNumber := button
          deltaX := wrapI32 (nx - p.x), deltaY := wrapI32 (ny - p.y) } with
    | .ok event => (i.remember nx ny, .ok [i.post event])
    | .error error => (i, .error error)

/-- The kind of event for a button, its number, and its bit among the held ones. -/
def buttonEvent : MouseButton → Bool → CGEventType × Int × ℕ
  | .left, true => (.leftMouseDown, 0, 0)
  | .left, false => (.leftMouseUp, 0, 0)
  | .right, true => (.rightMouseDown, 1, 1)
  | .right, false => (.rightMouseUp, 1, 1)
  | .middle, true => (.otherMouseDown, 2, 2)
  | .middle, false => (.otherMouseUp, 2, 2)
  | .x1, true => (.otherMouseDown, 3, 3)
  | .x1, false => (.otherMouseUp, 3, 3)
  | .x2, true => (.otherMouseDown, 4, 4)
  | .x2, false => (.otherMouseUp, 4, 4)

def injectButton (s : MacSystem) (button : MouseButton) (down : Bool) (i : Injector) : Outcome :=
  let (kind, number, bit) := buttonEvent button down
  let i := { i with heldButtons := put i.heldButtons (1 <<< bit) down }
  let event := newEvent s "CGEventCreateMouseEvent returned nothing"
    { kind, location := i.currentPoint s, buttonNumber := number }
  (i, event.map fun event => [i.post event])

/-- The wire counts in notches of 120, the system in lines; a fraction of a notch is a line. -/
def injectWheel (s : MacSystem) (delta : Int) (horizontal : Bool) (i : Injector) : Outcome :=
  if delta = 0 then (i, .ok [])
  else
    let scaled := delta.tdiv wheelNotch
    let lines := if scaled = 0 then delta.sign else scaled
    let event := newEvent s "CGEventCreateScrollWheelEvent failed"
      { kind := .scrollWheel
        deltaAxis1 := if horizontal then 0 else lines
        deltaAxis2 := if horizontal then lines else 0 }
    (i, event.map fun event => [i.post event])

def modifierMask : ℕ → BitVec 64
  | 56 | 60 => flagMaskShift
  | 59 | 62 => flagMaskControl
  | 58 | 61 => flagMaskAlternate
  | 55 | 54 => flagMaskCommand
  | _ => 0

def injectKey (s : MacSystem) (vk scan : ℕ) (down extended : Bool) (i : Injector) : Outcome :=
  match fromPc scan vk extended with
  | none => (i, .ok [])
  | some keycode =>
    let mask := modifierMask keycode
    let i :=
      if mask ≠ 0 then { i with injectFlags := put i.injectFlags mask down } else i
    let event := newEvent s "CGEventCreateKeyboardEvent failed"
      { kind := if down then .keyDown else .keyUp, keycode }
    (i, event.map fun event => [i.post event])

def inject (s : MacSystem) : InputEvent → Injector → Outcome
  | .cursorEnter x y => setCursorPosition s x y
  | .mouseMove dx dy => injectMove s dx dy
  | .mouseButton button down => injectButton s button down
  | .wheel delta horizontal => injectWheel s delta horizontal
  | .key vk scan down extended => injectKey s vk scan down extended

def modifierStroke : InputEvent → Option (ModifierKey × Bool)
  | .key vk scan down extended => ((fromPc scan vk extended).bind ofCode).map fun k => (k, down)
  | _ => none

theorem modifierMask_eq (keycode : ℕ) :
    modifierMask keycode = (ofCode keycode).elim 0 fun k => k.group.mask := by
  unfold modifierMask
  split
  all_goals first | rfl | skip
  unfold ofCode
  split <;> first | contradiction | rfl

theorem setCursorPosition_spec (s : MacSystem) (x y : Int) (i : Injector) :
    (setCursorPosition s x y i).1 = i ∨ (setCursorPosition s x y i).1 = i.remember x y := by
  unfold setCursorPosition
  split_ifs
  · exact .inl rfl
  · exact .inr rfl

theorem injectMove_spec (s : MacSystem) (dx dy : Int) (i : Injector) :
    (injectMove s dx dy i).1 = i ∨ ∃ x y, (injectMove s dx dy i).1 = i.remember x y := by
  simp only [injectMove]
  split
  · exact .inl rfl
  · split
    · exact .inr ⟨_, _, rfl⟩
    · exact .inl rfl

theorem injectWheel_state (s : MacSystem) (delta : Int) (horizontal : Bool) (i : Injector) :
    (injectWheel s delta horizontal i).1 = i := by
  simp only [injectWheel]
  split_ifs <;> rfl

/-- What is left of the mask: only the press and the release of a modifier change it, and only the
flag of its group. -/
theorem injectFlags_inject (s : MacSystem) (e : InputEvent) (i : Injector) :
    (i.inject s e).1.injectFlags =
      match modifierStroke e with
      | some (k, down) => put i.injectFlags k.group.mask down
      | none => i.injectFlags := by
  cases e with
  | cursorEnter x y =>
    simp only [inject, modifierStroke]
    obtain h | h := setCursorPosition_spec s x y i <;> rw [h]
    rfl
  | mouseMove dx dy =>
    simp only [inject, modifierStroke]
    obtain h | ⟨x, y, h⟩ := injectMove_spec s dx dy i <;> rw [h]
    rfl
  | mouseButton button down => rfl
  | wheel delta horizontal =>
    simp only [inject, injectWheel_state, modifierStroke]
  | key vk scan down extended =>
    simp only [inject, injectKey, modifierStroke]
    cases fromPc scan vk extended with
    | none => rfl
    | some keycode =>
      simp only [modifierMask_eq, Option.bind_some]
      cases ofCode keycode with
      | none => rfl
      | some k =>
        simp only [Option.elim_some, ne_eq, k.group.mask_ne_zero, not_false_eq_true, if_true,
          Option.map_some]

def buttonStroke : InputEvent → Option (MouseButton × Bool)
  | .mouseButton button down => some (button, down)
  | _ => none

def buttonMask (button : MouseButton) : BitVec 32 := 1 <<< (buttonEvent button true).2.2

theorem heldButtons_inject (s : MacSystem) (e : InputEvent) (i : Injector) :
    (i.inject s e).1.heldButtons =
      match buttonStroke e with
      | some (button, down) => put i.heldButtons (buttonMask button) down
      | none => i.heldButtons := by
  cases e with
  | cursorEnter x y =>
    simp only [inject, buttonStroke]
    obtain h | h := setCursorPosition_spec s x y i <;> rw [h]
    rfl
  | mouseMove dx dy =>
    simp only [inject, buttonStroke]
    obtain h | ⟨x, y, h⟩ := injectMove_spec s dx dy i <;> rw [h]
    rfl
  | mouseButton button down => cases button <;> cases down <;> rfl
  | wheel delta horizontal =>
    simp only [inject, injectWheel_state, buttonStroke]
  | key vk scan down extended =>
    simp only [inject, injectKey, buttonStroke]
    split
    · rfl
    · split_ifs <;> rfl

theorem inject_posts {s : MacSystem} {e : InputEvent} {i j : Injector} {posted : List CGEvent}
    (h : i.inject s e = (j, .ok posted)) :
    ∀ x ∈ posted, x.sourceUserData = injectedMarker ∧ x.flags = s.flags ||| j.injectFlags := by
  have hnew : ∀ {message : String} {new : CGEvent} {made : List CGEvent},
      (newEvent s message new).map (fun event => [j.post event]) = .ok made →
      ∀ x ∈ made, x.sourceUserData = injectedMarker ∧ x.flags = s.flags ||| j.injectFlags := by
    intro message new made hmade x hx
    unfold newEvent at hmade
    split at hmade
    · obtain rfl := Except.ok.inj hmade
      rw [List.mem_singleton.mp hx]
      exact ⟨rfl, rfl⟩
    · cases hmade
  cases e with
  | cursorEnter x y =>
    simp only [inject, setCursorPosition] at h
    split_ifs at h <;> cases h
    simp
  | mouseMove dx dy =>
    simp only [inject, injectMove] at h
    split at h
    · cases h
    · split at h
      · rename_i hevent
        obtain ⟨rfl, hposted⟩ := Prod.mk.inj h
        exact hnew (by rw [hevent]; exact hposted)
      · cases h
  | mouseButton button down =>
    obtain ⟨rfl, hposted⟩ := Prod.mk.inj h
    exact hnew hposted
  | wheel delta horizontal =>
    simp only [inject, injectWheel] at h
    split at h
    · obtain ⟨rfl, hposted⟩ := Prod.mk.inj h
      obtain rfl := Except.ok.inj hposted
      simp
    · obtain ⟨rfl, hposted⟩ := Prod.mk.inj h
      exact hnew hposted
  | key vk scan down extended =>
    simp only [inject, injectKey] at h
    split at h
    · obtain ⟨rfl, hposted⟩ := Prod.mk.inj h
      obtain rfl := Except.ok.inj hposted
      simp
    · obtain ⟨rfl, hposted⟩ := Prod.mk.inj h
      exact hnew hposted

end Injector

namespace Injection
open Injector

/-- An event from another machine, and what the system answers while it is injected. -/
structure Action where
  event : InputEvent
  system : MacSystem
deriving DecidableEq, Repr

structure World where
  injector : Injector
  /-- The modifier keys that were pressed and not released yet. -/
  held : Finset ModifierKey
  /-- The buttons that were pressed and not released yet. -/
  buttons : Finset MouseButton

def step (w : World) (a : Action) : Option World :=
  some
    { injector := (w.injector.inject a.system a.event).1
      held := match modifierStroke a.event with
        | some (k, down) => after w.held k down
        | none => w.held
      buttons := match buttonStroke a.event with
        | some (button, true) => insert button w.buttons
        | some (button, false) => w.buttons.erase button
        | none => w.buttons }

def start : World := ⟨.start, ∅, ∅⟩

/-- No modifier key is released while the other key of its group is held. -/
def Alone (w : World) (a : Action) : Prop :=
  ∀ p ∈ modifierStroke a.event, p.2 = false → p.1.partner ∉ w.held

instance (w : World) (a : Action) : Decidable (Alone w a) :=
  inferInstanceAs (Decidable (∀ _ ∈ _, _ → _))

/-- The mask has the flag of a group set exactly while a key of the group is held. -/
def Faithful (w : World) : Prop :=
  ∀ g : Modifier, Has w.injector.injectFlags g.mask ↔ HeldIn w.held g

instance (w : World) : Decidable (Faithful w) := inferInstanceAs (Decidable (∀ _, _))

theorem step_faithful {w v : World} {a : Action} (h : Faithful w) (hs : step w a = some v) :
    Faithful v ↔ Alone w a := by
  obtain rfl := Option.some.inj hs
  cases hstroke : modifierStroke a.event with
  | none => simpa [Faithful, Alone, injectFlags_inject, hstroke] using h
  | some p =>
    obtain ⟨k, down⟩ := p
    -- only the group of the key is touched, by the mask and by the keys held
    have hgroup : ∀ g : Modifier,
        (Has (put w.injector.injectFlags k.group.mask down) g.mask ↔
          HeldIn (after w.held k down) g) ↔ (g = k.group → down = false → k.partner ∉ w.held) := by
      intro g
      by_cases hg : g = k.group
      · subst hg
        rw [has_put k.group.mask_ne_zero, heldIn_after]
        cases down <;> simp
      · rw [has_put_of_disjoint (mask_disjoint (Ne.symm hg)), heldIn_after_of_ne down hg]
        exact iff_of_true (h g) fun he => absurd he hg
    simp only [Faithful, Alone, injectFlags_inject, hstroke, hgroup, forall_eq, Option.mem_some_iff,
      forall_eq']

/-- The mask is right after every event exactly as long as no modifier key is released while the
other one of its group is held. -/
theorem injected_faithful_iff {as : List Action} {w : World} (h : Run step Any start as w) :
    Throughout step Faithful start as ↔ Run step Alone start as w :=
  h.throughout_iff (I := fun _ => True) (fun _ _ _ _ _ _ => trivial)
    (fun _ _ _ _ hf _ hs => step_faithful hf hs) trivial (by decide)

theorem posted_has {w v : World} {a : Action} {posted : List CGEvent} (h : Faithful v)
    (hs : step w a = some v) (hp : (w.injector.inject a.system a.event).2 = .ok posted) :
    ∀ x ∈ posted, ∀ g : Modifier,
      Has x.flags g.mask ↔ Has a.system.flags g.mask ∨ HeldIn v.held g := by
  obtain rfl := Option.some.inj hs
  intro x hx g
  rw [(inject_posts (Prod.ext rfl hp) x hx).2, has_or]
  exact or_congr_right (h g)

/-- A system that makes every event, without flags of its own. -/
def plain : MacSystem := ⟨true, 0, none, none, 0⟩

def stroke (k : ModifierKey) (down : Bool) : Action := ⟨k.event down, plain⟩

/-- A shortcut with a repeated press, and a letter in it. -/
theorem injected_faithful_iff_shortcut : ∃ w,
    Run step Any start
      [stroke Modifiers.leftShift true, stroke Modifiers.leftShift true,
        stroke Modifiers.leftControl true, ⟨.key 0x43 0x2E true false, plain⟩,
        stroke Modifiers.leftControl false] w ∧
    w.injector.injectFlags = flagMaskShift ∧
    Throughout step Faithful start
      [stroke Modifiers.leftShift true, stroke Modifiers.leftShift true,
        stroke Modifiers.leftControl true, ⟨.key 0x43 0x2E true false, plain⟩,
        stroke Modifiers.leftControl false] := by
  obtain ⟨w, hrun, hw⟩ := run_of_replay step Alone start
    [stroke Modifiers.leftShift true, stroke Modifiers.leftShift true,
      stroke Modifiers.leftControl true, ⟨.key 0x43 0x2E true false, plain⟩,
      stroke Modifiers.leftControl false] (fun w => w.injector.injectFlags)
    (b := flagMaskShift) (by decide +kernel)
  have hany : Run step Any start _ w := hrun.mono fun _ _ _ => trivial
  exact ⟨w, hany, hw, (injected_faithful_iff hany).mpr hrun⟩

/-- Both Shift keys are pressed and the left one is released: the mask says that none is held. -/
theorem right_shift_is_lost : ∃ w,
    Run step Any start
      [stroke Modifiers.leftShift true, stroke Modifiers.rightShift true,
        stroke Modifiers.leftShift false] w ∧
    w.held = {Modifiers.rightShift} ∧ w.injector.injectFlags = 0 ∧ ¬ Faithful w := by
  obtain ⟨w, hrun, hw⟩ := run_of_replay step Any start
    [stroke Modifiers.leftShift true, stroke Modifiers.rightShift true,
      stroke Modifiers.leftShift false] (fun w => (w.held, w.injector.injectFlags))
    (b := ({Modifiers.rightShift}, 0)) (by decide +kernel)
  obtain ⟨hheld, hflags⟩ := Prod.mk.inj hw
  refine ⟨w, hrun, hheld, hflags, fun h => ?_⟩
  have hshift := h .shift
  rw [hheld, hflags] at hshift
  exact absurd (hshift.mpr ⟨true, Finset.mem_singleton_self _⟩) (by decide)

/-! What one Mac captures, injected on another. -/

theorem modifierStroke_event (k : ModifierKey) (down : Bool) :
    modifierStroke (k.event down) = some (k, down) := by
  have hcode : (fromPc k.pc.1 k.pc.2.1 k.pc.2.2).bind ofCode = some k := by
    rw [k.fromPc_pc]
    exact k.ofCode_code
  simp only [modifierStroke, ModifierKey.event, hcode, Option.map_some]

/-- As long as no key is released while its partner is held, the keys held here are those held on
the Mac that captures them. -/
theorem injected_of_captured {w v : Modifiers.World} {as : List Modifiers.Action}
    {log : List InputEvent} (h : Run Modifiers.step Modifiers.Told w as v)
    (halone : Run Modifiers.step Modifiers.Alone w as v) (hw : Modifiers.Faithful w)
    (hsink : w.tap.sink = some log) :
    ∃ l, v.tap.sink = some (log ++ l) ∧ ∀ u : World, u.held = w.held →
      ∀ bs : List Action, bs.map Action.event = l →
        ∃ x, Run step Alone u bs x ∧ x.held = v.held := by
  induction h generalizing log with
  | nil w =>
    refine ⟨[], by simpa using hsink, fun u hheld bs hbs => ?_⟩
    obtain rfl := List.map_eq_nil_iff.mp hbs
    exact ⟨u, .nil u, hheld⟩
  | @cons w t v a as htold hst hrest ih =>
    cases halone with
    | cons hok hst' halone =>
      obtain rfl := Option.some.inj (hst.symm.trans hst')
      have ht : Modifiers.Faithful t := (Modifiers.step_faithful hw htold hst).mpr hok
      have hnext := Modifiers.sink_of_faithful hw hsink hst ht
      obtain ⟨l, hl, hruns⟩ := ih halone ht hnext
      refine ⟨a.key.event a.down :: l, by rw [hl]; simp, fun u hheld bs hbs => ?_⟩
      obtain ⟨b, bs, rfl, hb, hbs⟩ := List.map_eq_cons_iff.mp hbs
      have hstroke : modifierStroke b.event = some (a.key, a.down) := by
        rw [hb, modifierStroke_event]
      obtain ⟨u', hu'⟩ : ∃ u', step u b = some u' := ⟨_, rfl⟩
      have hkeys : u'.held = t.held := by
        obtain rfl := Option.some.inj hu'
        obtain rfl := Option.some.inj hst
        simp only [hstroke, hheld]
      obtain ⟨x, hx, hkept⟩ := hruns u' hkeys bs hbs
      refine ⟨x, .cons (fun p hp hup => ?_) hu' hx, hkept⟩
      obtain rfl := Option.some.inj (hstroke.symm.trans hp)
      rw [hheld]
      exact hok hup

/-- The other Mac has the modifiers that are held: the mask there says so, and so does whatever is
posted next, be it a letter or a click. -/
def Agrees (held : Finset ModifierKey) (u : World) : Prop :=
  ∀ g : Modifier, (Has u.injector.injectFlags g.mask ↔ HeldIn held g) ∧
    ∀ e s posted, modifierStroke e = none → (u.injector.inject s e).2 = .ok posted →
      ∀ x ∈ posted, Has x.flags g.mask ↔ Has s.flags g.mask ∨ HeldIn held g

theorem agrees {u : World} (h : Faithful u) : Agrees u.held u := by
  refine fun g => ⟨h g, fun e s posted hstroke hp x hx => ?_⟩
  obtain ⟨v, hv⟩ : ∃ v, step u ⟨e, s⟩ = some v := ⟨_, rfl⟩
  have hheld : v.held = u.held := by
    obtain rfl := Option.some.inj hv
    simp only [hstroke]
  have hfaithful : Faithful v := by
    refine (step_faithful h hv).mpr fun p hmem => ?_
    rw [hstroke] at hmem
    cases hmem
  rw [← hheld]
  exact posted_has hfaithful hv hp x hx g

/-- From keyboard to screen: as long as no key is released while its partner is held, whatever is
captured on one Mac and injected on another leaves the other one with the modifiers that are held
on the first. -/
theorem macs_agree {t : Tap} {as : List Modifiers.Action} {w : Modifiers.World}
    (h : Run Modifiers.step Modifiers.Told (Modifiers.started t) as w)
    (halone : Run Modifiers.step Modifiers.Alone (Modifiers.started t) as w) :
    ∃ log, w.tap.sink = some log ∧ ∀ bs : List Action, bs.map Action.event = log →
      ∃ u, Run step Any start bs u ∧ Agrees w.held u := by
  obtain ⟨l, hsink, hruns⟩ := injected_of_captured h halone (Modifiers.faithful_started t) rfl
  refine ⟨l, by simpa using hsink, fun bs hbs => ?_⟩
  obtain ⟨u, hrun, hheld⟩ := hruns start rfl bs hbs
  have hu : Faithful u := by
    refine hrun.invariant (I := Faithful) (fun _ _ _ hf hok hs => ?_) (by decide)
    exact (step_faithful hf hs).mpr hok
  exact ⟨u, hrun.mono fun _ _ _ => trivial, hheld ▸ agrees hu⟩

/-- A shortcut, captured and injected. -/
theorem macs_agree_shortcut : ∃ w,
    Run Modifiers.step Modifiers.Told (Modifiers.started Modifiers.idle)
      [Modifiers.stroke Modifiers.leftControl true 0x40000,
        Modifiers.stroke Modifiers.leftShift true 0x60000] w ∧
    ∃ log, w.tap.sink = some log ∧ ∀ bs : List Action, bs.map Action.event = log →
      ∃ u, Run step Any start bs u ∧ Agrees w.held u := by
  obtain ⟨w, hrun, -⟩ := run_of_replay Modifiers.step
    (fun w a => Modifiers.Told w a ∧ Modifiers.Alone w a) (Modifiers.started Modifiers.idle)
    [Modifiers.stroke Modifiers.leftControl true 0x40000,
      Modifiers.stroke Modifiers.leftShift true 0x60000] (fun w => w.held)
    (b := {Modifiers.leftControl, Modifiers.leftShift})
    (by decide +kernel)
  have htold : Run Modifiers.step Modifiers.Told _ _ w := hrun.mono fun _ _ => And.left
  exact ⟨w, htold, macs_agree htold (hrun.mono fun _ _ => And.right)⟩

/-! The buttons, which have a bit each. -/

theorem buttonMask_ne_zero (button : MouseButton) : buttonMask button ≠ 0 := by
  cases button <;> decide

theorem buttonMask_disjoint {b c : MouseButton} (h : b ≠ c) :
    buttonMask b &&& buttonMask c = 0 := by
  cases b <;> cases c <;> first | rfl | exact absurd rfl h

/-- The bit of a button is set exactly while it is held, and no other bit is. -/
structure Pressed (w : World) : Prop where
  bits : ∀ b, Has w.injector.heldButtons (buttonMask b) ↔ b ∈ w.buttons
  others : ¬ Has w.injector.heldButtons (~~~31)

theorem pressed_start : Pressed start := ⟨fun b => by cases b <;> decide, by decide⟩

theorem Pressed.step {w v : World} {a : Action} (h : Pressed w)
    (hs : Injection.step w a = some v) : Pressed v := by
  obtain rfl := Option.some.inj hs
  cases hstroke : buttonStroke a.event with
  | none => exact ⟨by simpa [heldButtons_inject, hstroke] using h.bits,
      by simpa [heldButtons_inject, hstroke] using h.others⟩
  | some p =>
    obtain ⟨c, down⟩ := p
    constructor
    · intro b
      simp only [heldButtons_inject, hstroke]
      by_cases hc : b = c
      · subst hc
        rw [has_put (buttonMask_ne_zero b)]
        cases down <;> simp
      · rw [has_put_of_disjoint (buttonMask_disjoint (Ne.symm hc))]
        cases down <;> simp [h.bits, hc]
    · simp only [heldButtons_inject, hstroke]
      rw [has_put_of_disjoint (by cases c <;> decide)]
      exact h.others

theorem Pressed.held {w : World} (h : Pressed w) :
    w.injector.heldButtons ≠ 0 ↔ w.buttons.Nonempty := by
  have hall : BitVec.allOnes 32 = buttonMask .left ||| buttonMask .right ||| buttonMask .middle |||
      buttonMask .x1 ||| buttonMask .x2 ||| ~~~31 := by decide
  rw [← has_allOnes, hall]
  simp only [has_mask_or, h.bits, h.others, or_false]
  constructor
  · rintro ((((h | h) | h) | h) | h) <;> exact ⟨_, h⟩
  · rintro ⟨b, hb⟩
    cases b <;> simp [hb]

end Injection
end InputShare

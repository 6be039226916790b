import InputShare.Input.Inject

/-! Capture and injection on Windows: the low-level hooks, the raw reports that motion is read from,
and the records given to `SendInput`. -/
namespace InputShare
open Bits

namespace Windows

def injectedMarker : ℕ := 0x14E5055

inductive MouseMessage where
  | mouseMove | lButtonDown | lButtonUp | rButtonDown | rButtonUp | mButtonDown | mButtonUp
  | xButtonDown | xButtonUp | mouseWheel | mouseHWheel | other
deriving DecidableEq, Repr

def MouseMessage.hasData : MouseMessage → Bool
  | .xButtonDown | .xButtonUp | .mouseWheel | .mouseHWheel => true
  | _ => false

inductive KeyMessage where
  | keyDown | keyUp | sysKeyDown | sysKeyUp | other
deriving DecidableEq, Repr

namespace KeyMessage

def down (m : KeyMessage) : Bool := m ≠ .keyUp ∧ m ≠ .sysKeyUp

end KeyMessage

structure MouseData where
  mouseData : BitVec 32
  extraInfo : ℕ
deriving DecidableEq, Repr

structure KeyData where
  vkCode : BitVec 32
  scanCode : BitVec 32
  flags : BitVec 32
  extraInfo : ℕ
deriving DecidableEq, Repr

structure RawMouse where
  flags : BitVec 16
  lastX : Int
  lastY : Int
  extraInformation : ℕ
deriving DecidableEq, Repr

/-- What the system shows the capture thread; a raw report may be of another device, or not be
read. -/
inductive Shown where
  | mouse (code : Int) (message : MouseMessage) (data : MouseData)
  | key (code : Int) (message : KeyMessage) (data : KeyData)
  | raw (mouse : Option RawMouse)
deriving DecidableEq, Repr

def vkF12 : BitVec 16 := 0x7B
def xButton1 : BitVec 16 := 1
def mouseMoveAbsolute : BitVec 16 := 1

namespace Shown

def extraInfo : Shown → Option ℕ
  | .mouse _ _ data => some data.extraInfo
  | .key _ _ data => some data.extraInfo
  | .raw m => m.map RawMouse.extraInformation

/-- What is put on the wire for an event. Motion does not come from the hook, which tells where the
pointer is and not what the mouse did. -/
def reported : Shown → Option InputEvent
  | .mouse _ message data =>
    match message with
    | .mouseMove | .other => none
    | .lButtonDown => some (.mouseButton .left true)
    | .lButtonUp => some (.mouseButton .left false)
    | .rButtonDown => some (.mouseButton .right true)
    | .rButtonUp => some (.mouseButton .right false)
    | .mButtonDown => some (.mouseButton .middle true)
    | .mButtonUp => some (.mouseButton .middle false)
    | .xButtonDown | .xButtonUp =>
      let which : MouseButton :=
        if (data.mouseData >>> 16).setWidth 16 = xButton1 then .x1 else .x2
      some (.mouseButton which (message = .xButtonDown))
    | .mouseWheel | .mouseHWheel =>
      some (.wheel ((data.mouseData >>> 16).setWidth 16).toInt (message = .mouseHWheel))
  | .key _ message data =>
    if message = .other then none
    else some (.key (data.vkCode.setWidth 16).toNat (data.scanCode.setWidth 16).toNat message.down
      (data.flags &&& 1 ≠ 0))
  | .raw m => m.bind fun m =>
    if m.flags &&& mouseMoveAbsolute = 0 ∧ (m.lastX ≠ 0 ∨ m.lastY ≠ 0) then
      some (.mouseMove m.lastX m.lastY)
    else none

end Shown

/-- What is shown, with the time and whether Control and Alt are held. -/
structure Scene where
  shown : Shown
  now : ℕ
  control : Bool
  menu : Bool
deriving DecidableEq, Repr

namespace Scene

def hatch (x : Scene) : Bool :=
  match x.shown with
  | .key _ message data =>
    message ≠ .other && message.down && data.vkCode.setWidth 16 = vkF12 && x.control && x.menu
  | .mouse .. | .raw _ => false

/-- Nothing is to be done about it: a negative code is passed on unread. -/
def passedOn (x : Scene) : Bool :=
  match x.shown with
  | .mouse code .. => code < 0
  | .key code message _ => code < 0 || message = .other
  | .raw _ => false

def hooked (x : Scene) : Bool :=
  match x.shown with
  | .raw _ => false
  | .mouse .. | .key .. => true

end Scene

/-- The hooks, with the capture they are part of and where what they report goes. -/
structure Hooks where
  capture : Capture
  sink : Option (List InputEvent)

namespace Hooks

def emit (h : Hooks) (event : InputEvent) : Hooks := { h with sink := h.sink.map (· ++ [event]) }

def report (h : Hooks) : Option InputEvent → Hooks
  | some event => h.emit event
  | none => h

/-- Reports an event, and swallows it if that is what the hooks do now. -/
def finish (now : ℕ) (event : Option InputEvent) (h : Hooks) : Hooks × Bool :=
  let h := h.report event
  let (capture, swallowed) := h.capture.suppressingNow .windows now
  ({ h with capture }, !swallowed)

def mouseHook (now : ℕ) (code : Int) (message : MouseMessage) (data : MouseData) (h : Hooks) :
    Hooks × Bool :=
  if code < 0 then (h, true)
  else if data.extraInfo = injectedMarker then (h, true)
  else h.finish now (Shown.mouse code message data).reported

def keyboardHook (x : Scene) (code : Int) (message : KeyMessage) (data : KeyData) (h : Hooks) :
    Hooks × Bool :=
  if code < 0 then (h, true)
  else if data.extraInfo = injectedMarker then (h, true)
  else if message = .other then (h, true)
  else if x.hatch then ({ h with capture := h.capture.emergencyRelease .windows }, true)
  else h.finish x.now (Shown.key code message data).reported

def rawInputProc (mouse : Option RawMouse) (h : Hooks) : Hooks :=
  match mouse with
  | none => h
  | some m =>
    if m.extraInformation ≠ injectedMarker then h.report (Shown.raw mouse).reported else h

def callback (x : Scene) (h : Hooks) : Hooks × Bool :=
  match x.shown with
  | .mouse code message data => h.mouseHook x.now code message data
  | .key code message data => h.keyboardHook x code message data
  | .raw mouse => (h.rawInputProc mouse, true)

end Hooks

/-! Injection. -/

def mouseeventfMove : BitVec 32 := 0x0001
def mouseeventfLeftDown : BitVec 32 := 0x0002
def mouseeventfLeftUp : BitVec 32 := 0x0004
def mouseeventfRightDown : BitVec 32 := 0x0008
def mouseeventfRightUp : BitVec 32 := 0x0010
def mouseeventfMiddleDown : BitVec 32 := 0x0020
def mouseeventfMiddleUp : BitVec 32 := 0x0040
def mouseeventfXDown : BitVec 32 := 0x0080
def mouseeventfXUp : BitVec 32 := 0x0100
def mouseeventfWheel : BitVec 32 := 0x0800
def mouseeventfHWheel : BitVec 32 := 0x1000
def keyeventfExtendedKey : BitVec 32 := 0x0001
def keyeventfKeyUp : BitVec 32 := 0x0002
def keyeventfScanCode : BitVec 32 := 0x0008

/-- A record for `SendInput`. -/
inductive Input where
  | mouse (dx dy : Int) (mouseData flags : BitVec 32) (extraInfo : ℕ)
  | keyboard (vk scan : ℕ) (flags : BitVec 32) (extraInfo : ℕ)
deriving DecidableEq, Repr

def Input.extraInfo : Input → ℕ
  | .mouse _ _ _ _ extraInfo => extraInfo
  | .keyboard _ _ _ extraInfo => extraInfo

def mouseInput (dx dy data : Int) (flags : BitVec 32) : Input :=
  .mouse dx dy (.ofInt 32 data) flags injectedMarker

def buttonFlags : MouseButton → Bool → BitVec 32 × Int
  | .left, true => (mouseeventfLeftDown, 0)
  | .left, false => (mouseeventfLeftUp, 0)
  | .right, true => (mouseeventfRightDown, 0)
  | .right, false => (mouseeventfRightUp, 0)
  | .middle, true => (mouseeventfMiddleDown, 0)
  | .middle, false => (mouseeventfMiddleUp, 0)
  | .x1, true => (mouseeventfXDown, 1)
  | .x1, false => (mouseeventfXUp, 1)
  | .x2, true => (mouseeventfXDown, 2)
  | .x2, false => (mouseeventfXUp, 2)

def keyFlags (down extended : Bool) : BitVec 32 :=
  let flags := keyeventfScanCode
  let flags := if down then flags else flags ||| keyeventfKeyUp
  if extended then flags ||| keyeventfExtendedKey else flags

/-- The record for an event; placing the cursor needs none. -/
def record : InputEvent → Option Input
  | .cursorEnter .. => none
  | .mouseMove dx dy => some (mouseInput dx dy 0 mouseeventfMove)
  | .mouseButton button down =>
    some (mouseInput 0 0 (buttonFlags button down).2 (buttonFlags button down).1)
  | .wheel delta horizontal =>
    some (mouseInput 0 0 delta (if horizontal then mouseeventfHWheel else mouseeventfWheel))
  | .key vk scan down extended =>
    some (.keyboard vk scan (keyFlags down extended) injectedMarker)

/-- What the system answers during a call. -/
structure System where
  sent : Bool
  moved : Bool
deriving DecidableEq, Repr

def inject (s : System) (e : InputEvent) : Except InjectError (List Input) :=
  match record e with
  | none => if s.moved then .ok [] else .error (.os "SetCursorPos failed")
  | some input => if s.sent then .ok [input] else .error (.os "SendInput was blocked")

/-- The buttons and wheels that a record can be about, and what the hooks are told of them. -/
def messages : List (BitVec 32 × MouseMessage) :=
  [(mouseeventfLeftDown, .lButtonDown), (mouseeventfLeftUp, .lButtonUp),
    (mouseeventfRightDown, .rButtonDown), (mouseeventfRightUp, .rButtonUp),
    (mouseeventfMiddleDown, .mButtonDown), (mouseeventfMiddleUp, .mButtonUp),
    (mouseeventfXDown, .xButtonDown), (mouseeventfXUp, .xButtonUp),
    (mouseeventfWheel, .mouseWheel), (mouseeventfHWheel, .mouseHWheel)]

/-- The event that the system makes of a record carries the extra information of the record. -/
def Stamped (shown : Input → List Shown) : Prop :=
  ∀ i, ∀ x ∈ shown i, x.extraInfo = some i.extraInfo

def Shown.Still : Shown → Prop
  | .raw report => ∀ m ∈ report, m.lastX = 0 ∧ m.lastY = 0
  | .mouse .. | .key .. => False

/-- What is documented of the events that the system makes of a record: the hooks are told of it
once. Of the mouse data the high word is that of the record where the message has one, and the
mouse may report the record too; a key is the one that has the scan code, and of its flags the
lowest says whether it is an extended one (others say that it was injected or released). A key that
stands for two in the layout, as AltGr may, is not among these. -/
structure Documented (i : Input) (shown : List Shown) : Prop where
  mouse : ∀ data flags extra message, i = .mouse 0 0 data flags extra →
    (flags, message) ∈ messages → ∃ before after, ∃ word : BitVec 32,
      shown = before ++ .mouse 0 message ⟨word, extra⟩ :: after ∧
      (∀ x ∈ before ++ after, x.Still) ∧
      (message.hasData = true → (word >>> 16).setWidth 16 = data.setWidth 16)
  key : ∀ vk scan flags extra, i = .keyboard vk scan flags extra → Has flags keyeventfScanCode →
    ∃ message vkCode, ∃ word : BitVec 32,
      shown = [.key 0 message ⟨vkCode, .ofNat 32 scan, word, extra⟩] ∧
      message ≠ .other ∧ message.down = !decide (Has flags keyeventfKeyUp) ∧
      (word &&& 1 ≠ 0 ↔ Has flags keyeventfExtendedKey)

/-- All that is shown for an event is as documented. -/
def Follows (shown : Input → List Shown) (e : InputEvent) : Prop :=
  ∀ i, record e = some i → Documented i (shown i)

end Windows
end InputShare

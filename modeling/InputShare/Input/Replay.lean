import InputShare.Input.Windows
import InputShare.Lib.Echo

/-! Input captured on one machine and injected on another: what acts there is what was done here,
and none of it is captured again. -/
namespace InputShare
open Bits

namespace InputEvent

/-- The same event but for the virtual key, which depends on the layout of the keyboard. -/
def physical : InputEvent → InputEvent
  | .key _ scan down extended => .key 0 scan down extended
  | e => e

end InputEvent

/-! What is injected on Windows, as the hooks would read it. -/

namespace Windows
variable {shown : Input → List Shown}

/-- What a hook would report of what the system makes of the event, taken for genuine. -/
def replayed (shown : Input → List Shown) (s : System) (e : InputEvent) : List InputEvent :=
  match inject s e with
  | .ok records => (records.flatMap shown).filterMap Shown.reported
  | .error _ => []

def buttonMessage : MouseButton → Bool → MouseMessage
  | .left, true => .lButtonDown
  | .left, false => .lButtonUp
  | .right, true => .rButtonDown
  | .right, false => .rButtonUp
  | .middle, true => .mButtonDown
  | .middle, false => .mButtonUp
  | .x1, true | .x2, true => .xButtonDown
  | .x1, false | .x2, false => .xButtonUp

theorem button_mem_messages (button : MouseButton) (down : Bool) :
    ((buttonFlags button down).1, buttonMessage button down) ∈ messages := by
  cases button <;> cases down <;> decide

theorem reported_button {button : MouseButton} {down : Bool} {word : BitVec 32} (code : Int)
    (extra : ℕ) (hword : (buttonMessage button down).hasData = true →
      (word >>> 16).setWidth 16 = (BitVec.ofInt 32 (buttonFlags button down).2).setWidth 16) :
    (Shown.mouse code (buttonMessage button down) ⟨word, extra⟩).reported =
      some (.mouseButton button down) := by
  cases button with
  | left | right | middle => cases down <;> rfl
  | x1 | x2 =>
    cases down <;>
      simp [Shown.reported, buttonMessage, hword rfl, buttonFlags, xButton1]

theorem reported_still {x : Shown} (h : x.Still) : x.reported = none := by
  cases x with
  | mouse | key => exact h.elim
  | raw mouse =>
    cases mouse with
    | none => rfl
    | some m =>
      obtain ⟨hx, hy⟩ := h m rfl
      simp [Shown.reported, hx, hy]

theorem filterMap_mouse {data flags : BitVec 32} {extra : ℕ} {message : MouseMessage}
    (h : Documented (.mouse 0 0 data flags extra) (shown (.mouse 0 0 data flags extra)))
    (hmem : (flags, message) ∈ messages) :
    ∃ word : BitVec 32, (message.hasData = true → (word >>> 16).setWidth 16 = data.setWidth 16) ∧
      (shown (.mouse 0 0 data flags extra)).filterMap Shown.reported =
        (Shown.mouse 0 message ⟨word, extra⟩).reported.toList := by
  obtain ⟨before, after, word, hshown, hstill, hword⟩ := h.mouse data flags extra message rfl hmem
  have hnone : ∀ l : List Shown, (∀ x ∈ l, x ∈ before ++ after) →
      l.filterMap Shown.reported = [] := by
    intro l hl
    rw [List.filterMap_eq_nil_iff]
    exact fun x hx => reported_still (hstill x (hl x hx))
  refine ⟨word, hword, ?_⟩
  rw [hshown, List.filterMap_append, hnone before fun x hx => List.mem_append_left _ hx,
    List.filterMap_cons, List.nil_append]
  cases (Shown.mouse 0 message ⟨word, extra⟩).reported with
  | none => exact hnone after fun x hx => List.mem_append_right _ hx
  | some e => exact congrArg (e :: ·) (hnone after fun x hx => List.mem_append_right _ hx)

theorem replayed_button {button : MouseButton} {down : Bool}
    (h : Follows shown (.mouseButton button down)) {s : System} (hs : s.sent = true) :
    replayed shown s (.mouseButton button down) = [.mouseButton button down] := by
  simp only [replayed, inject, record, hs, if_true, List.flatMap_singleton, mouseInput]
  obtain ⟨word, hword, hreported⟩ := filterMap_mouse (h _ rfl) (button_mem_messages button down)
  rw [hreported, reported_button 0 injectedMarker hword]
  rfl

theorem toInt_wheel (delta : Int) :
    ((BitVec.ofInt 32 delta).setWidth 16).toInt = delta ↔
      -32768 ≤ delta ∧ delta < 32768 := by
  have hlow : ((BitVec.ofInt 32 delta).setWidth 16).toInt =
      if delta % 65536 < 32768 then delta % 65536 else delta % 65536 - 65536 := by
    rw [BitVec.toInt_setWidth, BitVec.toNat_ofInt, Int.bmod_def]
    simp only [Nat.reducePow, Nat.cast_ofNat]
    rw [Int.toNat_of_nonneg (by omega), Int.emod_emod_of_dvd delta (by decide)]
    rfl
  rw [hlow]
  split <;> omega

theorem replayed_wheel {delta : Int} {horizontal : Bool}
    (h : Follows shown (.wheel delta horizontal)) {s : System} (hs : s.sent = true) :
    (replayed shown s (.wheel delta horizontal)).map InputEvent.physical =
      [.wheel delta horizontal] ↔ -32768 ≤ delta ∧ delta < 32768 := by
  have hmem : (if horizontal then mouseeventfHWheel else mouseeventfWheel,
      if horizontal then MouseMessage.mouseHWheel else .mouseWheel) ∈ messages := by
    cases horizontal <;> decide
  have hreported : ∀ data : MouseData, (Shown.mouse 0
      (if horizontal then .mouseHWheel else .mouseWheel) data).reported =
        some (.wheel ((data.mouseData >>> 16).setWidth 16).toInt horizontal) := by
    intro data
    cases horizontal <;> rfl
  have hdata : (if horizontal then MouseMessage.mouseHWheel else .mouseWheel).hasData = true := by
    cases horizontal <;> rfl
  obtain ⟨word, hword, hshown⟩ := filterMap_mouse (h _ rfl) hmem
  rw [← toInt_wheel, ← hword hdata]
  simp only [replayed, inject, record, hs, if_true, List.flatMap_singleton, mouseInput]
  rw [hshown, hreported]
  constructor
  · intro heq
    obtain ⟨hdelta, -⟩ := InputEvent.wheel.inj (List.head_eq_of_cons_eq heq)
    exact hdelta
  · intro hdelta
    exact congrArg (fun n => [InputEvent.wheel n horizontal]) hdelta

theorem replayed_key {vk scan : ℕ} {down extended : Bool}
    (h : Follows shown (.key vk scan down extended)) {s : System} (hs : s.sent = true)
    (hscan : scan < 65536) :
    (replayed shown s (.key vk scan down extended)).map InputEvent.physical =
      [.key 0 scan down extended] := by
  have hflags : Has (keyFlags down extended) keyeventfScanCode ∧
      (Has (keyFlags down extended) keyeventfExtendedKey ↔ extended = true) ∧
      (Has (keyFlags down extended) keyeventfKeyUp ↔ down = false) := by
    cases down <;> cases extended <;> decide
  obtain ⟨hcode, hext, hup⟩ := hflags
  obtain ⟨message, vkCode, word, hshown, hother, hdown, hword⟩ :=
    (h _ rfl).key vk scan (keyFlags down extended) injectedMarker rfl hcode
  have hcut : ((BitVec.ofNat 32 scan).setWidth 16).toNat = scan := by
    rw [BitVec.toNat_setWidth, BitVec.toNat_ofNat]
    omega
  have hreported : (Shown.key 0 message ⟨vkCode, .ofNat 32 scan, word, injectedMarker⟩).reported =
      some (.key (vkCode.setWidth 16).toNat scan down extended) := by
    simp only [Shown.reported, if_neg hother, hcut, hdown, hword, hext, hup]
    cases down <;> cases extended <;> simp
  simp only [replayed, inject, record, hs, if_true, List.flatMap_singleton]
  rw [hshown, List.filterMap_cons, hreported]
  rfl

end Windows

namespace MacKeys

theorem toPc_of_mem {row : ℕ × ℕ × ℕ × Bool} (h : row ∈ keys) :
    toPc row.1 = some (row.2.1, row.2.2.1, row.2.2.2) ∧ row.1 < 65536 ∧ row.2.1 ≠ 0 ∧
      row.2.1 < 65536 := by
  have hall : ∀ row ∈ keys, toPc row.1 = some (row.2.1, row.2.2.1, row.2.2.2) ∧ row.1 < 65536 ∧
      row.2.1 ≠ 0 ∧ row.2.1 < 65536 := by decide +kernel
  exact hall row h

theorem mem_of_toPc {mac scan vk : ℕ} {extended : Bool}
    (h : toPc mac = some (scan, vk, extended)) : (mac, scan, vk, extended) ∈ keys := by
  obtain ⟨⟨m, s, v, e⟩, hfind, hrow⟩ := Option.map_eq_some_iff.mp h
  obtain ⟨rfl, rfl, rfl⟩ : s = scan ∧ v = vk ∧ e = extended := by simpa using hrow
  obtain rfl : m = mac := by simpa using List.find?_some hfind
  exact List.mem_of_find?_eq_some hfind

theorem toPc_of_fromPc {scan vk mac : ℕ} {extended : Bool}
    (h : fromPc scan vk extended = some mac) :
    mac < 65536 ∧ ∃ place, toPc mac = some place := by
  obtain ⟨row, hrow, rfl⟩ : ∃ row ∈ keys, row.1 = mac := by
    simp only [fromPc] at h
    split at h
    · rename_i heq
      obtain rfl := Option.some.inj h
      split_ifs at heq
      exact ⟨_, List.mem_of_find?_eq_some heq, rfl⟩
    · obtain ⟨row, hrow, rfl⟩ := Option.map_eq_some_iff.mp h
      exact ⟨row, List.mem_of_find?_eq_some hrow, rfl⟩
  obtain ⟨hpc, hlt, -⟩ := toPc_of_mem hrow
  exact ⟨hlt, _, hpc⟩

def AtPlace (mac scan : ℕ) (extended : Bool) : Prop := ∃ vk, toPc mac = some (scan, vk, extended)

def Placed (scan : ℕ) (extended : Bool) : Prop :=
  ∃ row ∈ keys, row.2.1 = scan ∧ row.2.2.2 = extended

/-- The key chosen is the one at the place wherever there is one. -/
theorem fromPc_place (vk : ℕ) {scan : ℕ} {extended : Bool} :
    (∃ mac, fromPc scan vk extended = some mac ∧ AtPlace mac scan extended) ↔
      Placed scan extended := by
  constructor
  · rintro ⟨mac, -, v, h⟩
    exact ⟨_, mem_of_toPc h, rfl, rfl⟩
  · rintro ⟨row, hrow, hscan, hext⟩
    obtain ⟨-, -, hne, -⟩ := toPc_of_mem hrow
    rw [hscan] at hne
    generalize hmac : fromPc scan vk extended = mac
    simp only [fromPc, if_pos hne] at hmac
    split at hmac
    · rename_i code s v e hfound
      obtain ⟨rfl, rfl⟩ : s = scan ∧ e = extended := by simpa using List.find?_some hfound
      obtain ⟨hpc, -⟩ := toPc_of_mem (List.mem_of_find?_eq_some hfound)
      exact ⟨code, hmac.symm, v, hpc⟩
    · rename_i hnone
      have hno := List.find?_eq_none.mp hnone row hrow
      simp [hscan, hext] at hno

end MacKeys

/-! What is injected on a Mac, as the tap would read it. -/

namespace Injector
open MacKeys

/-- What a tap would report of what is posted for the event, taken for genuine. -/
def replayed (s : MacSystem) (i : Injector) (e : InputEvent) : List InputEvent :=
  match (i.inject s e).2 with
  | .ok posted => posted.filterMap CGEvent.reported
  | .error _ => []

variable {s : MacSystem}

theorem replayed_button (hs : s.created = true) (i : Injector) (button : MouseButton)
    (down : Bool) : replayed s i (.mouseButton button down) = [.mouseButton button down] := by
  cases button <;> cases down <;>
    simp [replayed, inject, injectButton, buttonEvent, newEvent, hs, post, Except.map,
      CGEvent.reported]

theorem lines_spec {delta : Int} (hdelta : -2147483648 ≤ delta ∧ delta < 2147483648)
    (hzero : delta ≠ 0) :
    let lines := if delta.tdiv wheelNotch = 0 then delta.sign else delta.tdiv wheelNotch
    lines ≠ 0 ∧ wrapI32 lines = lines ∧
      (wrapI32 (lines * wheelNotch) = delta ↔ wheelNotch ∣ delta) := by
  have hneg : delta.tdiv 120 = if 0 ≤ delta then delta / 120 else -(-delta / 120) := by
    split_ifs with h
    · exact Int.tdiv_eq_ediv_of_nonneg h
    · rw [← Int.tdiv_eq_ediv_of_nonneg (by omega), Int.neg_tdiv, neg_neg]
  have hsign : delta.sign = if 0 < delta then 1 else -1 := by
    split_ifs with h
    · exact Int.sign_eq_one_of_pos h
    · exact Int.sign_eq_neg_one_of_neg (by omega)
  simp only [wheelNotch, wrapI32, hneg, hsign]
  split_ifs <;> omega

theorem replayed_wheel (hs : s.created = true) (i : Injector) {delta : Int}
    (hdelta : -2147483648 ≤ delta ∧ delta < 2147483648) (horizontal : Bool) :
    (replayed s i (.wheel delta horizontal)).map InputEvent.physical =
      [.wheel delta horizontal] ↔ delta ≠ 0 ∧ wheelNotch ∣ delta := by
  by_cases hzero : delta = 0
  · simp [replayed, inject, injectWheel, hzero]
  obtain ⟨hne, hwrap, hback⟩ := lines_spec hdelta hzero
  generalize hlines :
    (if delta.tdiv wheelNotch = 0 then delta.sign else delta.tdiv wheelNotch) = lines
    at hne hwrap hback
  have hscroll : ∀ flags marker, CGEvent.reported
      { kind := .scrollWheel, flags, sourceUserData := marker
        deltaAxis1 := if horizontal then 0 else lines
        deltaAxis2 := if horizontal then lines else 0 } =
          some (.wheel (wrapI32 (lines * wheelNotch)) horizontal) := by
    have hnone : wrapI32 0 = 0 := rfl
    cases horizontal <;> simp [CGEvent.reported, hwrap, hne, hnone]
  have hposted : replayed s i (.wheel delta horizontal) =
      [.wheel (wrapI32 (lines * wheelNotch)) horizontal] := by
    simp only [replayed, inject, injectWheel, if_neg hzero, hlines, newEvent, hs, if_true,
      Except.map, post]
    rw [List.filterMap_cons, hscroll]
    rfl
  rw [hposted]
  change [InputEvent.wheel _ horizontal] = [_] ↔ _
  rw [List.singleton_inj, InputEvent.wheel.injEq, hback]
  simp [hzero]

theorem replayed_key (hs : s.created = true) (i : Injector) (vk scan : ℕ) (down extended : Bool) :
    (replayed s i (.key vk scan down extended)).map InputEvent.physical =
      [.key 0 scan down extended] ↔ Placed scan extended := by
  rw [← fromPc_place vk]
  cases hpc : fromPc scan vk extended with
  | none => simp [replayed, inject, injectKey, hpc]
  | some mac =>
    obtain ⟨hlt, ⟨scan', vk', extended'⟩, hplace⟩ := toPc_of_fromPc hpc
    have hcode : ∀ e : CGEvent, e.keycode = mac → e.code = mac := by
      intro e he
      rw [CGEvent.code, he]
      omega
    have hposted : replayed s i (.key vk scan down extended) =
        [.key vk' scan' down extended'] := by
      simp only [replayed, inject, injectKey, hpc, newEvent, hs, if_true, Except.map]
      cases down <;>
        simp [post, CGEvent.reported, hcode, hplace, CGEvent.down]
    rw [hposted]
    simp only [List.map_cons, List.map_nil, InputEvent.physical, List.singleton_inj,
      InputEvent.key.injEq, true_and, Option.some.injEq, exists_eq_left', AtPlace, hplace,
      Prod.mk.injEq]
    constructor
    · rintro ⟨rfl, rfl⟩
      exact ⟨vk', rfl, rfl, rfl⟩
    · rintro ⟨-, rfl, -, rfl⟩
      exact ⟨rfl, rfl⟩

end Injector
/-! From machine to machine. -/

namespace Replay
open MacKeys

/-- The capture of either system puts the event on the wire. -/
inductive Captured (e : InputEvent) : Prop where
  | windows (x : Windows.Shown) (h : x.reported = some e)
  | mac (x : CGEvent) (h : x.reported = some e)

theorem windows_wheel {x : Windows.Shown} {delta : Int} {horizontal : Bool}
    (h : x.reported = some (.wheel delta horizontal)) : -32768 ≤ delta ∧ delta < 32768 := by
  cases x with
  | mouse code message data =>
    have hrange : ∀ b : BitVec 16, -32768 ≤ b.toInt ∧ b.toInt < 32768 :=
      fun b => ⟨b.le_toInt, b.toInt_lt⟩
    cases message <;> simp only [Windows.Shown.reported, Option.some.injEq, reduceCtorEq,
      InputEvent.wheel.injEq] at h
    all_goals
      obtain ⟨rfl, -⟩ := h
      exact hrange _
  | key code message data =>
    simp only [Windows.Shown.reported] at h
    split at h <;> cases h
  | raw m =>
    obtain ⟨m, -, h⟩ := Option.bind_eq_some_iff.mp h
    split at h <;> cases h

theorem windows_key {x : Windows.Shown} {vk scan : ℕ} {down extended : Bool}
    (h : x.reported = some (.key vk scan down extended)) : scan < 65536 := by
  cases x with
  | mouse code message data =>
    cases message <;> simp [Windows.Shown.reported] at h
  | key code message data =>
    simp only [Windows.Shown.reported] at h
    split at h
    · cases h
    · obtain ⟨-, rfl, -⟩ := InputEvent.key.inj (Option.some.inj h)
      exact ((data.scanCode.setWidth 16)).isLt
  | raw m =>
    obtain ⟨m, -, h⟩ := Option.bind_eq_some_iff.mp h
    split at h <;> cases h

theorem wrapI32_range (n : Int) : -2147483648 ≤ wrapI32 n ∧ wrapI32 n < 2147483648 := by
  unfold wrapI32
  omega

theorem mac_wheel {x : CGEvent} {delta : Int} {horizontal : Bool}
    (h : x.reported = some (.wheel delta horizontal)) :
    -2147483648 ≤ delta ∧ delta < 2147483648 := by
  cases hkind : x.kind with
  | scrollWheel =>
    simp only [CGEvent.reported, hkind] at h
    split_ifs at h
    all_goals
      obtain ⟨rfl, -⟩ := InputEvent.wheel.inj (Option.some.inj h)
      exact wrapI32_range _
  | keyDown | keyUp | flagsChanged | mouseMoved | leftMouseDragged | rightMouseDragged
  | otherMouseDragged | leftMouseDown | leftMouseUp | rightMouseDown | rightMouseUp
  | otherMouseDown | otherMouseUp | tapDisabledByTimeout | tapDisabledByUserInput =>
    simp [CGEvent.reported, hkind] at h

theorem mac_key {x : CGEvent} {vk scan : ℕ} {down extended : Bool}
    (h : x.reported = some (.key vk scan down extended)) :
    scan < 65536 ∧ Placed scan extended := by
  cases hkind : x.kind with
  | keyDown | keyUp | flagsChanged =>
    simp only [CGEvent.reported, hkind] at h
    obtain ⟨⟨s, v, e⟩, hpc, hkey⟩ := Option.map_eq_some_iff.mp h
    obtain ⟨rfl, rfl, -, rfl⟩ := InputEvent.key.inj hkey
    have hmem := mem_of_toPc hpc
    exact ⟨(toPc_of_mem hmem).2.2.2, _, hmem, rfl, rfl⟩
  | scrollWheel =>
    simp only [CGEvent.reported, hkind] at h
    split_ifs at h <;> cases h
  | mouseMoved | leftMouseDragged | rightMouseDragged
  | otherMouseDragged | leftMouseDown | leftMouseUp | rightMouseDown | rightMouseUp
  | otherMouseDown | otherMouseUp | tapDisabledByTimeout | tapDisabledByUserInput =>
    simp [CGEvent.reported, hkind] at h

theorem Captured.wheel {delta : Int} {horizontal : Bool} (h : Captured (.wheel delta horizontal)) :
    -2147483648 ≤ delta ∧ delta < 2147483648 := by
  cases h with
  | windows x hx =>
    have := windows_wheel hx
    omega
  | mac x hx => exact mac_wheel hx

theorem Captured.key {vk scan : ℕ} {down extended : Bool}
    (h : Captured (.key vk scan down extended)) : scan < 65536 := by
  cases h with
  | windows x hx => exact windows_key hx
  | mac x hx => exact (mac_key hx).1

/-- What Windows can act on as it is: a distance scrolled that fits into the high word. -/
def FitsWindows : InputEvent → Prop
  | .wheel delta _ => -32768 ≤ delta ∧ delta < 32768
  | _ => True

/-- What a Mac can act on as it is: whole notches, and the keys it has. -/
def FitsMac : InputEvent → Prop
  | .wheel delta _ => delta ≠ 0 ∧ wheelNotch ∣ delta
  | .key _ scan _ extended => Placed scan extended
  | _ => True

/-- A press, a release or a turn of the wheel that one machine captures acts on another one as the
same physical action exactly if it fits there, whichever systems they run; and whatever Windows
captures fits Windows, and every key that a Mac captures fits a Mac. -/
theorem same_action {e : InputEvent} (hcap : Captured e) (he : e.discrete = true) :
    (∀ shown, Windows.Follows shown e → ∀ s : Windows.System, s.sent = true →
      ((Windows.replayed shown s e).map InputEvent.physical = [e.physical] ↔ FitsWindows e)) ∧
    (∀ (s : MacSystem) (i : Injector), s.created = true →
      ((Injector.replayed s i e).map InputEvent.physical = [e.physical] ↔ FitsMac e)) ∧
    (∀ x : Windows.Shown, x.reported = some e → FitsWindows e) ∧
    (∀ x : CGEvent, x.reported = some e → ∀ vk scan down extended,
      e = .key vk scan down extended → FitsMac e) := by
  cases e with
  | cursorEnter | mouseMove => cases he
  | mouseButton button down =>
    refine ⟨fun shown hd s hs => iff_of_true ?_ trivial, fun s i hs => iff_of_true ?_ trivial,
      fun _ _ => trivial, fun _ _ _ _ _ _ _ => trivial⟩
    · rw [Windows.replayed_button hd hs]
      rfl
    · rw [Injector.replayed_button hs]
      rfl
  | wheel delta horizontal =>
    exact ⟨fun shown hd s hs => Windows.replayed_wheel hd hs,
      fun s i hs => Injector.replayed_wheel hs i hcap.wheel horizontal,
      fun x hx => windows_wheel hx, fun _ _ _ _ _ _ h => by cases h⟩
  | key vk scan down extended =>
    exact ⟨fun shown hd s hs =>
        iff_of_true (Windows.replayed_key hd hs hcap.key) trivial,
      fun s i hs => Injector.replayed_key hs i vk scan down extended,
      fun _ _ => trivial, fun x hx _ _ _ _ _ => (mac_key hx).2⟩

/-- A system that shows what is documented, on a keyboard whose layout is the sender's: the mouse
reports every record too, and a key is said to be injected. -/
def byTheBook : Windows.Input → List Windows.Shown
  | .mouse dx dy data flags extra =>
    [.mouse 0 ((Windows.messages.lookup flags).getD .mouseMove) ⟨data <<< 16, extra⟩,
      .raw (some ⟨0, dx, dy, extra⟩)]
  | .keyboard vk scan flags extra =>
    let up := Has flags Windows.keyeventfKeyUp
    [.key 0 (if up then .keyUp else .keyDown) ⟨.ofNat 32 vk, .ofNat 32 scan,
      (if Has flags Windows.keyeventfExtendedKey then 0x11 else 0x10) ||| if up then 0x80 else 0,
      extra⟩]

theorem stamped_byTheBook : Windows.Stamped byTheBook := by
  intro i x hx
  cases i with
  | mouse dx dy data flags extra =>
    simp only [byTheBook, List.mem_cons, List.not_mem_nil, or_false] at hx
    obtain rfl | rfl := hx <;> rfl
  | keyboard vk scan flags extra =>
    obtain rfl := List.mem_singleton.mp hx
    rfl

theorem documented_byTheBook (i : Windows.Input) : Windows.Documented i (byTheBook i) where
  mouse data flags extra message hi hmem := by
    subst hi
    have hall : ∀ row ∈ Windows.messages, Windows.messages.lookup row.1 = some row.2 := by decide
    refine ⟨[], [.raw (some ⟨0, 0, 0, extra⟩)], data <<< 16, ?_, ?_, fun _ => ?_⟩
    · simp [byTheBook, hall _ hmem]
    · simp [Windows.Shown.Still]
    · ext i hi
      simp
      omega
  key vk scan flags extra hi _ := by
    subst hi
    refine ⟨_, _, _, rfl, ?_, ?_, ?_⟩
    · split_ifs <;> decide
    · by_cases hup : Has flags Windows.keyeventfKeyUp <;> simp [hup, Windows.KeyMessage.down]
    · by_cases hup : Has flags Windows.keyeventfKeyUp <;>
        by_cases hext : Has flags Windows.keyeventfExtendedKey <;> simp [hup, hext]

/-- Two lines scrolled on a Mac. -/
theorem same_action_scroll :
    (Windows.replayed byTheBook ⟨true, true⟩ (.wheel 240 false)).map InputEvent.physical =
      [.wheel 240 false] ∧
    (Injector.replayed Injection.plain .start (.wheel 240 false)).map InputEvent.physical =
      [.wheel 240 false] := by
  have hcap : Captured (.wheel 240 false) := .mac { kind := .scrollWheel, deltaAxis1 := 2 } rfl
  obtain ⟨hwindows, hmac, -⟩ := same_action hcap rfl
  have hfollows : Windows.Follows byTheBook (.wheel 240 false) := fun i _ => documented_byTheBook i
  exact ⟨(hwindows byTheBook hfollows ⟨true, true⟩ rfl).mpr ⟨by decide, by decide⟩,
    (hmac Injection.plain .start rfl).mpr ⟨by decide, 2, rfl⟩⟩

/-! No machine captures what it injects. -/

/-- What else than input from its own devices reaches a machine: an event to inject, with what the
system answers, and the calls of the sharing loop. -/
inductive Request (sys : Type) where
  | inject (s : sys) (e : InputEvent) (now : ℕ)
  | setSuppressing (now : ℕ) (suppress : Bool)
  | heartbeat (now : ℕ)

end Replay

namespace Windows
variable {shown : Input → List Shown}

abbrev Listening := { h : Hooks // h.sink.isSome = true }

namespace Hooks

theorem isSome_report (h : Hooks) (event : Option InputEvent) :
    (h.report event).sink.isSome = h.sink.isSome := by
  cases event <;> simp [report, emit]

theorem isSome_callback (x : Scene) (h : Hooks) :
    (h.callback x).1.sink.isSome = h.sink.isSome := by
  unfold callback
  split
  · unfold mouseHook
    split_ifs <;> first | rfl | exact h.isSome_report _
  · unfold keyboardHook
    split_ifs <;> first | rfl | exact h.isSome_report _
  · unfold rawInputProc
    split
    · rfl
    · split_ifs <;> first | rfl | exact h.isSome_report _

def log (h : Hooks) : List InputEvent := h.sink.getD []

theorem log_report {h : Hooks} (hs : h.sink.isSome = true) (event : Option InputEvent) :
    (h.report event).log = h.log ++ event.toList := by
  obtain ⟨l, hl⟩ := Option.isSome_iff_exists.mp hs
  cases event <;> simp [report, emit, log, hl]

end Hooks

namespace Scene

def Marked (x : Scene) : Prop := x.shown.extraInfo = some injectedMarker

/-- What is reported of an event from this machine's own devices. -/
def report (x : Scene) : Option InputEvent :=
  if x.passedOn || x.hatch then none else x.shown.reported

end Scene

theorem log_marked {x : Scene} (h : Hooks) (hx : x.Marked) : (h.callback x).1.log = h.log := by
  obtain ⟨s, now, control, menu⟩ := x
  cases s with
  | mouse code message data =>
    have hmark : data.extraInfo = injectedMarker := Option.some.inj hx
    simp only [Hooks.callback, Hooks.mouseHook, hmark, if_true]
    split_ifs <;> rfl
  | key code message data =>
    have hmark : data.extraInfo = injectedMarker := Option.some.inj hx
    simp only [Hooks.callback, Hooks.keyboardHook, hmark, if_true]
    split_ifs <;> rfl
  | raw m =>
    obtain ⟨m, rfl, hmark⟩ := Option.map_eq_some_iff.mp hx
    simp [Hooks.callback, Hooks.rawInputProc, hmark]

theorem log_finish {h : Hooks} (hs : h.sink.isSome = true) (now : ℕ)
    (event : Option InputEvent) : (h.finish now event).1.log = h.log ++ event.toList :=
  h.log_report hs event

theorem log_callback {x : Scene} {h : Hooks} (hs : h.sink.isSome = true) (hx : ¬ x.Marked) :
    (h.callback x).1.log = h.log ++ x.report.toList := by
  obtain ⟨s, now, control, menu⟩ := x
  cases s with
  | mouse code message data =>
    have hmark : data.extraInfo ≠ injectedMarker := fun hm => hx (congrArg some hm)
    by_cases hcode : code < 0
    · simp [Hooks.callback, Hooks.mouseHook, hcode, Scene.report, Scene.passedOn]
    · simp only [Hooks.callback, Hooks.mouseHook, if_neg hcode, if_neg hmark]
      simpa [Scene.report, Scene.passedOn, Scene.hatch, hcode] using log_finish hs now _
  | key code message data =>
    have hmark : data.extraInfo ≠ injectedMarker := fun hm => hx (congrArg some hm)
    by_cases hcode : code < 0
    · simp [Hooks.callback, Hooks.keyboardHook, hcode, Scene.report, Scene.passedOn]
    by_cases hother : message = .other
    · simp [Hooks.callback, Hooks.keyboardHook, hcode, hmark, hother, Scene.report,
        Scene.passedOn]
    simp only [Hooks.callback, Hooks.keyboardHook, if_neg hcode, if_neg hmark, if_neg hother]
    have hpass : (⟨.key code message data, now, control, menu⟩ : Scene).passedOn = false := by
      simp [Scene.passedOn, hcode, hother]
    simp only [Scene.report, hpass, Bool.false_or]
    split_ifs
    · exact (List.append_nil _).symm
    · exact log_finish hs now _
  | raw m =>
    cases m with
    | none => simp [Hooks.callback, Hooks.rawInputProc, Scene.report, Scene.passedOn, Scene.hatch,
        Shown.reported]
    | some m =>
      have hmark : m.extraInformation ≠ injectedMarker := fun hm => hx (congrArg some hm)
      simp only [Hooks.callback, Hooks.rawInputProc, ne_eq, hmark, not_false_eq_true, if_true]
      simpa [Scene.report, Scene.passedOn, Scene.hatch] using h.log_report hs _

theorem extraInfo_record {e : InputEvent} {input : Input} (h : record e = some input) :
    input.extraInfo = injectedMarker := by
  cases e with
  | cursorEnter => cases h
  | mouseMove | mouseButton | wheel | key =>
    obtain rfl := Option.some.inj h
    rfl

theorem extraInfo_inject {s : System} {e : InputEvent} {records : List Input}
    (h : inject s e = .ok records) : ∀ i ∈ records, i.extraInfo = injectedMarker := by
  unfold inject at h
  split at h
  · split at h <;> cases h
    simp
  · rename_i input hinput
    split at h <;> cases h
    intro i hi
    rw [List.mem_singleton.mp hi, extraInfo_record hinput]

def caused (shown : Input → List Shown) (s : System) (e : InputEvent) : List Shown :=
  match inject s e with
  | .ok records => records.flatMap shown
  | .error _ => []

theorem marked_caused (hd : Stamped shown) {s : System} {e : InputEvent} :
    ∀ x ∈ caused shown s e, x.extraInfo = some injectedMarker := by
  intro x hx
  unfold caused at hx
  split at hx
  · rename_i records hrecords
    obtain ⟨i, hi, hx⟩ := List.mem_flatMap.mp hx
    rw [hd i x hx, extraInfo_inject hrecords i hi]
  · cases hx

end Windows

namespace Replay
open Echo

/-- A machine that runs Windows; when an event it has caused is shown, Control and Alt may be
held or not. -/
def windows {shown : Windows.Input → List Windows.Shown} (hd : Windows.Stamped shown) :
    Machine Windows.Listening Windows.Scene (Request Windows.System × Bool × Bool) InputEvent where
  observe h x := ⟨(h.1.callback x).1, by rw [Windows.Hooks.isSome_callback]; exact h.2⟩
  act h a :=
    match a with
    | (.inject s e now, control, menu) =>
      (h, (Windows.caused shown s e).map fun x => ⟨x, now, control, menu⟩)
    | (.setSuppressing now suppress, _) =>
      (⟨{ h.1 with capture := h.1.capture.setSuppressing .windows now suppress }, h.2⟩, [])
    | (.heartbeat now, _) => (⟨{ h.1 with capture := h.1.capture.heartbeat now }, h.2⟩, [])
  log h := h.1.log
  report := Windows.Scene.report
  Marked := Windows.Scene.Marked
  log_observe h _ hx := Windows.log_callback h.2 hx
  log_marked h _ hx := Windows.log_marked h.1 hx
  log_act h a := by
    obtain ⟨r, control, menu⟩ := a
    cases r <;> rfl
  marked_act h a x hx := by
    obtain ⟨r, control, menu⟩ := a
    cases r with
    | inject s e now =>
      obtain ⟨y, hy, rfl⟩ := List.mem_map.mp hx
      exact Windows.marked_caused hd y hy
    | setSuppressing | heartbeat => cases hx

end Replay

namespace Tap

abbrev Listening := { t : Tap // t.sink.isSome = true }

theorem isSome_callback (now : ℕ) (e : CGEvent) (t : Tap) :
    (t.callback now e).1.sink.isSome = t.sink.isSome := by
  unfold callback
  split_ifs
  all_goals try rfl
  split <;> simp [emit]

def log (t : Tap) : List InputEvent := t.sink.getD []

/-- What is reported of an event from this machine's own devices. -/
def report (e : CGEvent) : Option InputEvent := if e.hatch then none else e.reported

theorem log_callback {now : ℕ} {e : CGEvent} {t : Tap} (ht : t.sink.isSome = true)
    (he : e.sourceUserData ≠ injectedMarker) :
    (t.callback now e).1.log = t.log ++ (report e).toList := by
  obtain ⟨l, hl⟩ := Option.isSome_iff_exists.mp ht
  by_cases hoff : e.kind = .tapDisabledByTimeout ∨ e.kind = .tapDisabledByUserInput
  · have hnone : report e = none := by
      obtain hkind | hkind := hoff <;> simp [report, CGEvent.hatch, CGEvent.reported, hkind]
    simp only [callback, if_pos hoff, hnone, Option.toList_none, List.append_nil]
    split_ifs <;> rfl
  · simp only [callback, if_neg hoff, if_neg he, report]
    split_ifs with hhatch
    · exact (List.append_nil _).symm
    · cases hr : e.reported <;> simp [log, emit, hl]

end Tap

namespace Replay
open Echo

def mac : Machine (Tap.Listening × Injector) (CGEvent × ℕ) (Request MacSystem) InputEvent where
  observe m x := (⟨(m.1.1.callback x.2 x.1).1, by rw [Tap.isSome_callback]; exact m.1.2⟩, m.2)
  act m a :=
    match a with
    | .inject s e now =>
      ((m.1, (m.2.inject s e).1),
        match (m.2.inject s e).2 with
        | .ok posted => posted.map fun x => (x, now)
        | .error _ => [])
    | .setSuppressing now suppress =>
      ((⟨{ m.1.1 with capture := m.1.1.capture.setSuppressing .macOs now suppress }, m.1.2⟩,
        if suppress then { m.2 with haveLast := false } else m.2), [])
    | .heartbeat now =>
      ((⟨{ m.1.1 with capture := m.1.1.capture.heartbeat now }, m.1.2⟩, m.2), [])
  log m := m.1.1.log
  report x := Tap.report x.1
  Marked x := x.1.sourceUserData = injectedMarker
  log_observe m _ hx := Tap.log_callback m.1.2 hx
  log_marked m x hx := congrArg (Option.getD · []) (m.1.1.callback_injected x.2 hx)
  log_act m a := by cases a <;> rfl
  marked_act m a x hx := by
    cases a with
    | inject s e now =>
      simp only at hx
      split at hx
      · rename_i posted hposted
        obtain ⟨y, hy, rfl⟩ := List.mem_map.mp hx
        exact (Injector.inject_posts (Prod.ext rfl hposted) y hy).1
      · cases hx
    | setSuppressing | heartbeat => cases hx

/-- Whatever a machine is asked to inject, by anybody, and whenever and however often that is shown
to its own capture: what it captures is what its own devices did, in order, each once. So two
machines never feed each other, whichever systems they run. -/
theorem no_feedback {shown : Windows.Input → List Windows.Shown} (hd : Windows.Stamped shown) :
    (∀ h as w, Runs.Run (windows hd).step (windows hd).Unmarked ⟨h, [], []⟩ as w →
      w.state.1.log = h.1.log ++ w.genuine.filterMap Windows.Scene.report) ∧
    ∀ m as w, Runs.Run mac.step mac.Unmarked ⟨m, [], []⟩ as w →
      w.state.1.1.log = m.1.1.log ++ w.genuine.filterMap fun x => Tap.report x.1 :=
  ⟨fun _ _ _ hrun => Machine.reports_genuine hrun, fun _ _ _ hrun => Machine.reports_genuine hrun⟩

instance {shown : Windows.Input → List Windows.Shown} (hd : Windows.Stamped shown)
    (w : World Windows.Listening Windows.Scene)
    (a : Action Windows.Scene (Request Windows.System × Bool × Bool)) :
    Decidable ((windows hd).Unmarked w a) :=
  match a with
  | .genuine e => decidable_of_iff (¬ e.shown.extraInfo = some Windows.injectedMarker)
      ⟨fun h x hx => by cases hx; exact h, fun h => h e rfl⟩
  | .act _ | .echo _ => .isTrue fun _ h => by cases h

def keyA : Windows.Scene := ⟨.key 0 .keyDown ⟨0x41, 0x1E, 0, 0⟩, 5, false, false⟩

/-- A click from elsewhere is injected after it and comes back, from the mouse and twice from the
hook. -/
theorem no_feedback_click :
    let start : Windows.Listening := ⟨⟨.start 0, some []⟩, rfl⟩
    let as : List (Action Windows.Scene (Request Windows.System × Bool × Bool)) :=
      [.genuine keyA, .act (.inject ⟨true, true⟩ (.mouseButton .left true) 6, false, false),
        .echo 1, .echo 0, .echo 0]
    ∃ w, Runs.Run (windows stamped_byTheBook).step (windows stamped_byTheBook).Unmarked
        ⟨start, [], []⟩ as w ∧
      w.state.1.log = [.key 0x41 0x1E true false] := by
  intro start as
  obtain ⟨w, hrun, hw⟩ := Runs.run_of_replay (windows stamped_byTheBook).step
    (windows stamped_byTheBook).Unmarked ⟨start, [], []⟩ as (fun w => w.genuine)
    (b := [keyA]) (by decide +kernel)
  refine ⟨w, hrun, ?_⟩
  rw [(no_feedback stamped_byTheBook).1 start as w hrun, hw]
  decide

end Replay
end InputShare

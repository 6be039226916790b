import InputShare.Input.Keys
import InputShare.Lib.Bits
import Mathlib.Data.Finset.Basic
import Mathlib.Data.Fintype.Basic

/-! Translating between a Mac's key codes and a PC's, and the keys of a Mac that are modifiers: two
of each group, which share one flag. -/
namespace InputShare

namespace MacKeys

/-- Mac key code, PC scan code, Windows virtual key, and whether the PC key is an extended one. -/
def keys : List (ℕ × ℕ × ℕ × Bool) :=
  [(0, 0x1E, 0x41, false), (11, 0x30, 0x42, false), (8, 0x2E, 0x43, false), (2, 0x20, 0x44, false),
    (14, 0x12, 0x45, false), (3, 0x21, 0x46, false), (5, 0x22, 0x47, false),
    (4, 0x23, 0x48, false), (34, 0x17, 0x49, false), (38, 0x24, 0x4A, false),
    (40, 0x25, 0x4B, false), (37, 0x26, 0x4C, false), (46, 0x32, 0x4D, false),
    (45, 0x31, 0x4E, false), (31, 0x18, 0x4F, false), (35, 0x19, 0x50, false),
    (12, 0x10, 0x51, false), (15, 0x13, 0x52, false), (1, 0x1F, 0x53, false),
    (17, 0x14, 0x54, false), (32, 0x16, 0x55, false), (9, 0x2F, 0x56, false),
    (13, 0x11, 0x57, false), (7, 0x2D, 0x58, false), (16, 0x15, 0x59, false),
    (6, 0x2C, 0x5A, false), (29, 0x0B, 0x30, false), (18, 0x02, 0x31, false),
    (19, 0x03, 0x32, false), (20, 0x04, 0x33, false), (21, 0x05, 0x34, false),
    (23, 0x06, 0x35, false), (22, 0x07, 0x36, false), (26, 0x08, 0x37, false),
    (28, 0x09, 0x38, false), (25, 0x0A, 0x39, false), (27, 0x0C, 0xBD, false),
    (24, 0x0D, 0xBB, false), (33, 0x1A, 0xDB, false), (30, 0x1B, 0xDD, false),
    (41, 0x27, 0xBA, false), (39, 0x28, 0xDE, false), (50, 0x29, 0xC0, false),
    (42, 0x2B, 0xDC, false), (43, 0x33, 0xBC, false), (47, 0x34, 0xBE, false),
    (44, 0x35, 0xBF, false), (36, 0x1C, 0x0D, false), (48, 0x0F, 0x09, false),
    (49, 0x39, 0x20, false), (51, 0x0E, 0x08, false), (53, 0x01, 0x1B, false),
    (114, 0x52, 0x2D, true), (115, 0x47, 0x24, true), (116, 0x49, 0x21, true),
    (117, 0x53, 0x2E, true), (119, 0x4F, 0x23, true), (121, 0x51, 0x22, true),
    (123, 0x4B, 0x25, true), (124, 0x4D, 0x27, true), (125, 0x50, 0x28, true),
    (126, 0x48, 0x26, true), (56, 0x2A, 0xA0, false), (60, 0x36, 0xA1, false),
    (59, 0x1D, 0xA2, false), (62, 0x1D, 0xA3, true), (58, 0x38, 0xA4, false),
    (61, 0x38, 0xA5, true), (55, 0x5B, 0x5B, true), (54, 0x5C, 0x5C, true),
    (57, 0x3A, 0x14, false), (122, 0x3B, 0x70, false), (120, 0x3C, 0x71, false),
    (99, 0x3D, 0x72, false), (118, 0x3E, 0x73, false), (96, 0x3F, 0x74, false),
    (97, 0x40, 0x75, false), (98, 0x41, 0x76, false), (100, 0x42, 0x77, false),
    (101, 0x43, 0x78, false), (109, 0x44, 0x79, false), (103, 0x57, 0x7A, false),
    (111, 0x58, 0x7B, false), (82, 0x52, 0x60, false), (83, 0x4F, 0x61, false),
    (84, 0x50, 0x62, false), (85, 0x51, 0x63, false), (86, 0x4B, 0x64, false),
    (87, 0x4C, 0x65, false), (88, 0x4D, 0x66, false), (89, 0x47, 0x67, false),
    (91, 0x48, 0x68, false), (92, 0x49, 0x69, false), (65, 0x53, 0x6E, false),
    (67, 0x37, 0x6A, false), (69, 0x4E, 0x6B, false), (78, 0x4A, 0x6D, false),
    (75, 0x35, 0x6F, true), (76, 0x1C, 0x0D, true), (71, 0x45, 0x90, false)]

def toPc (macCode : ℕ) : Option (ℕ × ℕ × Bool) :=
  (keys.find? fun (mac, _, _, _) => mac = macCode).map fun (_, scan, vk, extended) =>
    (scan, vk, extended)

/-- Which key to press here for a key another machine reported: by the scan code, and for a sender
that had none by the virtual key. -/
def fromPc (scan vk : ℕ) (extended : Bool) : Option ℕ :=
  let exact := if scan ≠ 0 then keys.find? fun (_, s, _, e) => s = scan ∧ e = extended else none
  match exact with
  | some (mac, _, _, _) => some mac
  | none => (keys.find? fun (_, _, v, _) => vk ≠ 0 ∧ v = vk).map fun (mac, _, _, _) => mac

theorem fromPc_of_mem {mac scan vk : ℕ} {extended : Bool}
    (h : (mac, scan, vk, extended) ∈ keys) : fromPc scan vk extended = some mac := by
  have hall : ∀ row ∈ keys, fromPc row.2.1 row.2.2.1 row.2.2.2 = some row.1 := by decide +kernel
  exact hall _ h

theorem fromPc_toPc {mac scan vk : ℕ} {extended : Bool}
    (h : toPc mac = some (scan, vk, extended)) : fromPc scan vk extended = some mac := by
  obtain ⟨⟨m, s, v, e⟩, hfind, hrow⟩ := Option.map_eq_some_iff.mp h
  obtain ⟨rfl, rfl, rfl⟩ : s = scan ∧ v = vk ∧ e = extended := by simpa using hrow
  obtain rfl : m = mac := by simpa using List.find?_some hfind
  exact fromPc_of_mem (List.mem_of_find?_eq_some hfind)

end MacKeys

inductive Modifier where
  | shift | control | option | command
deriving DecidableEq, Repr

/-- A modifier key: the left or the right one of its group. -/
structure ModifierKey where
  group : Modifier
  right : Bool
deriving DecidableEq, Repr

namespace MacKeys

def flagMaskShift : BitVec 64 := 0x00020000
def flagMaskControl : BitVec 64 := 0x00040000
def flagMaskAlternate : BitVec 64 := 0x00080000
def flagMaskCommand : BitVec 64 := 0x00100000

end MacKeys

open MacKeys Bits

namespace Modifier

instance : Fintype Modifier :=
  ⟨{.shift, .control, .option, .command}, fun g => by cases g <;> decide⟩

def mask : Modifier → BitVec 64
  | .shift => flagMaskShift
  | .control => flagMaskControl
  | .option => flagMaskAlternate
  | .command => flagMaskCommand

theorem mask_ne_zero (g : Modifier) : g.mask ≠ 0 := by cases g <;> decide

theorem mask_disjoint {g f : Modifier} (h : g ≠ f) : g.mask &&& f.mask = 0 := by
  cases g <;> cases f <;> first | rfl | exact absurd rfl h

def HeldIn (held : Finset ModifierKey) (g : Modifier) : Prop := ∃ right, ⟨g, right⟩ ∈ held

instance (held : Finset ModifierKey) (g : Modifier) : Decidable (HeldIn held g) :=
  inferInstanceAs (Decidable (∃ right : Bool, (⟨g, right⟩ : ModifierKey) ∈ held))

end Modifier

namespace ModifierKey
open Modifier

def partner (k : ModifierKey) : ModifierKey := ⟨k.group, !k.right⟩

def code : ModifierKey → ℕ
  | ⟨.shift, false⟩ => 56
  | ⟨.shift, true⟩ => 60
  | ⟨.control, false⟩ => 59
  | ⟨.control, true⟩ => 62
  | ⟨.option, false⟩ => 58
  | ⟨.option, true⟩ => 61
  | ⟨.command, false⟩ => 55
  | ⟨.command, true⟩ => 54

def ofCode : ℕ → Option ModifierKey
  | 56 => some ⟨.shift, false⟩
  | 60 => some ⟨.shift, true⟩
  | 59 => some ⟨.control, false⟩
  | 62 => some ⟨.control, true⟩
  | 58 => some ⟨.option, false⟩
  | 61 => some ⟨.option, true⟩
  | 55 => some ⟨.command, false⟩
  | 54 => some ⟨.command, true⟩
  | _ => none

theorem ofCode_code (k : ModifierKey) : ofCode k.code = some k := by
  obtain ⟨g, right⟩ := k
  cases g <;> cases right <;> rfl

theorem isSome_toPc (k : ModifierKey) : (toPc k.code).isSome = true := by
  obtain ⟨g, right⟩ := k
  cases g <;> cases right <;> rfl

def pc (k : ModifierKey) : ℕ × ℕ × Bool := (toPc k.code).get k.isSome_toPc

theorem toPc_code (k : ModifierKey) : toPc k.code = some k.pc := (Option.some_get _).symm

theorem fromPc_pc (k : ModifierKey) : fromPc k.pc.1 k.pc.2.1 k.pc.2.2 = some k.code :=
  fromPc_toPc k.toPc_code

def event (k : ModifierKey) (down : Bool) : InputEvent := .key k.pc.2.1 k.pc.1 down k.pc.2.2

def key (k : ModifierKey) : Key := .key k.pc.2.1 k.pc.1 k.pc.2.2

theorem stroke_event (k : ModifierKey) (down : Bool) : (k.event down).stroke = some (k.key, down) :=
  rfl

theorem code_injective : Function.Injective code := fun k j h => by
  have hk := ofCode_code k
  rw [h, ofCode_code] at hk
  exact (Option.some.inj hk).symm

theorem key_injective : Function.Injective key := fun k j h => by
  obtain ⟨hvk, hscan, hext⟩ := Key.key.inj h
  have hk := k.fromPc_pc
  rw [hvk, hscan, hext, fromPc_pc] at hk
  exact code_injective (Option.some.inj hk).symm

theorem event_down_inj {k : ModifierKey} {d e : Bool} (h : k.event d = k.event e) : d = e :=
  (InputEvent.key.inj h).2.2.1

variable {held : Finset ModifierKey} {g : Modifier}

def after (held : Finset ModifierKey) (k : ModifierKey) (down : Bool) : Finset ModifierKey :=
  if down then insert k held else held.erase k

theorem heldIn_after (k : ModifierKey) (down : Bool) :
    HeldIn (after held k down) k.group ↔ down = true ∨ k.partner ∈ held := by
  obtain ⟨f, right⟩ := k
  cases down <;> cases right <;> simp [after, HeldIn, partner]

theorem heldIn_after_of_ne {k : ModifierKey} (down : Bool) (h : g ≠ k.group) :
    HeldIn (after held k down) g ↔ HeldIn held g := by
  have hne : ∀ right, (⟨g, right⟩ : ModifierKey) ≠ k := fun right hk => h (congrArg group hk)
  cases down <;> simp [after, HeldIn, hne]

end ModifierKey
end InputShare

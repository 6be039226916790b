import InputShare.Core.Store

/-! The text of a workspace document as the pretty printer lays it out, for texts that need no
escapes and displays whose scale is a whole number. -/
namespace InputShare
open Files

abbrev Layout := String → String

namespace Layout

def plain (text : String) : Layout := fun _ => text

def quoted (text : String) : Layout := plain ("\"" ++ text ++ "\"")

def number (n : ℕ) : Layout := plain (toString n)

def boolean (b : Bool) : Layout := plain (if b then "true" else "false")

def block (left right : String) (items : List Layout) : Layout := fun indent =>
  if items.isEmpty then left ++ right
  else
    let inner := indent ++ "  "
    left ++ "\n" ++ ",\n".intercalate (items.map fun item => inner ++ item inner) ++ "\n" ++
      indent ++ right

def array (items : List Layout) : Layout := block "[" "]" items

def object (fields : List (String × Layout)) : Layout :=
  block "\x7b" "\x7d" (fields.map fun (name, value) => fun indent =>
    "\"" ++ name ++ "\": " ++ value indent)

end Layout

open Layout

def hexText (width n : ℕ) : List Char :=
  let digits := Nat.toDigits 16 n
  List.replicate (width - digits.length) '0' ++ digits

def uuidText (n : ℕ) : String :=
  let h := hexText 32 n
  String.ofList (h.take 8 ++ '-' :: (h.drop 8).take 4 ++ '-' :: (h.drop 12).take 4 ++
    '-' :: (h.drop 16).take 4 ++ '-' :: h.drop 20)

def Stamp.layout (s : Stamp) : Layout :=
  object [("lamport", number s.lamport), ("origin", quoted (uuidText s.origin)),
    ("wall_clock_ms", number s.wallClockMs)]

def Platform.layout : Platform → Layout
  | .windows => quoted "windows"
  | .macOs => quoted "mac_os"
  | .linux => quoted "linux"
  | .other => quoted "other"

/-- The bit patterns of `1.0` and `2.0`. -/
def scaleText (scale : ℕ) : String :=
  if scale = 0x3f800000 then "1.0" else if scale = 0x40000000 then "2.0" else "null"

def DisplayInfo.layout (d : DisplayInfo) : Layout :=
  object [("id", quoted d.id), ("name", quoted d.name), ("x", plain (toString d.x)),
    ("y", plain (toString d.y)), ("width", number d.width), ("height", number d.height),
    ("scale", plain (scaleText d.scale)), ("primary", boolean d.primary)]

def MachineRecord.layout (r : MachineRecord) : Layout :=
  object [("id", quoted (uuidText r.id)), ("display_name", quoted r.displayName),
    ("platform", r.platform.layout),
    ("public_key", quoted (String.ofList (hexText 64 r.publicKey))),
    ("position", object [("x", plain (toString r.position.x)),
      ("y", plain (toString r.position.y))]),
    ("displays", array (r.displays.map DisplayInfo.layout)),
    ("input", object [("provides_keyboard", boolean r.input.providesKeyboard),
      ("provides_mouse", boolean r.input.providesMouse)]),
    ("paired_at_ms", number r.pairedAtMs)]

def MachineSlot.layout (s : MachineSlot) : Layout :=
  let state := match s.state with
    | .present record => object [("present", record.layout)]
    | .removed => quoted "removed"
  object [("stamp", s.stamp.layout), ("state", state)]

def OfflineEdgeBehavior.layout : OfflineEdgeBehavior → Layout
  | .block => quoted "block"
  | .skipOver => quoted "skip_over"

def WorkspaceSettings.layout (s : WorkspaceSettings) : Layout :=
  object [("clipboard_sync", boolean s.clipboardSync), ("offline_edge", s.offlineEdge.layout),
    ("discovery_port", number s.discoveryPort), ("transport_port", number s.transportPort),
    ("preferred_interfaces", array (s.preferredInterfaces.map quoted)),
    ("autostart", boolean s.autostart)]

def WorkspaceDoc.layout (d : WorkspaceDoc) : Layout :=
  object [("workspace_id", quoted (uuidText d.workspaceId)),
    ("schema_version", number d.schemaVersion),
    ("name", object [("value", quoted d.name.value), ("stamp", d.name.stamp.layout)]),
    ("lamport", number d.lamport),
    ("machines", object (d.machines.toList.map fun (id, slot) => (uuidText id, slot.layout))),
    ("settings", object [("value", d.settings.value.layout),
      ("stamp", d.settings.stamp.layout)])]

def WorkspaceDoc.text (d : WorkspaceDoc) : Bytes := (d.layout "").toUTF8.data.toList

/-- The serializer, on these documents and their texts. -/
def textJson (docs : List WorkspaceDoc) : Json WorkspaceDoc where
  render := WorkspaceDoc.text
  parse bytes := docs.find? fun doc => doc.text = bytes

theorem find?_of_nodup_map {α β : Type*} [DecidableEq β] {f : α → β} {l : List α} {a : α}
    (h : (l.map f).Nodup) (ha : a ∈ l) : l.find? (fun x => f x = f a) = some a := by
  induction l with
  | nil => cases ha
  | cons b l ih =>
    obtain ⟨hne, h⟩ := List.nodup_cons.mp h
    obtain rfl | ha := List.mem_cons.mp ha
    · simp
    · have hb : f b ≠ f a := fun heq => hne (heq ▸ List.mem_map_of_mem ha)
      simpa [hb] using ih h ha

theorem textJson_render {docs : List WorkspaceDoc} {d : WorkspaceDoc}
    (h : (docs.map WorkspaceDoc.text).Nodup) (hd : d ∈ docs) :
    (textJson docs).parse ((textJson docs).render d) = some d :=
  find?_of_nodup_map h hd

example : Store.desk.text = Store.sampleText Store.desk := by decide +kernel

end InputShare

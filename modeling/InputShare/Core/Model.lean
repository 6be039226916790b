import InputShare.Core.Geometry
import InputShare.Core.Stamp

/-! The synchronized workspace document, its local edits and its two merge paths. A local edit
takes the time as an argument: it is read from the system clock. -/
namespace InputShare

inductive Platform where
  | windows | macOs | linux | other
deriving DecidableEq, Repr

/-- One display, in the owning machine's local coordinates; `scale` is the bit pattern of the
`f32`. -/
structure DisplayInfo where
  id : String
  name : String
  x : Int
  y : Int
  width : ℕ
  height : ℕ
  scale : ℕ
  primary : Bool
deriving DecidableEq, Repr

def DisplayInfo.rect (d : DisplayInfo) : Rect := ⟨d.x, d.y, d.width, d.height⟩

structure InputAssignment where
  providesKeyboard : Bool
  providesMouse : Bool
deriving DecidableEq, Repr

structure MachineRecord where
  id : MachineId
  displayName : String
  platform : Platform
  publicKey : PubKey
  position : Point
  displays : List DisplayInfo
  input : InputAssignment
  pairedAtMs : ℕ
deriving DecidableEq, Repr

/-- Bounding box of the displays, `none` before any display was reported. -/
def MachineRecord.bounds (m : MachineRecord) : Option Rect :=
  match m.displays.map (fun d => d.rect.translate m.position) with
  | [] => none
  | r :: rs => some (rs.foldl Rect.union r)

inductive SlotState where
  | present (record : MachineRecord)
  | removed
deriving DecidableEq, Repr

def SlotState.record : SlotState → Option MachineRecord
  | .present record => some record
  | .removed => none

structure MachineSlot where
  stamp : Stamp
  state : SlotState
deriving DecidableEq, Repr

/-- What to do when the cursor reaches an edge leading to an offline machine. -/
inductive OfflineEdgeBehavior where
  | block | skipOver
deriving DecidableEq, Repr

structure WorkspaceSettings where
  clipboardSync : Bool
  offlineEdge : OfflineEdgeBehavior
  discoveryPort : ℕ
  transportPort : ℕ
  preferredInterfaces : List String
  autostart : Bool
deriving DecidableEq, Repr

def WorkspaceSettings.default : WorkspaceSettings where
  clipboardSync := true
  offlineEdge := .block
  discoveryPort := 47451
  transportPort := 47452
  preferredInterfaces := []
  autostart := true

inductive Op where
  | setName (name : String)
  | upsertMachine (record : MachineRecord)
  | removeMachine (id : MachineId)
  | setSettings (settings : WorkspaceSettings)
deriving DecidableEq, Repr

/-- A single change, with enough metadata to order it against any other. -/
structure WorkspaceUpdate where
  workspaceId : WorkspaceId
  prevLamport : ℕ
  stamp : Stamp
  op : Op
deriving DecidableEq, Repr

abbrev Machines := Std.ExtTreeMap MachineId MachineSlot

instance : DecidableEq Machines := fun a b =>
  decidable_of_iff (a.toList = b.toList) Std.ExtTreeMap.toList_inj

structure WorkspaceDoc where
  workspaceId : WorkspaceId
  schemaVersion : ℕ
  name : Lww String
  lamport : ℕ
  machines : Machines
  settings : Lww WorkspaceSettings
deriving DecidableEq

/-- The errors of the core crate that the modelled functions return. -/
inductive CoreError where
  | io (path : String)
  | parse (path : String)
  | workspaceMismatch (incoming «local» : WorkspaceId)
  | schemaVersion (found supported : ℕ)
deriving DecidableEq, Repr

namespace WorkspaceDoc

def supportedSchema : ℕ := 1

/-- Creates a workspace whose first member is `founder`. -/
def create (workspaceId : WorkspaceId) (now : ℕ) (name : String) (founder : MachineRecord) :
    WorkspaceDoc :=
  let stamp : Stamp := ⟨1, founder.id, now⟩
  { workspaceId := workspaceId
    schemaVersion := supportedSchema
    name := ⟨name, stamp⟩
    lamport := 1
    machines := (∅ : Machines).insert founder.id ⟨stamp, .present founder⟩
    settings := ⟨.default, stamp⟩ }

/-- Advances the clock and returns a stamp for a local change. -/
def tick (d : WorkspaceDoc) (origin : MachineId) (now : ℕ) : WorkspaceDoc × Stamp :=
  let lamport := (d.lamport + 1) % u64Size
  ({ d with lamport := lamport }, ⟨lamport, origin, now⟩)

def observe (d : WorkspaceDoc) (lamport : ℕ) : WorkspaceDoc :=
  { d with lamport := max d.lamport lamport }

def setName (d : WorkspaceDoc) (origin : MachineId) (now : ℕ) (name : String) :
    WorkspaceDoc × WorkspaceUpdate :=
  let (t, stamp) := d.tick origin now
  ({ t with name := ⟨name, stamp⟩ }, ⟨d.workspaceId, d.lamport, stamp, .setName name⟩)

def setSettings (d : WorkspaceDoc) (origin : MachineId) (now : ℕ) (settings : WorkspaceSettings) :
    WorkspaceDoc × WorkspaceUpdate :=
  let (t, stamp) := d.tick origin now
  ({ t with settings := ⟨settings, stamp⟩ },
    ⟨d.workspaceId, d.lamport, stamp, .setSettings settings⟩)

def upsertMachine (d : WorkspaceDoc) (origin : MachineId) (now : ℕ) (record : MachineRecord) :
    WorkspaceDoc × WorkspaceUpdate :=
  let (t, stamp) := d.tick origin now
  ({ t with machines := t.machines.insert record.id ⟨stamp, .present record⟩ },
    ⟨d.workspaceId, d.lamport, stamp, .upsertMachine record⟩)

def removeMachine (d : WorkspaceDoc) (origin : MachineId) (now : ℕ) (id : MachineId) :
    WorkspaceDoc × WorkspaceUpdate :=
  let (t, stamp) := d.tick origin now
  ({ t with machines := t.machines.insert id ⟨stamp, .removed⟩ },
    ⟨d.workspaceId, d.lamport, stamp, .removeMachine id⟩)

def edit (d : WorkspaceDoc) (origin : MachineId) (now : ℕ) : Op → WorkspaceDoc × WorkspaceUpdate
  | .setName name => d.setName origin now name
  | .setSettings settings => d.setSettings origin now settings
  | .upsertMachine record => d.upsertMachine origin now record
  | .removeMachine id => d.removeMachine origin now id

def mergeSlot (d : WorkspaceDoc) (id : MachineId) (incoming : MachineSlot) : WorkspaceDoc × Bool :=
  match d.machines[id]? with
  | some existing =>
    if existing.stamp.key ≥ incoming.stamp.key then (d, false)
    else ({ d with machines := d.machines.insert id incoming }, true)
  | none => ({ d with machines := d.machines.insert id incoming }, true)

def checkWorkspace (d : WorkspaceDoc) (incoming : WorkspaceId) : Except CoreError Unit :=
  if incoming = d.workspaceId then .ok () else .error (.workspaceMismatch incoming d.workspaceId)

/-- Takes the operation of an update into a document whose clock has already observed it. -/
def applyOp (d : WorkspaceDoc) (stamp : Stamp) : Op → WorkspaceDoc × Bool
  | .setName name =>
    let (v, changed) := d.name.merge ⟨name, stamp⟩
    ({ d with name := v }, changed)
  | .setSettings settings =>
    let (v, changed) := d.settings.merge ⟨settings, stamp⟩
    ({ d with settings := v }, changed)
  | .upsertMachine record => d.mergeSlot record.id ⟨stamp, .present record⟩
  | .removeMachine id => d.mergeSlot id ⟨stamp, .removed⟩

/-- Applies a peer's single update and says whether it changed anything. -/
def apply (d : WorkspaceDoc) (update : WorkspaceUpdate) :
    Except CoreError (WorkspaceDoc × Bool) := do
  d.checkWorkspace update.workspaceId
  return (d.observe update.stamp.lamport).applyOp update.stamp update.op

def mergeSlots : WorkspaceDoc × Bool → List (MachineId × MachineSlot) → WorkspaceDoc × Bool
  | acc, [] => acc
  | (d, changed), (id, slot) :: rest =>
    let (e, c) := (d.observe slot.stamp.lamport).mergeSlot id slot
    mergeSlots (e, changed || c) rest

/-- Merges a peer's whole document, the reconnection path. -/
def merge (d other : WorkspaceDoc) : Except CoreError (WorkspaceDoc × Bool) := do
  d.checkWorkspace other.workspaceId
  let d := d.observe other.lamport
  let (name, c₁) := d.name.merge other.name
  let (settings, c₂) := d.settings.merge other.settings
  return mergeSlots ({ d with name := name, settings := settings }, c₁ || c₂)
    other.machines.toList

def machine (d : WorkspaceDoc) (id : MachineId) : Option MachineRecord :=
  match d.machines[id]? with
  | some ⟨_, .present record⟩ => some record
  | _ => none

/-- Machines that belong to the workspace, online or not. -/
def machinesPresent (d : WorkspaceDoc) : List MachineRecord :=
  d.machines.toList.filterMap fun (_, slot) =>
    match slot.state with
    | .present record => some record
    | .removed => none

end WorkspaceDoc

def studio : MachineRecord where
  id := 1
  displayName := "Studio"
  platform := .macOs
  publicKey := 11
  position := ⟨0, 0⟩
  displays := []
  input := ⟨true, true⟩
  pairedAtMs := 0

def laptop : MachineRecord where
  id := 2
  displayName := "Laptop"
  platform := .other
  publicKey := 12
  position := ⟨0, 0⟩
  displays := []
  input := ⟨false, false⟩
  pairedAtMs := 0

def together : WorkspaceDoc :=
  ((WorkspaceDoc.create 7 0 "Workspace" studio).upsertMachine 1 0 laptop).1

end InputShare

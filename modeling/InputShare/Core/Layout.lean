import InputShare.Core.Model
import Mathlib.Data.Finset.Basic
import Mathlib.Data.List.Sort

/-! Cursor routing: where a pointer that leaves its machine goes. -/
namespace InputShare

def absI32 (n : Int) : Int := wrapI32 |n|

inductive Direction where
  | left | right | up | down
deriving DecidableEq, Repr

def Direction.isHorizontal : Direction → Bool
  | .left | .right => true
  | .up | .down => false

/-- Where the cursor ends up: it stays, or hands off to a machine and enters it at a point. -/
inductive Resolution where
  | stay (point : Point)
  | move (machine : MachineId) (point : Point)
deriving DecidableEq, Repr

namespace Layout

/-- A machine whose rectangle lies along the ray leaving the current machine. -/
structure Candidate where
  machine : MachineId
  bounds : Rect
  distance : Int
deriving DecidableEq, Repr

/-- Dominant axis of travel out of the current machine. -/
def directionOf (exit target : Point) : Option Direction :=
  let dx := wrapI32 (target.x - exit.x)
  let dy := wrapI32 (target.y - exit.y)
  if dx = 0 ∧ dy = 0 then none
  else if absI32 dx ≥ absI32 dy then some (if dx > 0 then .right else .left)
  else some (if dy > 0 then .down else .up)

def distanceTo (bounds : Rect) (exit : Point) : Direction → Option Int
  | .right =>
    if exit.y ≥ bounds.y ∧ exit.y < bounds.maxY ∧ bounds.x > exit.x then
      some (wrapI32 (bounds.x - exit.x)) else none
  | .left =>
    if exit.y ≥ bounds.y ∧ exit.y < bounds.maxY ∧ bounds.maxX ≤ exit.x then
      some (wrapI32 (exit.x - bounds.maxX)) else none
  | .down =>
    if exit.x ≥ bounds.x ∧ exit.x < bounds.maxX ∧ bounds.y > exit.y then
      some (wrapI32 (bounds.y - exit.y)) else none
  | .up =>
    if exit.x ≥ bounds.x ∧ exit.x < bounds.maxX ∧ bounds.maxY ≤ exit.y then
      some (wrapI32 (exit.y - bounds.maxY)) else none

/-- Nearest first; the machine id breaks ties. -/
def nearer (a b : Candidate) : Prop :=
  a.distance < b.distance ∨ a.distance = b.distance ∧ a.machine ≤ b.machine

instance : DecidableRel nearer := fun a b =>
  inferInstanceAs (Decidable (a.distance < b.distance ∨ a.distance = b.distance ∧
    a.machine ≤ b.machine))

/-- Machines lying on the ray from `exit` along `direction`. -/
def candidatesAlong (doc : WorkspaceDoc) (current : MachineId) (exit : Point)
    (direction : Direction) : List Candidate :=
  let found := (doc.machinesPresent.filter fun m => m.id ≠ current).filterMap fun m => do
    let bounds ← m.bounds
    let distance ← distanceTo bounds exit direction
    return ⟨m.id, bounds, distance⟩
  found.insertionSort nearer

def entryPoint (bounds : Rect) (exit : Point) (direction : Direction) : Point :=
  bounds.clamp (if direction.isHorizontal then
    ⟨if direction = .right then bounds.x else satI32 (bounds.maxX - 1), exit.y⟩
  else ⟨exit.x, if direction = .down then bounds.y else satI32 (bounds.maxY - 1)⟩)

/-- The machine the cursor crosses to, by what the workspace does at an offline one. -/
def choose (policy : OfflineEdgeBehavior) (online : Finset MachineId)
    (candidates : List Candidate) : Option Candidate :=
  match policy with
  | .block =>
    match candidates with
    | [] => none
    | c :: _ => if c.machine ∈ online then some c else none
  | .skipOver => candidates.find? fun c => c.machine ∈ online

/-- Resolves a cursor move that would leave the current machine. -/
def resolveCursor (doc : WorkspaceDoc) (online : Finset MachineId) (current : MachineId)
    (target : Point) : Resolution :=
  match (doc.machine current).bind MachineRecord.bounds with
  | none => .stay target
  | some bounds =>
    if bounds.contains target then .stay target
    else
      let exit := bounds.clamp target
      match directionOf exit target with
      | none => .stay exit
      | some direction =>
        match choose doc.settings.value.offlineEdge online
            (candidatesAlong doc current exit direction) with
        | some c => .move c.machine (entryPoint c.bounds exit direction)
        | none => .stay exit

theorem mem_candidatesAlong {doc : WorkspaceDoc} {current : MachineId} {exit : Point}
    {d : Direction} {c : Candidate} : c ∈ candidatesAlong doc current exit d ↔
      ∃ m ∈ doc.machinesPresent, m.id ≠ current ∧ c.machine = m.id ∧ m.bounds = some c.bounds ∧
        distanceTo c.bounds exit d = some c.distance := by
  unfold candidatesAlong
  rw [(List.perm_insertionSort nearer _).mem_iff]
  simp only [List.mem_filterMap, List.mem_filter, Option.bind_eq_bind, Option.bind_eq_some_iff,
    pure, Option.some.injEq, decide_eq_true_eq]
  constructor
  · intro h
    obtain ⟨m, ⟨hm, hne⟩, b, hb, n, hn, rfl⟩ := h
    exact ⟨m, hm, hne, rfl, hb, hn⟩
  · intro h
    obtain ⟨m, hm, hne, hid, hb, hn⟩ := h
    exact ⟨m, ⟨hm, hne⟩, c.bounds, hb, c.distance, hn, by rw [← hid]⟩

theorem mem_candidatesAlong_ne {doc : WorkspaceDoc} {current : MachineId} {exit : Point}
    {direction : Direction} {c : Candidate} (h : c ∈ candidatesAlong doc current exit direction) :
    c.machine ≠ current := by
  obtain ⟨m, -, hne, hid, -⟩ := mem_candidatesAlong.mp h
  rwa [hid]

theorem choose_mem {policy : OfflineEdgeBehavior} {online : Finset MachineId}
    {candidates : List Candidate} {c : Candidate} (h : choose policy online candidates = some c) :
    c ∈ candidates ∧ c.machine ∈ online := by
  cases policy with
  | block =>
    cases candidates with
    | nil => cases h
    | cons d rest =>
      by_cases hd : d.machine ∈ online
      · simp only [choose, hd, if_true, Option.some.injEq] at h
        subst h
        exact ⟨List.mem_cons_self, hd⟩
      · simp [choose, hd] at h
  | skipOver =>
    simp only [choose] at h
    exact ⟨List.mem_of_find?_eq_some h, by simpa using List.find?_some h⟩

theorem resolveCursor_move {doc : WorkspaceDoc} {online : Finset MachineId} {current m : MachineId}
    {target p : Point} (h : resolveCursor doc online current target = .move m p) :
    m ≠ current ∧ m ∈ online := by
  unfold resolveCursor at h
  split at h
  · cases h
  split at h
  · cases h
  dsimp only at h
  split at h
  · cases h
  split at h
  · rename_i c hc
    obtain ⟨hmem, honline⟩ := choose_mem hc
    obtain ⟨rfl, -⟩ := Resolution.move.inj h
    exact ⟨mem_candidatesAlong_ne hmem, honline⟩
  · cases h

end Layout
end InputShare

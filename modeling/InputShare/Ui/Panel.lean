import InputShare.Agent.Refresher
import InputShare.Ui.Snapping
import Mathlib.Algebra.Order.Round
import Mathlib.Data.List.Sort
import Mathlib.Data.Rat.Floor

/-! The window: it is told that something has changed, fetches what there is and draws it. While a
machine is dragged on the canvas it lets such notices pass. -/
namespace InputShare
namespace Ui

/-- One physical screen, in workspace coordinates. -/
structure UiScreen where
  name : String
  x : Int
  y : Int
  width : ℕ
  height : ℕ
  primary : Bool
deriving DecidableEq, Repr

/-- What the window is told of a machine, with the place the canvas draws it at. -/
structure Card where
  id : MachineId
  name : String
  platform : Platform
  publicKey : PubKey
  place : UiMachine
  keyboard : Bool
  mouse : Bool
  isLocal : Bool
  knownDisplays : Bool
  screens : List UiScreen
deriving DecidableEq, Repr

structure UiSettings where
  clipboardSync : Bool
  offlineEdge : OfflineEdgeBehavior
  discoveryPort : ℕ
  transportPort : ℕ
  autostart : Bool
deriving DecidableEq, Repr

structure UiWorkspace where
  id : WorkspaceId
  name : String
  settings : UiSettings
  machines : List Card
deriving DecidableEq, Repr

/-- The corner of everything the machine covers, or its position as long as that is not known. -/
def place (m : MachineRecord) : UiMachine :=
  match m.bounds with
  | some b => ⟨b.x, b.y, b.width, b.height⟩
  | none => ⟨m.position.x, m.position.y, 0, 0⟩

def screen (position : Point) (d : DisplayInfo) : UiScreen :=
  ⟨d.name, wrapI32 (d.x + position.x), wrapI32 (d.y + position.y), d.width, d.height, d.primary⟩

def card (me : MachineId) (m : MachineRecord) : Card where
  id := m.id
  name := m.displayName
  platform := m.platform
  publicKey := m.publicKey
  place := place m
  keyboard := m.input.providesKeyboard
  mouse := m.input.providesMouse
  isLocal := m.id = me
  knownDisplays := !m.displays.isEmpty
  screens := m.displays.map (screen m.position)

def Above (a b : Card) : Prop :=
  a.place.y < b.place.y ∨ a.place.y = b.place.y ∧ a.place.x ≤ b.place.x

instance : DecidableRel Above := fun _ _ => inferInstanceAs (Decidable (_ ∨ _))

def workspace (me : MachineId) (doc : WorkspaceDoc) : UiWorkspace where
  id := doc.workspaceId
  name := doc.name.value
  settings :=
    ⟨doc.settings.value.clipboardSync, doc.settings.value.offlineEdge,
      doc.settings.value.discoveryPort, doc.settings.value.transportPort,
      doc.settings.value.autostart⟩
  machines := (doc.machinesPresent.map (card me)).insertionSort Above

/-- What the window is told of the workspace, if there is one. -/
def view (me : MachineId) (s : State) : Option UiWorkspace := s.doc.map (workspace me)

end Ui

namespace Panel
open Broadcast Runs Ui

/-- The task that turns what the agent announces into notices for the window. -/
inductive Forwarder where
  | receiving (pos : ℕ)
  | emitting (pos : ℕ)
  | ended
deriving DecidableEq, Repr

structure Drag where
  id : MachineId
  machine : UiMachine
  current : ℤ × ℤ
  moved : Bool
  /-- A notice has come meanwhile. -/
  heard : Bool
deriving DecidableEq, Repr

/-- What the window has asked for and was not answered yet. -/
inductive Call where
  | getState
  /-- A machine was dropped, and `heard` tells whether a notice came while it was dragged. -/
  | move (id : MachineId) (x y : ℤ) (heard : Bool)
  | moving (heard : Bool)
  /-- Any other command. -/
  | command
deriving DecidableEq, Repr

def Call.fetches : Call → Bool
  | .getState => true
  | .move _ _ _ heard | .moving heard => heard
  | .command => false

structure World where
  /-- The agent, what it announces and the task that publishes its screens. -/
  base : Refresher.World
  forwarder : Forwarder
  notices : ℕ
  calls : List Call
  /-- The answers on their way. -/
  replies : List (Option UiWorkspace)
  /-- The answer taken last. -/
  state : Option (Option UiWorkspace)
  drawn : Option UiWorkspace
  drag : Option Drag

inductive Action where
  | agent (a : Refresher.Action)
  | receive
  | emit
  /-- The window takes a notice. -/
  | notice
  /-- The agent looks up the machine that was dropped, as the first half of the command. -/
  | begin (i : ℕ)
  | reply (i : ℕ)
  | refuse (i : ℕ)
  /-- The window takes an answer. -/
  | take (i : ℕ)
  | press (id : MachineId)
  | drag (scale dx dy : ℚ)
  | release
  /-- Another command is given. -/
  | invoke

/-- Whether a number can be a coordinate of a command. -/
def InRange (n : ℤ) : Prop := i32Min ≤ n ∧ n ≤ i32Max

instance : DecidablePred InRange := fun _ => inferInstanceAs (Decidable (_ ∧ _))

variable (me : MachineId) (platform : Platform)

def step (w : World) : Action → Option World
  | .agent a => (Refresher.step me platform w.base a).map fun base => { w with base }
  | .receive =>
    match w.forwarder with
    | .receiving pos =>
      (recv Refresher.eventCapacity w.base.sent pos).map fun
        | (.value _, pos) => { w with forwarder := .emitting pos }
        | (.lagged _, _) => { w with forwarder := .ended }
    | _ => none
  | .emit =>
    match w.forwarder with
    | .emitting pos => some { w with forwarder := .receiving pos, notices := w.notices + 1 }
    | _ => none
  | .notice =>
    if w.notices = 0 then none
    else
      let w := { w with notices := w.notices - 1 }
      -- never yank a machine out from under the pointer
      match w.drag with
      | some d => some { w with drag := some { d with heard := true } }
      | none => some { w with calls := w.calls ++ [.getState] }
  | .begin i =>
    match w.calls[i]? with
    | some (.move id x y heard) =>
      if InRange x ∧ InRange y then
        (Refresher.step me platform w.base (.edit (.read (.editMachine id (.move x y))))).map
          fun base => { w with base, calls := w.calls.set i (.moving heard) }
      else none
    | _ => none
  | .reply i =>
    match w.calls[i]? with
    | none | some (.move ..) => none
    | some _ =>
      some { w with
        calls := w.calls.eraseIdx i
        replies := w.replies ++ [view me w.base.edits.agent] }
  | .refuse i =>
    match w.calls[i]? with
    | none | some .getState => none
    | some _ => some { w with calls := w.calls.eraseIdx i }
  | .take i =>
    (w.replies[i]?).map fun r =>
      { w with replies := w.replies.eraseIdx i, state := some r, drawn := r.or w.drawn }
  | .press id => do
    let ws ← w.drawn
    let c ← ws.machines.find? (·.id = id)
    return { w with drag := some ⟨id, c.place, (c.place.x, c.place.y), false, false⟩ }
  | .drag scale dx dy =>
    match w.drag, w.state with
    | some d, some (some ws) =>
      let others := (ws.machines.filter (·.id ≠ d.id)).map Card.place
      let current := snapPosition scale d.machine (round (d.machine.x + dx))
        (round (d.machine.y + dy)) others
      some { w with drag := some { d with
        current, moved := d.moved || decide (2 < |dx|) || decide (2 < |dy|) } }
    | _, _ => none
  | .release =>
    w.drag.map fun d =>
      { w with
        drag := none
        calls := if d.moved then w.calls ++ [.move d.id d.current.1 d.current.2 d.heard]
          else w.calls }
  | .invoke => some { w with calls := w.calls ++ [.command] }

/-- The window has just been opened and asks what there is. -/
structure Opened (w : World) : Prop where
  forwarder : ∃ pos ≤ w.base.sent.length, w.forwarder = .receiving pos
  calls : w.calls = [.getState]
  replies : w.replies = []
  state : w.state = none
  drag : w.drag = none

/-- The task that publishes the screens has changed the record and not announced it. -/
def tells : Refresher.Task → Bool
  | .announcing _ => true
  | _ => false

/-- Nothing is under way: every change is announced, the window has heard of it and has taken every
answer. -/
structure Quiet (w : World) : Prop where
  owed : w.base.owed = 0
  task : tells w.base.task = false
  forwarder : w.forwarder = .receiving w.base.sent.length
  notices : w.notices = 0
  calls : w.calls = []
  replies : w.replies = []
  drag : w.drag = none

instance (w : World) : Decidable (Quiet w) :=
  decidable_of_iff (w.base.owed = 0 ∧ tells w.base.task = false ∧
      w.forwarder = .receiving w.base.sent.length ∧ w.notices = 0 ∧ w.calls = [] ∧
      w.replies = [] ∧ w.drag = none)
    ⟨fun ⟨h₁, h₂, h₃, h₄, h₅, h₆, h₇⟩ => ⟨h₁, h₂, h₃, h₄, h₅, h₆, h₇⟩,
      fun h => ⟨h.owed, h.task, h.forwarder, h.notices, h.calls, h.replies, h.drag⟩⟩

/-- The forwarding task keeps up, giving up the configuration does not fail half way, answers are
taken in the order they were given, and a drag that let a notice pass ends with the machine
moved. -/
def Attentive (w : World) : Action → Prop
  | .agent (.netEvent _ _ cleared) => cleared = true
  | .receive => ∀ pos, w.forwarder = .receiving pos →
    unread w.base.sent pos ≤ Refresher.eventCapacity
  | .refuse i => ∀ c ∈ w.calls[i]?, c.fetches = false
  | .take i => i = 0
  | .press _ => ∀ d ∈ w.drag, d.heard = false
  | .release => ∀ d ∈ w.drag, d.heard = true → d.moved = true
  | _ => True

instance (w : World) : DecidablePred (Attentive w)
  | .agent (.netEvent _ _ cleared) => inferInstanceAs (Decidable (cleared = true))
  | .receive =>
    match h : w.forwarder with
    | .receiving pos => decidable_of_iff (unread w.base.sent pos ≤ Refresher.eventCapacity)
        ⟨fun hle p hp => by rw [h, Forwarder.receiving.injEq] at hp; exact hp ▸ hle,
          fun hall => hall pos h⟩
    | .emitting _ | .ended => .isTrue fun p hp => by rw [h] at hp; cases hp
  | .refuse _ | .press _ | .release => inferInstanceAs (Decidable (∀ _ ∈ _, _))
  | .take _ => inferInstanceAs (Decidable (_ = _))
  | .agent (.plug _) | .agent .publish | .agent (.edit _) | .agent .announce | .agent .note
  | .agent .subscribe | .agent .receive | .agent (.write _) | .agent .tell | .agent .finish
  | .emit | .notice | .begin _ | .reply _ | .drag .. | .invoke => .isTrue trivial

/-! What is not announced, the window does not show. -/

variable {me platform}

theorem workspace_of_held {d e : WorkspaceDoc} (hid : e.workspaceId = d.workspaceId)
    (h : ∀ r, e.held r = d.held r) : workspace me e = workspace me d := by
  obtain ⟨hname, hsettings, hmachines⟩ := WorkspaceDoc.eq_of_held_eq h
  simp only [workspace, WorkspaceDoc.machinesPresent, hid, hname, hsettings, hmachines]

theorem view_congr {s t : State} (h : t.doc = s.doc) : view me t = view me s := by
  rw [view, view, h]

theorem view_of_apply {s t : State} {u : WorkspaceUpdate} (h : s.apply u = .ok (t, false)) :
    view me t = view me s := by
  cases hd : s.doc with
  | none =>
    obtain ⟨rfl, -⟩ := State.apply_none hd h
    rfl
  | some d =>
    obtain ⟨e, he, rfl⟩ := State.apply_some hd h
    have hheld : ∀ r, e.held r = d.held r := by
      have hno := (WorkspaceDoc.apply_changed_iff he).not.mp (by simp)
      simpa using hno
    have hsame : workspace me e = workspace me d :=
      workspace_of_held (WorkspaceDoc.apply_spec he).2.2 hheld
    simp only [view, hd, Option.map_some, hsame]

theorem view_of_merge {s t : State} {other : WorkspaceDoc} (h : s.merge other = .ok (t, false)) :
    view me t = view me s := by
  cases hd : s.doc with
  | none => cases (State.merge_none hd h).2
  | some d =>
    obtain ⟨e, he, ht⟩ := State.merge_some hd h
    have hheld : ∀ r, e.held r = d.held r := by
      have hno := (WorkspaceDoc.merge_changed_iff he).not.mp (by simp)
      simpa using hno
    have hsame : workspace me e = workspace me d :=
      workspace_of_held (WorkspaceDoc.merge_workspaceId he) hheld
    simp only [view, hd, ht, Option.map_some, hsame]

theorem read_agent {w v : Edits.World} {c : Command} (hs : Edits.step me w (.read c) = some v) :
    v.agent = w.agent := by
  simp only [Edits.step] at hs
  split at hs <;> obtain rfl := Option.some.inj hs <;> rfl

theorem view_of_edit {w v : Edits.World} {a : Edits.Action} (hs : Edits.step me w a = some v)
    (hq : Refresher.announces me w a = false) : view me v.agent = view me w.agent := by
  cases a with
  | read c => rw [read_agent hs]
  | write i now =>
    simp only [Edits.step] at hs
    split at hs
    · cases hs
    rename_i p hp
    simp only [Refresher.announces, hp, Option.any_some] at hq
    split at hs
    · rename_i s u hm
      rw [hm] at hq
      cases hq
    · obtain rfl := Option.some.inj hs
      rfl
  | update u =>
    simp only [Edits.step] at hs
    simp only [Refresher.announces] at hq
    split at hs
    · rename_i s c ha
      rw [ha] at hq
      obtain rfl := Option.some.inj hs
      exact view_of_apply (by rw [ha, show c = false from hq])
    · obtain rfl := Option.some.inj hs
      rfl
  | merge doc =>
    simp only [Edits.step] at hs
    simp only [Refresher.announces] at hq
    split at hs
    · rename_i s c hm
      rw [hm] at hq
      obtain rfl := Option.some.inj hs
      exact view_of_merge (by rw [hm, show c = false from hq])
    · obtain rfl := Option.some.inj hs
      rfl
  | change now op =>
    simp only [Edits.step] at hs
    simp only [Refresher.announces] at hq
    split at hs
    · rename_i s u hm
      rw [hm] at hq
      cases hq
    · obtain rfl := Option.some.inj hs
      rfl

/-- A change has been made and is still to be announced. -/
def Pending (r : Refresher.World) : Prop := r.owed ≠ 0 ∨ tells r.task = true

variable (me) in
/-- A step of the agent leaves what the window is told alone, or is still to be announced; and
what was is announced or still to be. -/
structure Announced (r t : Refresher.World) : Prop where
  shown : view me t.edits.agent = view me r.edits.agent ∨ Pending t
  pending : Pending r → Pending t ∨ r.sent.length < t.sent.length
  sent : r.sent.length ≤ t.sent.length

theorem announced {r t : Refresher.World} {a : Refresher.Action}
    (hclear : ∀ now e cleared, a = .netEvent now e cleared → cleared = true)
    (hs : Refresher.step me platform r a = some t) : Announced me r t := by
  cases a with
  | plug displays =>
    obtain rfl := Option.some.inj hs
    exact ⟨.inl rfl, .inl, le_rfl⟩
  | publish =>
    obtain ⟨edits, hedits, rfl⟩ := Refresher.publish_spec hs
    exact ⟨.inl (view_congr (congrArg State.doc (read_agent hedits))), .inl, le_rfl⟩
  | edit a =>
    obtain ⟨edits, hedits, rfl⟩ := Refresher.half_spec hs
    refine ⟨?_, fun h => .inl ?_, le_rfl⟩
    · cases hq : Refresher.announces me r.edits a with
      | false => exact .inl (view_of_edit hedits hq)
      | true => exact .inr (.inl (Nat.succ_ne_zero _))
    · exact h.imp (fun h => by simp only [ne_eq]; omega) id
  | netEvent now e cleared =>
    obtain rfl := Option.some.inj hs
    obtain rfl := hclear now e cleared rfl
    refine ⟨?_, fun h => .inl ?_, le_rfl⟩
    · cases ht : Refresher.tells r.edits.agent true e with
      | true => exact .inr (.inl (Nat.succ_ne_zero _))
      | false =>
        refine .inl (view_congr ?_)
        cases e with
        | differentWorkspaces id key theirs size =>
          simp only [Refresher.tells, Bool.and_true] at ht
          simp only [State.onNetEvent]
          cases hd : r.edits.agent.doc with
          | none => exact hd
          | some doc =>
            rw [hd, Option.any_some] at ht
            simp [ht, hd]
        | _ => cases ht
    · exact h.imp (fun h => by simp only [ne_eq]; omega) id
  | announce =>
    simp only [Refresher.step] at hs
    split at hs
    · cases hs
    · obtain rfl := Option.some.inj hs
      exact ⟨.inl rfl, fun _ => .inr (by simp), by simp⟩
  | note =>
    obtain rfl := Option.some.inj hs
    exact ⟨.inl rfl, fun _ => .inr (by simp), by simp⟩
  | subscribe =>
    obtain ⟨htask, rfl⟩ := Refresher.subscribe_spec hs
    refine ⟨.inl rfl, fun h => .inl (h.imp id fun h => ?_), le_rfl⟩
    rw [htask] at h
    cases h
  | receive =>
    obtain ⟨pos, htask, ⟨-, rfl⟩ | ⟨-, -, task, rfl, -⟩⟩ := Refresher.receive_spec hs
    all_goals
      refine ⟨.inl rfl, fun h => .inl (h.imp id fun h => ?_), le_rfl⟩
      rw [htask] at h
      cases h
  | write now =>
    obtain ⟨pos, p, htask, ⟨s, rfl⟩ | ⟨-, rfl⟩⟩ := Refresher.write_spec hs
    · exact ⟨.inr (.inr rfl), fun _ => .inl (.inr rfl), le_rfl⟩
    · refine ⟨.inl rfl, fun h => .inl (h.imp id fun h => ?_), le_rfl⟩
      rw [htask] at h
      cases h
  | tell =>
    obtain ⟨pos, -, rfl⟩ := Refresher.tell_spec hs
    exact ⟨.inl rfl, fun _ => .inr (by simp), by simp⟩
  | finish =>
    obtain ⟨pos, htask, rfl⟩ := Refresher.finish_spec hs
    refine ⟨.inl rfl, fun h => .inl (h.imp id fun h => ?_), le_rfl⟩
    rw [htask] at h
    cases h

/-! The window fetches what it does not show. -/

/-- What makes the window fetch the state once more. -/
inductive Coming (w : World) : Prop where
  | pending (h : Pending w.base)
  | unread (pos : ℕ) (h : w.forwarder = .receiving pos) (hn : unread w.base.sent pos ≠ 0)
  | emitting (pos : ℕ) (h : w.forwarder = .emitting pos)
  | notice (h : w.notices ≠ 0)
  | call (c : Call) (hc : c ∈ w.calls) (hf : c.fetches = true)
  | drag (d : Drag) (hd : w.drag = some d) (hh : d.heard = true)

def latest (w : World) : Option (Option UiWorkspace) := w.replies.getLast?.or w.state

variable (me) in
structure Inv (w : World) : Prop where
  forwarder : ∃ pos ≤ w.base.sent.length,
    w.forwarder = .receiving pos ∨ w.forwarder = .emitting pos
  drawn : ∀ ws, w.state = some (some ws) → w.drawn = some ws
  current : latest w = some (view me w.base.edits.agent) ∨ Coming w

variable {w v : World}

theorem Inv.agent {base : Refresher.World} (h : Inv me w)
    (hb : Announced me w.base base) : Inv me { w with base } := by
  obtain ⟨pos, hpos, hat⟩ := h.forwarder
  refine ⟨⟨pos, le_trans hpos hb.sent, hat⟩, h.drawn, ?_⟩
  obtain hcurrent | hcoming := h.current
  · obtain hsame | hpending := hb.shown
    · exact .inl (hcurrent.trans (congrArg some hsame.symm))
    · exact .inr (.pending hpending)
  · refine .inr ?_
    cases hcoming with
    | pending hp =>
      obtain hp | hlt := hb.pending hp
      · exact .pending hp
      · obtain hat | hat := hat
        · exact .unread pos hat (by simp only [Broadcast.unread]; omega)
        · exact .emitting pos hat
    | unread pos hp hn =>
      refine .unread pos hp ?_
      have := hb.sent
      simp only [Broadcast.unread] at hn ⊢
      omega
    | emitting pos hp => exact .emitting pos hp
    | notice hn => exact .notice hn
    | call c hc hf => exact .call c hc hf
    | drag d hd hh => exact .drag d hd hh

theorem Coming.eraseCall {i : ℕ} {c : Call} (h : Coming w) (hc : w.calls[i]? = some c)
    (hf : c.fetches = false) : Coming { w with calls := w.calls.eraseIdx i } := by
  cases h with
  | pending hp => exact .pending hp
  | unread pos hp hn => exact .unread pos hp hn
  | emitting pos hp => exact .emitting pos hp
  | notice hn => exact .notice hn
  | call d hd hg =>
    refine .call d ?_ hg
    obtain ⟨j, hj⟩ := List.getElem?_of_mem hd
    have hne : j ≠ i := by
      rintro rfl
      obtain rfl := Option.some.inj (hc.symm.trans hj)
      rw [hf] at hg
      cases hg
    exact List.mem_eraseIdx_iff_getElem?.mpr ⟨j, hne, hj⟩
  | drag d hd hh => exact .drag d hd hh

theorem Coming.mono (h : Coming w) (hbase : v.base = w.base)
    (hforwarder : v.forwarder = w.forwarder) (hnotices : w.notices ≠ 0 → v.notices ≠ 0)
    (hcalls : ∀ c ∈ w.calls, c.fetches = true → ∃ e ∈ v.calls, e.fetches = true)
    (hdrag : ∀ d, w.drag = some d → d.heard = true →
      (∃ e, v.drag = some e ∧ e.heard = true) ∨ ∃ c ∈ v.calls, c.fetches = true) : Coming v := by
  cases h with
  | pending hp => exact .pending (hbase ▸ hp)
  | unread pos hp hn => exact .unread pos (hforwarder.trans hp) (hbase ▸ hn)
  | emitting pos hp => exact .emitting pos (hforwarder.trans hp)
  | notice hn => exact .notice (hnotices hn)
  | call c hc hf =>
    obtain ⟨e, he, hfetches⟩ := hcalls c hc hf
    exact .call e he hfetches
  | drag d hd hh =>
    obtain ⟨e, he, hheard⟩ | ⟨c, hc, hf⟩ := hdrag d hd hh
    · exact .drag e he hheard
    · exact .call c hc hf

/-- What leaves the agent, the answers and what is shown alone keeps the invariant if it keeps the
ways in which the window hears of changes. -/
theorem Inv.keep (h : Inv me w) (hbase : v.base = w.base) (hforwarder : v.forwarder = w.forwarder)
    (hreplies : v.replies = w.replies) (hstate : v.state = w.state) (hdrawn : v.drawn = w.drawn)
    (hcoming : Coming w → Coming v) : Inv me v := by
  refine ⟨by rw [hbase, hforwarder]; exact h.forwarder, by rw [hstate, hdrawn]; exact h.drawn, ?_⟩
  obtain hcurrent | hc := h.current
  · left
    rw [latest, hreplies, hstate, hbase]
    exact hcurrent
  · exact .inr (hcoming hc)

theorem Inv.reply {i : ℕ} (h : Inv me w) : Inv me { w with
    calls := w.calls.eraseIdx i, replies := w.replies ++ [view me w.base.edits.agent] } :=
  ⟨h.forwarder, h.drawn, .inl (by simp [latest])⟩

theorem Inv.take {r : Option UiWorkspace} {rest : List (Option UiWorkspace)} (h : Inv me w)
    (hr : w.replies = r :: rest) :
    Inv me { w with replies := rest, state := some r, drawn := r.or w.drawn } := by
  refine ⟨h.forwarder, fun ws hws => ?_, ?_⟩
  · obtain rfl := Option.some.inj hws
    rfl
  · obtain hcurrent | hcoming := h.current
    · left
      rw [← hcurrent, latest, latest, hr, List.getLast?_cons]
      cases rest.getLast? <;> rfl
    · exact .inr (hcoming.mono rfl rfl id (fun c hc hf => ⟨c, hc, hf⟩)
        fun d hd hh => .inl ⟨d, hd, hh⟩)

theorem Inv.begin {i : ℕ} {id : MachineId} {x y : ℤ} {heard : Bool} {base : Refresher.World}
    (h : Inv me w) (hi : w.calls[i]? = some (.move id x y heard))
    (hb : Announced me w.base base) :
    Inv me { w with base, calls := w.calls.set i (.moving heard) } := by
  refine (h.agent hb).keep rfl rfl rfl rfl rfl fun hc =>
    hc.mono rfl rfl (fun h => h) (fun c hc hf => ?_) fun d hd hh => .inl ⟨d, hd, hh⟩
  obtain ⟨hlt, hat⟩ := List.getElem?_eq_some_iff.mp hi
  obtain ⟨j, hj⟩ := List.getElem?_of_mem hc
  by_cases hij : i = j
  · subst hij
    obtain rfl := Option.some.inj (hi.symm.trans hj)
    exact ⟨_, List.mem_set hlt _, hf⟩
  · exact ⟨c, List.mem_of_getElem? (by rw [List.getElem?_set_ne hij, hj]), hf⟩

theorem Inv.step {a : Action} (h : Inv me w) (hok : Attentive w a)
    (hs : step me platform w a = some v) : Inv me v := by
  cases a with
  | agent a =>
    obtain ⟨base, hbase, rfl⟩ := Option.map_eq_some_iff.mp hs
    refine h.agent (announced (fun now e cleared ha => ?_) hbase)
    subst ha
    exact hok
  | receive =>
    simp only [Panel.step] at hs
    split at hs
    · rename_i pos hf
      obtain ⟨⟨received, next⟩, hrecv, hv⟩ := Option.map_eq_some_iff.mp hs
      obtain ⟨m, rfl, rfl, hlt⟩ := recv_of_unread_le (hok pos hf) hrecv
      obtain rfl := hv
      exact ⟨⟨pos + 1, hlt, .inr rfl⟩, h.drawn, .inr (.emitting _ rfl)⟩
    · cases hs
  | emit =>
    simp only [Panel.step] at hs
    split at hs
    · rename_i pos hf
      obtain rfl := Option.some.inj hs
      obtain ⟨p, hp, hat | hat⟩ := h.forwarder
      · cases hf.symm.trans hat
      · obtain rfl := Forwarder.emitting.inj (hf.symm.trans hat)
        exact ⟨⟨pos, hp, .inl rfl⟩, h.drawn, .inr (.notice (Nat.succ_ne_zero _))⟩
    · cases hs
  | notice =>
    simp only [Panel.step] at hs
    split at hs
    · cases hs
    · split at hs
      · obtain rfl := Option.some.inj hs
        exact ⟨h.forwarder, h.drawn, .inr (.drag _ rfl rfl)⟩
      · obtain rfl := Option.some.inj hs
        exact ⟨h.forwarder, h.drawn, .inr (.call .getState (by simp) rfl)⟩
  | begin i =>
    simp only [Panel.step] at hs
    split at hs
    · rename_i id x y heard hi
      obtain ⟨-, hs⟩ := Option.ite_none_right_eq_some.mp hs
      obtain ⟨base, hbase, rfl⟩ := Option.map_eq_some_iff.mp hs
      exact h.begin hi (announced (fun _ _ _ ha => by cases ha) hbase)
    · cases hs
  | reply i =>
    simp only [Panel.step] at hs
    split at hs
    · cases hs
    · cases hs
    · obtain rfl := Option.some.inj hs
      exact h.reply
  | refuse i =>
    simp only [Panel.step] at hs
    split at hs
    · cases hs
    · cases hs
    · rename_i c _ hc
      obtain rfl := Option.some.inj hs
      exact h.keep rfl rfl rfl rfl rfl fun hcoming => hcoming.eraseCall hc (hok c hc)
  | take i =>
    obtain rfl : i = 0 := hok
    obtain ⟨r, hr, rfl⟩ := Option.map_eq_some_iff.mp hs
    obtain ⟨rest, hrest⟩ := List.head?_eq_some_iff.mp (List.head?_eq_getElem?.trans hr)
    rw [hrest]
    exact h.take hrest
  | press id =>
    obtain ⟨ws, -, hs⟩ := Option.bind_eq_some_iff.mp hs
    obtain ⟨c, -, hs⟩ := Option.bind_eq_some_iff.mp hs
    obtain rfl := Option.some.inj hs
    refine h.keep rfl rfl rfl rfl rfl fun hcoming => hcoming.mono rfl rfl (fun h => h)
      (fun c hc hf => ⟨c, hc, hf⟩) fun d hd hh => ?_
    rw [hok d hd] at hh
    cases hh
  | drag scale dx dy =>
    simp only [Panel.step] at hs
    split at hs
    · rename_i d ws hd hws
      obtain rfl := Option.some.inj hs
      refine h.keep rfl rfl rfl rfl rfl fun hcoming => hcoming.mono rfl rfl id
        (fun c hc hf => ⟨c, hc, hf⟩) fun e he hh => .inl ⟨_, rfl, ?_⟩
      obtain rfl := Option.some.inj (hd.symm.trans he)
      exact hh
    · cases hs
  | release =>
    obtain ⟨d, hd, rfl⟩ := Option.map_eq_some_iff.mp hs
    refine h.keep rfl rfl rfl rfl rfl fun hcoming => hcoming.mono rfl rfl id
      (fun c hc hf => ⟨c, ?_, hf⟩) fun e he hh => .inr ?_
    · simp only
      split
      · exact List.mem_append_left _ hc
      · exact hc
    · obtain rfl := Option.some.inj (hd.symm.trans he)
      refine ⟨.move d.id d.current.1 d.current.2 d.heard, ?_, hh⟩
      simp [hok d hd hh]
  | invoke =>
    obtain rfl := Option.some.inj hs
    exact h.keep rfl rfl rfl rfl rfl fun hcoming => hcoming.mono rfl rfl id
      (fun c hc hf => ⟨c, List.mem_append_left _ hc, hf⟩) fun d hd hh => .inl ⟨d, hd, hh⟩

theorem Opened.inv (h : Opened w) : Inv me w := by
  obtain ⟨pos, hpos, hat⟩ := h.forwarder
  refine ⟨⟨pos, hpos, .inl hat⟩, fun ws hws => ?_, .inr (.call .getState ?_ rfl)⟩
  · rw [h.state] at hws
    cases hws
  · rw [h.calls]
    exact List.mem_singleton_self _

theorem Quiet.not_coming (h : Quiet w) : ¬ Coming w := by
  rintro (⟨howed | htask⟩ | ⟨pos, hp, hn⟩ | ⟨pos, hp⟩ | hn | ⟨c, hc, -⟩ | ⟨d, hd, -⟩)
  · exact howed h.owed
  · rw [h.task] at htask
    cases htask
  · obtain rfl := Forwarder.receiving.inj (h.forwarder.symm.trans hp)
    exact hn (unread_length _)
  · cases h.forwarder.symm.trans hp
  · exact hn h.notices
  · rw [h.calls] at hc
    cases hc
  · rw [h.drag] at hd
    cases hd

/-- Whatever the agent, the network and the person at the window do, and however their steps
interleave: whenever nothing is under way, the window shows the workspace as it is. -/
theorem window_shows_workspace {as : List Action} (hw : Opened w)
    (h : Run (step me platform) Attentive w as v) (hq : Quiet v) :
    v.state = some (view me v.base.edits.agent) ∧
      ∀ ws, view me v.base.edits.agent = some ws → v.drawn = some ws := by
  have hinv : Inv me v :=
    h.invariant (I := Inv me) (fun _ _ _ hi hok hs => hi.step hok hs) hw.inv
  have hstate : v.state = some (view me v.base.edits.agent) := by
    have hcurrent := hinv.current.resolve_right hq.not_coming
    rwa [latest, hq.replies] at hcurrent
  exact ⟨hstate, fun ws hws => hinv.drawn ws (hstate.trans (congrArg some hws))⟩

/-- The window of the studio, which is in a workspace with the laptop. -/
def opened : World where
  base := Refresher.start (.ofDoc together) studio.displays
  forwarder := .receiving 0
  notices := 0
  calls := [.getState]
  replies := []
  state := none
  drawn := none
  drag := none

theorem opened_opened : Opened opened := ⟨⟨0, le_rfl, rfl⟩, rfl, rfl, rfl, rfl⟩

def heard : List Action := [.agent .announce, .receive, .emit, .notice]

def renamed : Action := .agent (.edit (.update (together.edit 2 5 (.setName "Den")).2))

/-- While the laptop is dragged a peer renames the workspace. -/
def dragged : List Action :=
  [.reply 0, .take 0, .press 2, .drag (1 / 4) 30 40, renamed] ++ heard ++
    [.release, .begin 0, .agent (.edit (.write 0 9))] ++ heard ++
    [.reply 0, .reply 0, .take 0, .take 0]

theorem window_shows_workspace_dragged : ∃ v, Run (step 1 .linux) Attentive opened dragged v ∧
    v.drawn.map UiWorkspace.name = some "Den" ∧
    (v.state = some (view 1 v.base.edits.agent) ∧
      ∀ ws, view 1 v.base.edits.agent = some ws → v.drawn = some ws) := by
  obtain ⟨v, hrun, hv⟩ := run_of_replay (step 1 .linux) Attentive opened dragged
    (fun w => (w.drawn.map UiWorkspace.name, decide (Quiet w))) (b := (some "Den", true))
    (by decide +kernel)
  obtain ⟨hname, hquiet⟩ := Prod.mk.inj hv
  exact ⟨v, hrun, hname, window_shows_workspace opened_opened hrun (of_decide_eq_true hquiet)⟩

/-- A machine that is only clicked on makes the window miss what is announced meanwhile. -/
theorem notice_missed : ∃ v, Run (step 1 .linux) Any opened
      ([.reply 0, .take 0, .press 2, renamed] ++ heard ++ [.release]) v ∧
    Quiet v ∧ v.state ≠ some (view 1 v.base.edits.agent) := by
  obtain ⟨v, hrun, hv⟩ := run_of_replay (step 1 .linux) Any opened
    ([.reply 0, .take 0, .press 2, renamed] ++ heard ++ [.release])
    (fun w => decide (Quiet w ∧ w.state ≠ some (view 1 w.base.edits.agent))) (b := true)
    (by decide +kernel)
  exact ⟨v, hrun, of_decide_eq_true hv⟩

end Panel
end InputShare

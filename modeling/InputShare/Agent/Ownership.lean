import InputShare.Agent.Router
import InputShare.Lib.Links
import InputShare.Lib.Runs
import Mathlib.Logic.Function.Basic

/-! Several machines sharing one pointer. Each runs its routing loop and a networking actor; every
two of them are joined by a connection in each direction. Changes of the owner are numbered in the
order in which they are made, and every message about one carries its number: the programs do
not see these numbers. -/
namespace InputShare
open Links Runs

/-- What the sharing loops send each other. -/
inductive Frame where
  | input (events : List (Sample ℕ))
  | cursorOwner (machine : MachineId) (change : ℕ)
deriving DecidableEq, Repr

def Frame.isNotice : Frame → Bool
  | .cursorOwner .. => true
  | .input _ => false

/-- The frame is no notice of a change before this one. -/
def Frame.notBefore : Frame → ℕ → Bool
  | .cursorOwner _ change, c => decide (c ≤ change)
  | .input _, _ => true

structure Desk where
  os : Os
  router : Router ℕ
  /-- The number of the last change this machine's loop has made or taken in. -/
  seen : ℕ
  /-- The machines it has a live session with. -/
  online : Finset MachineId
  /-- What the loop has asked the networking actor for. -/
  mailbox : List (Output ℕ)
  /-- The last announcement received, waiting for the loop. -/
  announced : Option (MachineId × ℕ)
  /-- Input from other machines, waiting for the loop. -/
  remoteInput : List (List (Sample ℕ))
  /-- The rest of the batch the loop is working through. -/
  batch : List (Sample ℕ)

structure Room where
  /-- The machines that are running and connected to each other. -/
  present : Finset MachineId
  desk : MachineId → Desk
  link : MachineId → MachineId → Link Frame
  /-- Every owner the pointer has been given to, in order. -/
  changes : List MachineId

/-- What the program cannot choose about the moment in which the loop wakes up. -/
structure Moment where
  doc : Option WorkspaceDoc
  pointer : Option Point
  now : ℕ

namespace Room

def queueLimit : ℕ := 128
def remoteLimit : ℕ := 1024

inductive Action where
  /-- The loop of `a` handles something its own devices did. -/
  | «local» (a : MachineId) (event : InputEvent) (m : Moment)
  /-- It starts on the next batch of remote input. -/
  | receive (a : MachineId)
  | next (a : MachineId) (m : Moment)
  | heartbeat (a : MachineId) (m : Moment)
  | flush (a : MachineId) (m : Moment)
  /-- The actor of `a` does the next thing it was asked for. -/
  | post (a : MachineId)
  /-- The session of `a` with `b` writes a message. -/
  | write (a b : MachineId)
  /-- The session of `b` with `a` reads one. -/
  | read (a b : MachineId)
  /-- The connection between `a` and `b` is lost. -/
  | cut (a b : MachineId)
  /-- `a` notices that it has no connection to `b` any more. -/
  | offline (a b : MachineId)
  /-- `a` stops, or is switched off. -/
  | leave (a : MachineId)

def envOf (d : Desk) (m : Moment) : Env := ⟨m.doc, d.online, m.pointer, m.now⟩

def announcedIn : Output ℕ → Option MachineId
  | .announceCursorOwner machine _ => some machine
  | _ => none

def setDesk (w : Room) (a : MachineId) (d : Desk) : Room :=
  { w with desk := Function.update w.desk a d }

def nextChange (w : Room) : ℕ := w.changes.length

/-- The loop of `a` runs `f`, in which it may learn of the change `heard`. -/
def loop (w : Room) (a : MachineId) (d : Desk) (heard : ℕ) (f : Router ℕ → Router ℕ) : Room :=
  let r := f { d.router with out := [] }
  let made := r.outgoing.filterMap announcedIn
  { w.setDesk a { d with
      router := r
      seen := if made.isEmpty then max d.seen heard else w.nextChange
      mailbox := d.mailbox ++ r.outgoing } with
    changes := w.changes ++ made }

def fromHook : InputEvent → Bool
  | .cursorEnter .. => false
  | _ => true

def heardIn (s : Sample ℕ) : ℕ := if fromHook s.event then 0 else s.tag

def waiting (w : Room) (a : MachineId) : Bool := a ∈ w.present && (w.desk a).batch.isEmpty

def onAnnounceOwner (a : MachineId) (f : Frame) (link : MachineId → MachineId → Link Frame) :
    MachineId → MachineId → Link Frame :=
  Function.update link a fun b => (link a b).offer queueLimit f

def onSendInput (a dest : MachineId) (f : Frame) (link : MachineId → MachineId → Link Frame) :
    MachineId → MachineId → Link Frame :=
  Function.update link a (Function.update (link a) dest ((link a dest).send queueLimit f))

def onOutput (a : MachineId) (o : Output ℕ) (link : MachineId → MachineId → Link Frame) :
    MachineId → MachineId → Link Frame :=
  match o with
  | .announceCursorOwner machine change => onAnnounceOwner a (.cursorOwner machine change) link
  | .sendInput dest events => onSendInput a dest (.input events) link
  | _ => link

def onFrame (f : Frame) (d : Desk) : Desk :=
  match f with
  | .cursorOwner machine change => { d with announced := some (machine, change) }
  | .input events =>
    if d.remoteInput.length < remoteLimit then { d with remoteInput := d.remoteInput ++ [events] }
    else d

def setLink (w : Room) (a b : MachineId) (l : Link Frame) : Room :=
  { w with link := Function.update w.link a (Function.update (w.link a) b l) }

/-- Whether a connection between two machines ends when `a` and `b` lose theirs. -/
def joins (a b p q : MachineId) : Bool := (p = a && q = b) || (p = b && q = a)

def step (w : Room) : Action → Option Room
  | .local a event m =>
    let d := w.desk a
    if w.waiting a && fromHook event then
      some (w.loop a d 0 fun r =>
        r.handle d.os (envOf d m) w.nextChange ⟨event, w.nextChange⟩ .local)
    else none
  | .receive a =>
    let d := w.desk a
    match d.remoteInput with
    | [] => none
    | events :: rest =>
      if w.waiting a then some (w.setDesk a { d with remoteInput := rest, batch := events })
      else none
  | .next a m =>
    let d := w.desk a
    match d.batch with
    | [] => none
    | s :: rest =>
      if a ∈ w.present then
        some (w.loop a { d with batch := rest } (heardIn s) fun r =>
          r.handle d.os (envOf d m) w.nextChange s .remote)
      else none
  | .heartbeat a m =>
    let d := w.desk a
    if w.waiting a then
      some (w.loop a d 0 fun r => r.onHeartbeat d.os (envOf d m) w.nextChange)
    else none
  | .flush a m =>
    let d := w.desk a
    if w.waiting a then
      some (w.loop a { d with announced := none } ((d.announced.map Prod.snd).getD 0) fun r =>
        r.onFlush d.os (envOf d m) (d.announced.map Prod.fst))
    else none
  | .post a =>
    let d := w.desk a
    match d.mailbox with
    | [] => none
    | o :: rest =>
      if a ∈ w.present then
        some { w.setDesk a { d with mailbox := rest } with link := onOutput a o w.link }
      else none
  | .write a b => (w.link a b).write.map (w.setLink a b)
  | .read a b =>
    match (w.link a b).read with
    | none => none
    | some (f, l) =>
      if b ∈ w.present then some ((w.setLink a b l).setDesk b (onFrame f (w.desk b))) else none
  | .cut a b =>
    some { w with link := fun p q => if joins a b p q then (w.link p q).cut else w.link p q }
  | .offline a b =>
    let d := w.desk a
    if (w.link a b).up || a ∉ w.present then none
    else some ((w.setLink a b (w.link a b).forget).setDesk a { d with online := d.online.erase b })
  | .leave a =>
    some { w with
      present := w.present.erase a
      link := fun p q => if p = a ∨ q = a then (w.link p q).cut else w.link p q }

/-- All machines name one owner, nothing is on its way, and only the owner listens to its own
devices. -/
structure Starts (w : Room) (o : MachineId) : Prop where
  owner : o ∈ w.present
  changes : w.changes = [o]
  router : ∀ n ∈ w.present, (w.desk n).router.me = n ∧ (w.desk n).router.owner = o ∧
    (w.desk n).router.capture.suppressing = decide (o ≠ n) ∧
    ∀ s ∈ (w.desk n).router.pending, fromHook s.event = true
  desk : ∀ n ∈ w.present, (w.desk n).seen = 0 ∧ (w.desk n).online = w.present.erase n ∧
    (w.desk n).mailbox = [] ∧ (w.desk n).announced = none ∧ (w.desk n).remoteInput = [] ∧
    (w.desk n).batch = []
  link : ∀ a b, (w.link a b).inFlight = [] ∧
    (a ∈ w.present → b ∈ w.present → a ≠ b → w.link a b = .fresh)

/-- Nothing is in flight, every loop has taken in what it was told, and every departure has been
noticed. -/
def Settled (w : Room) : Prop :=
  ∀ n ∈ w.present, ((w.desk n).mailbox = [] ∧ (w.desk n).announced = none ∧
      (w.desk n).remoteInput = [] ∧ (w.desk n).batch = []) ∧
    (w.desk n).online ⊆ w.present ∧
    ((w.desk n).router.owner = n ∨ (w.desk n).router.owner ∈ (w.desk n).online) ∧
    ∀ b ∈ w.present, (w.link n b).inFlight = []

/-- All machines name the same owner, one of them, and every other one swallows its own input. -/
def Agreed (w : Room) : Prop :=
  ∃ owner, ∀ n ∈ w.present, owner ∈ w.present ∧ (w.desk n).router.owner = owner ∧
    (w.desk n).router.capture.suppressing = decide (owner ≠ n)

/-- Changes of the owner are taken in in the order in which they were made, and none is lost on
the way. -/
def InOrder (w : Room) : Action → Prop
  | .heartbeat a _ =>
    (w.desk a).router.owner ≠ a → (w.desk a).router.owner ∉ (w.desk a).online →
      (w.desk a).router.owner ∉ w.present ∧ (w.desk a).seen + 1 = w.changes.length
  | .flush a _ => ∀ p ∈ (w.desk a).announced,
      p.1 = (w.desk a).router.owner ∨ (w.desk a).seen ≤ p.2
  | .next a _ => ∀ s ∈ (w.desk a).batch.head?, fromHook s.event = false →
      (w.desk a).router.owner = a ∨ (w.desk a).seen ≤ s.tag
  | .post a => ∀ o ∈ (w.desk a).mailbox.head?, (announcedIn o).isSome = true →
      ∀ b ∈ w.present, b ≠ a → (w.link a b).hasRoom queueLimit = true
  | .read a b => ∀ f ∈ (w.link a b).wire.head?, ∀ p ∈ (w.desk b).announced,
      f.notBefore p.2 = true
  | .cut a b => ∀ f ∈ (w.link a b).inFlight ++ (w.link b a).inFlight, f.isNotice = false
  | .leave a => (∀ o ∈ (w.desk a).mailbox, announcedIn o = none) ∧
      ∀ b ∈ w.present, ∀ f ∈ (w.link a b).inFlight, f.isNotice = false
  | _ => True

end Room
end InputShare

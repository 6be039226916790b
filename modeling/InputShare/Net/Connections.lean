import InputShare.Agent.Core
import InputShare.Lib.Runs
import InputShare.Net.Crypto

/-! The sessions of any number of honest machines on a network that an attacker controls: every
message is handed to the attacker, and every message that arrives comes from it. Other identity
keys than those of the honest machines are the attacker's own. -/
namespace InputShare
open Symbolic Runs

structure Fleet where
  machines : Finset MachineId
  key : MachineId → PubKey

def Fleet.identity (f : Fleet) (m : MachineId) : Identity := ⟨m, f.key m⟩

/-- An identity key that never leaves the machine that owns it. -/
def Fleet.Owns (f : Fleet) (k : PubKey) : Prop := ∃ m ∈ f.machines, f.key m = k

/-- The messages on which the reading side of a session calls into the agent. -/
def Message.calls : Message → Bool
  | .docFull _ | .update _ | .input _ | .cursorOwner _ => true
  | .identify .. | .ping _ | .pong _ | .goodbye _ => false

namespace Network

inductive Stage where
  | begun | completed | identifying | established | closed
deriving DecidableEq, Repr

/-- One connection as one of its ends sees it. -/
structure Connection where
  machine : MachineId
  dialled : Bool
  expect : Option MachineId
  initiation : Initiation Message
  /-- The message the handshake was completed with. -/
  peerHello : Option (Hello Message)
  /-- What the handshake came to. -/
  session : Option (Session Message)
  stage : Stage
  /-- The workspace this machine was in when it identified itself. -/
  ours : Option WorkspaceId
  /-- The machine and key that were authorised. -/
  admitted : Option (MachineId × PubKey)
  /-- What this end has sealed, in order. -/
  sent : List Message
  /-- How many frames this end has opened. -/
  received : ℕ
deriving DecidableEq

/-- A call of `merge`, `apply`, `on_input` or `on_cursor_owner`, and the position in the stream of
the frame that caused it. -/
structure Call where
  connection : ℕ
  position : ℕ
  message : Message
deriving DecidableEq

end Network

open Network in
structure Network where
  agents : MachineId → State
  connections : List Connection
  /-- Everything but plain data that was put on the network. -/
  seen : List (Bytes Message)
  calls : List Call
  /-- The connections reported as established. -/
  established : List ℕ

namespace Network

inductive Action where
  /-- A machine opens or accepts a connection. -/
  | «begin» (m : MachineId) (dialled : Bool) (expect : Option MachineId)
  | hello (i : ℕ) (h : Hello Message)
  | authorise (i : ℕ) (computerName : String)
  | frame (i : ℕ) (frame : Bytes Message)
  /-- The writing side sends a message. -/
  | write (i : ℕ) (m : Message)
  /-- What a machine knows changes. -/
  | agent (m : MachineId) (s : State)
  | close (i : ℕ)

def set (w : Network) (i : ℕ) (c : Connection) : Network :=
  { w with connections := w.connections.set i c }

/-- The connection after it has sealed a message on the session `s`. -/
def Connection.sealed (c : Connection) (s : Session Message) (m : Message) : Connection :=
  { c with session := some { s with send := (s.send.seal m).2 }, sent := c.sent ++ [m] }

/-- Seals a message on a connection whose session is `s`. -/
def send (w : Network) (i : ℕ) (c : Connection) (s : Session Message) (m : Message) : Network :=
  { w.set i (c.sealed s m) with seen := w.seen ++ [(s.send.seal m).1] }

def Connection.authorised (c : Connection) (s : Session Message) (ours : Option WorkspaceId) :
    Connection :=
  { c with stage := .identifying, ours := ours, admitted := some (s.peerMachine, s.peerKey) }

def identify (s : State) (me : MachineId) (computerName : String) : Message :=
  .identify (((s.machine me).map MachineRecord.displayName).getD computerName)
    (s.doc.map WorkspaceDoc.workspaceId)
    (((s.doc.map fun d => d.machinesPresent.length).getD 0) % 4294967296)

def apart (ours theirs : Option WorkspaceId) : Bool :=
  match ours, theirs with
  | some a, some b => a ≠ b
  | _, _ => false

def separate : Message := .goodbye "our configurations are separate; one of us will adopt the other"

/-- What a session does with the message it has read at a position of its stream. -/
def onMessage (w : Network) (i position : ℕ) (c : Connection) (s : Session Message) (m : Message) :
    Network :=
  match c.stage, m with
  | .identifying, .identify _ theirs _ =>
    if apart c.ours theirs then w.send i { c with stage := .closed } s separate
    else { w.set i { c with stage := .established } with established := w.established ++ [i] }
  | .established, .goodbye _ => w.set i { c with stage := .closed }
  | .established, m =>
    { w.set i c with
      calls := w.calls ++ if m.calls then [⟨i, position, m⟩] else [] }
  | _, _ => w.set i { c with stage := .closed }

def step (f : Fleet) (w : Network) : Action → Option Network
  | .begin m dialled expect =>
    if m ∈ f.machines then
      let x := InputShare.begin (f.identity m) w.connections.length
      some { w with
        connections := w.connections ++
          [⟨m, dialled, expect, x, none, none, .begun, none, none, [], 0⟩]
        seen := w.seen ++ [x.hello.signature] }
    else none
  | .hello i h => do
    let c ← w.connections[i]?
    if c.stage = .begun then
      match c.initiation.complete h c.dialled with
      | .error _ => some (w.set i { c with stage := .closed })
      | .ok s =>
        -- a machine that was dialled has to be the one that answers
        let expected := c.expect.all fun e => e = s.peerMachine
        some (w.set i { c with
          peerHello := some h
          session := some s
          stage := if expected then .completed else .closed })
    else none
  | .authorise i computerName => do
    let c ← w.connections[i]?
    let s ← c.session
    let agent := w.agents c.machine
    if c.stage = .completed then
      if agent.authorize s.peerMachine s.peerKey then
        some (w.send i (c.authorised s (agent.doc.map WorkspaceDoc.workspaceId)) s
          (identify agent c.machine computerName))
      else some (w.set i { c with stage := .closed })
    else none
  | .frame i frame => do
    let c ← w.connections[i]?
    let s ← c.session
    if c.stage = .identifying ∨ c.stage = .established then
      match s.receive.open frame with
      | .error _ => some (w.set i { c with stage := .closed })
      | .ok (m, d) =>
        let s := { s with receive := d }
        some (w.onMessage i c.received { c with session := some s, received := c.received + 1 } s m)
    else none
  | .write i m => do
    let c ← w.connections[i]?
    let s ← c.session
    if c.stage = .established then some (w.send i c s m) else none
  | .agent m s => some { w with agents := Function.update w.agents m s }
  | .close i => do
    let c ← w.connections[i]?
    some (w.set i { c with stage := .closed })

def Connection.opened (c : Connection) (s : Session Message) (d : Crypto.Direction Message)
    (stage : Stage) : Connection :=
  { c with session := some { s with receive := d }, received := c.received + 1, stage := stage }

/-- Every step, with what it needs and what it leads to. -/
inductive Stepped (f : Fleet) (w : Network) : Action → Network → Prop where
  | «begin» {m : MachineId} {dialled : Bool} {expect : Option MachineId} (hm : m ∈ f.machines) :
      Stepped f w (.begin m dialled expect) { w with
        connections := w.connections ++ [⟨m, dialled, expect,
          InputShare.begin (f.identity m) w.connections.length, none, none, .begun,
            none, none, [], 0⟩]
        seen := w.seen ++
          [(InputShare.begin (f.identity m) w.connections.length).hello.signature] }
  | closed {a : Action} {i : ℕ} {c : Connection} (hc : w.connections[i]? = some c) :
      Stepped f w a (w.set i { c with stage := .closed })
  | hello {i : ℕ} {c : Connection} {h : Hello Message} {s : Session Message} {stage : Stage}
      (hc : w.connections[i]? = some c) (hb : c.stage = .begun)
      (hs : c.initiation.complete h c.dialled = .ok s) (hst : stage ≠ .begun)
      (hst' : stage ≠ .identifying ∧ stage ≠ .established) :
      Stepped f w (.hello i h) (w.set i { c with
        peerHello := some h, session := some s, stage := stage })
  | authorise {i : ℕ} {c : Connection} {s : Session Message} {computerName : String}
      (hc : w.connections[i]? = some c) (hs : c.session = some s) (hb : c.stage = .completed)
      (ha : (w.agents c.machine).authorize s.peerMachine s.peerKey = true) :
      Stepped f w (.authorise i computerName) (w.send i
        (c.authorised s ((w.agents c.machine).doc.map WorkspaceDoc.workspaceId)) s
        (identify (w.agents c.machine) c.machine computerName))
  | established {i : ℕ} {c : Connection} {s : Session Message} {frame : Bytes Message} {m : Message}
      {d : Crypto.Direction Message} (hc : w.connections[i]? = some c) (hs : c.session = some s)
      (hb : c.stage = .identifying) (ho : s.receive.open frame = .ok (m, d)) :
      Stepped f w (.frame i frame) { w.set i (c.opened s d .established) with
        established := w.established ++ [i] }
  | parted {i : ℕ} {c : Connection} {s : Session Message} {frame : Bytes Message} {m : Message}
      {d : Crypto.Direction Message}
      (hc : w.connections[i]? = some c) (hs : c.session = some s) (hb : c.stage = .identifying)
      (ho : s.receive.open frame = .ok (m, d)) :
      Stepped f w (.frame i frame)
        (w.send i (c.opened s d .closed) { s with receive := d } separate)
  | read {i : ℕ} {c : Connection} {s : Session Message} {frame : Bytes Message} {m : Message}
      {d : Crypto.Direction Message}
      (hc : w.connections[i]? = some c) (hs : c.session = some s) (hb : c.stage = .established)
      (ho : s.receive.open frame = .ok (m, d)) :
      Stepped f w (.frame i frame) { w.set i (c.opened s d .established) with
        calls := w.calls ++ if m.calls then [⟨i, c.received, m⟩] else [] }
  | ended {i : ℕ} {c : Connection} {s : Session Message} {frame : Bytes Message} {m : Message}
      {d : Crypto.Direction Message}
      (hc : w.connections[i]? = some c) (hs : c.session = some s)
      (hb : c.stage = .identifying ∨ c.stage = .established)
      (ho : s.receive.open frame = .ok (m, d)) :
      Stepped f w (.frame i frame) (w.set i (c.opened s d .closed))
  | write {i : ℕ} {c : Connection} {s : Session Message} {m : Message}
      (hc : w.connections[i]? = some c) (hs : c.session = some s) (hb : c.stage = .established) :
      Stepped f w (.write i m) (w.send i c s m)
  | agent {m : MachineId} {s : State} :
      Stepped f w (.agent m s) { w with agents := Function.update w.agents m s }

theorem stepped_frame {f : Fleet} {w : Network} {i : ℕ} {c : Connection} {s : Session Message}
    {frame : Bytes Message} {m : Message} {d : Crypto.Direction Message}
    (hc : w.connections[i]? = some c)
    (hs : c.session = some s) (hb : c.stage = .identifying ∨ c.stage = .established)
    (ho : s.receive.open frame = .ok (m, d)) :
    Stepped f w (.frame i frame) (w.onMessage i c.received
      { c with session := some { s with receive := d }, received := c.received + 1 }
      { s with receive := d } m) := by
  unfold onMessage
  split
  · rename_i hst
    split_ifs
    · exact .parted hc hs hst ho
    · exact .established hc hs hst ho
  · exact .ended hc hs hb ho
  · rename_i hst _
    have h : Stepped f w (.frame i frame) _ := .read hc hs hst ho
    rw [Connection.opened, ← hst] at h
    exact h
  · exact .ended hc hs hb ho

theorem stepped {f : Fleet} {w t : Network} {a : Action} (hs : step f w a = some t) :
    Stepped f w a t := by
  cases a with
  | «begin» m dialled expect =>
    simp only [step, Option.ite_none_right_eq_some, Option.some.injEq] at hs
    obtain ⟨hm, rfl⟩ := hs
    exact .begin hm
  | hello i h =>
    simp only [step, Option.bind_eq_bind, Option.bind_eq_some_iff,
      Option.ite_none_right_eq_some] at hs
    obtain ⟨c, hc, hb, hs⟩ := hs
    split at hs
    · obtain rfl := Option.some.inj hs
      exact .closed hc
    · rename_i s hok
      obtain rfl := Option.some.inj hs
      refine .hello hc hb hok ?_ ?_ <;> split_ifs <;> simp
  | authorise i computerName =>
    simp only [step, Option.bind_eq_bind, Option.bind_eq_some_iff,
      Option.ite_none_right_eq_some] at hs
    obtain ⟨c, hc, s, hss, hb, hs⟩ := hs
    split_ifs at hs with ha
    · obtain rfl := Option.some.inj hs
      exact .authorise hc hss hb ha
    · obtain rfl := Option.some.inj hs
      exact .closed hc
  | frame i frame =>
    simp only [step, Option.bind_eq_bind, Option.bind_eq_some_iff,
      Option.ite_none_right_eq_some] at hs
    obtain ⟨c, hc, s, hss, hb, hs⟩ := hs
    split at hs
    · obtain rfl := Option.some.inj hs
      exact .closed hc
    · rename_i m d ho
      obtain rfl := Option.some.inj hs
      exact stepped_frame hc hss hb ho
  | write i m =>
    simp only [step, Option.bind_eq_bind, Option.bind_eq_some_iff,
      Option.ite_none_right_eq_some, Option.some.injEq] at hs
    obtain ⟨c, hc, s, hss, hb, rfl⟩ := hs
    exact .write hc hss hb
  | agent m s =>
    obtain rfl := Option.some.inj hs
    exact .agent
  | close i =>
    simp only [step, Option.bind_eq_bind, Option.bind_eq_some_iff, Option.some.injEq] at hs
    obtain ⟨c, hc, rfl⟩ := hs
    exact .closed hc

def start (agents : MachineId → State) : Network := ⟨agents, [], [], [], []⟩

def known (f : Fleet) (w : Network) : Bytes Message → Prop
  | .exponent (.foreign _) => True
  | .signingKey k => ¬ f.Owns k
  | t => t ∈ w.seen

/-- Everything that arrives could be made by the attacker. -/
def Attacked (f : Fleet) (w : Network) : Action → Prop
  | .hello _ h => Derives (w.known f) h.signature
  | .frame _ frame => Derives (w.known f) frame
  | _ => True

end Network
end InputShare

import InputShare.Net.Actor
import InputShare.Net.Signature
import InputShare.Lib.Runs

/-! One connection to one peer, from handshake to teardown: `run`, and what the task it runs in
makes of its result. Every await is a step, so the other tasks may come in between; messages are
those that were opened and parsed. -/
namespace InputShare

namespace SessionTask

inductive Stage where
  | dialling
  /-- Our `Hello` goes out, theirs is awaited. -/
  | greeting
  | greeted (peer : MachineId) (key : PubKey)
  | admitted (peer : MachineId) (key : PubKey)
  /-- We have identified ourselves and wait for them to. -/
  | identifying (peer : MachineId) (key : PubKey) (ours : Option WorkspaceId)
  | established (peer : MachineId)
  /-- The document is being sent. -/
  | syncing (peer : MachineId) (doc : WorkspaceDoc)
  | running (peer : MachineId)
  | closing (peer : MachineId) (reason : Reason)
  /-- `run` returned an error. -/
  | failed (e : NetError)
  | ended
deriving DecidableEq

/-- What the network and the scheduler do next to a session. -/
inductive Event where
  | connected
  | hello (h : Hello Message)
  /-- A `Hello` with a signature on which the decoder panics. -/
  | panicked (signature : String)
  | authorise
  | identify
  | identified (m : Message)
  | snapshot
  /-- The frame with the document, of this length, is written, or the connection fails. -/
  | docFull (length : ℕ) (failure : Option NetError)
  | read (m : Message)
  | failed (e : NetError)
  | close
  | report

end SessionTask

structure SessionTask where
  number : ℕ
  /-- Whom a dialled connection is meant for. -/
  expect : Option MachineId
  addr : String
  initiation : Initiation Message
  stage : SessionTask.Stage
  /-- The document taken once the session was established. -/
  taken : Option (Option WorkspaceDoc)
  /-- What it has written since. -/
  sent : List Message

namespace SessionTask

def dialled (t : SessionTask) : Bool := t.expect.isSome

/-- `run` has returned. -/
def finished (t : SessionTask) : Bool :=
  match t.stage with
  | .failed _ | .ended => true
  | _ => false

def spawnDial (identity : Identity) (number : ℕ) (expect : MachineId) (addr : String) :
    SessionTask :=
  ⟨number, some expect, addr, begin identity number, .dialling, none, []⟩

def spawnAccepted (identity : Identity) (number : ℕ) (addr : String) : SessionTask :=
  ⟨number, none, addr, begin identity number, .greeting, none, []⟩

def maxFrame : ℕ := 4194304

def writeFrame (length : ℕ) (failure : Option NetError) : Option NetError :=
  if maxFrame < length then some (.frameTooLarge length) else failure

def onHello (t : SessionTask) (h : Hello Message) : Stage :=
  match t.initiation.complete h t.dialled with
  | .error e => .failed e
  | .ok s =>
    if t.expect.any (· ≠ s.peerMachine) then
      .failed (.handshake "connected to a different machine")
    else .greeted s.peerMachine s.peerKey

def onIdentified (t : SessionTask) (peer : MachineId) (key : PubKey) (ours : Option WorkspaceId)
    (m : Message) : Stage × List SessionOutcome :=
  match m with
  | .identify displayName theirs machines =>
    match ours, theirs with
    | some o, some w =>
      if o ≠ w then (.ended, [.differentWorkspaces peer displayName key w machines])
      else (.established peer, [.established peer displayName t.number])
    | _, _ => (.established peer, [.established peer displayName t.number])
  | _ => (.failed (.handshake "peer did not identify itself"), [])

def onRead (agent : State) (peer : MachineId) (m : Message) :
    Stage × State × List SessionOutcome :=
  match m with
  | .docFull doc =>
    match agent.merge doc with
    | .ok (s, changed) => (.running peer, s, if changed then [.workspaceChanged] else [])
    | .error e => (.closing peer (.incompatible e), agent, [])
  | .update u =>
    match agent.apply u with
    | .ok (s, changed) => (.running peer, s, if changed then [.workspaceChanged] else [])
    | .error e => (.closing peer (.rejectedUpdate e), agent, [])
  | .goodbye text => (.closing peer (.goodbye text), agent, [])
  | .input _ | .cursorOwner _ | .ping _ | .pong _ | .identify .. => (.running peer, agent, [])

def reasonOf : NetError → Reason
  | .timeout => .quiet
  | e => .error e

/-- A step of the task against the agent it serves: what becomes of both, and what is reported to
the actor. -/
def step (t : SessionTask) (agent : State) (e : Event) :
    Option (SessionTask × State × List SessionOutcome) :=
  match t.stage, e with
  | .dialling, .connected => some ({ t with stage := .greeting }, agent, [])
  | .greeting, .hello h => some ({ t with stage := t.onHello h }, agent, [])
  -- the panic ends the task, which reports nothing any more
  | .greeting, .panicked signature =>
    if Sig64.deserialize signature = .panic then some ({ t with stage := .ended }, agent, [])
    else none
  | .greeted peer key, .authorise =>
    if agent.authorize peer key then some ({ t with stage := .admitted peer key }, agent, [])
    else some ({ t with stage := .ended }, agent, [.rejected peer key t.addr])
  | .admitted peer key, .identify =>
    let ours := agent.doc.map WorkspaceDoc.workspaceId
    some ({ t with stage := .identifying peer key ours }, agent, [])
  | .identifying peer key ours, .identified m =>
    let (stage, outcomes) := t.onIdentified peer key ours m
    some ({ t with stage := stage }, agent, outcomes)
  | .established peer, .snapshot =>
    match agent.doc with
    | some doc => some ({ t with stage := .syncing peer doc, taken := some (some doc) }, agent, [])
    | none => some ({ t with stage := .running peer, taken := some none }, agent, [])
  | .syncing peer doc, .docFull length failure =>
    match writeFrame length failure with
    | some error => some ({ t with stage := .failed error }, agent, [])
    | none => some ({ t with stage := .running peer, sent := [.docFull doc] }, agent, [])
  | .running peer, .read m =>
    let (stage, agent, outcomes) := onRead agent peer m
    some ({ t with stage := stage }, agent, outcomes)
  | .running peer, .failed error =>
    some ({ t with stage := .closing peer (reasonOf error) }, agent, [])
  | .dialling, .failed error | .greeting, .failed error | .admitted _ _, .failed error
  | .identifying _ _ _, .failed error => some ({ t with stage := .failed error }, agent, [])
  | .closing peer reason, .close =>
    some ({ t with stage := .ended }, agent, [.closed peer reason])
  -- only the task of a dialled connection reports an error
  | .failed error, .report =>
    let outcomes := t.expect.toList.map fun expect => .closed expect (.error error)
    some ({ t with stage := .ended }, agent, outcomes)
  | _, _ => none

def Stage.early : Stage → Bool
  | .dialling | .greeting | .greeted .. | .admitted .. | .identifying .. => true
  | _ => false

/-- The peer of a session that is established and not over. -/
def Stage.open : Stage → Option MachineId
  | .established peer | .syncing peer _ | .running peer | .closing peer _ => some peer
  | _ => none

/-- The peer of a session whose handshake is complete. -/
def Stage.peer : Stage → Option MachineId
  | .greeted peer _ | .admitted peer _ | .identifying peer _ _ => some peer
  | stage => stage.open

inductive Stepped (t : SessionTask) (agent : State) :
    Event → SessionTask → State → List SessionOutcome → Prop where
  | connected (h : t.stage = .dialling) :
      Stepped t agent .connected { t with stage := .greeting } agent []
  | greeted {x : Hello Message} {peer : MachineId} {key : PubKey} (h : t.stage = .greeting)
      (hx : ∀ expect ∈ t.expect, expect = peer) :
      Stepped t agent (.hello x) { t with stage := .greeted peer key } agent []
  | refused {x : Hello Message} {e : NetError} (h : t.stage = .greeting) :
      Stepped t agent (.hello x) { t with stage := .failed e } agent []
  | panicked {signature : String} (h : t.stage = .greeting)
      (hp : Sig64.deserialize signature = .panic) :
      Stepped t agent (.panicked signature) { t with stage := .ended } agent []
  | admitted {peer : MachineId} {key : PubKey} (h : t.stage = .greeted peer key)
      (ha : agent.authorize peer key = true) :
      Stepped t agent .authorise { t with stage := .admitted peer key } agent []
  | rejected {peer : MachineId} {key : PubKey} (h : t.stage = .greeted peer key)
      (ha : agent.authorize peer key = false) :
      Stepped t agent .authorise { t with stage := .ended } agent [.rejected peer key t.addr]
  | identify {peer : MachineId} {key : PubKey} {ours : Option WorkspaceId}
      (h : t.stage = .admitted peer key) :
      Stepped t agent .identify { t with stage := .identifying peer key ours } agent []
  | different {peer : MachineId} {key : PubKey} {ours : Option WorkspaceId} {m : Message}
      {displayName : String} {theirs : WorkspaceId} {size : ℕ}
      (h : t.stage = .identifying peer key ours) :
      Stepped t agent (.identified m) { t with stage := .ended } agent
        [.differentWorkspaces peer displayName key theirs size]
  | established {peer : MachineId} {key : PubKey} {ours : Option WorkspaceId} {m : Message}
      {displayName : String} (h : t.stage = .identifying peer key ours) :
      Stepped t agent (.identified m) { t with stage := .established peer } agent
        [.established peer displayName t.number]
  | unidentified {peer : MachineId} {key : PubKey} {ours : Option WorkspaceId} {m : Message}
      {e : NetError} (h : t.stage = .identifying peer key ours) :
      Stepped t agent (.identified m) { t with stage := .failed e } agent []
  | snapshot {peer : MachineId} {doc : WorkspaceDoc} (h : t.stage = .established peer)
      (hd : agent.doc = some doc) :
      Stepped t agent .snapshot { t with stage := .syncing peer doc, taken := some (some doc) }
        agent []
  | nothing {peer : MachineId} (h : t.stage = .established peer) (hd : agent.doc = none) :
      Stepped t agent .snapshot { t with stage := .running peer, taken := some none } agent []
  | synced {peer : MachineId} {doc : WorkspaceDoc} {length : ℕ} {failure : Option NetError}
      (h : t.stage = .syncing peer doc) (hw : writeFrame length failure = none) :
      Stepped t agent (.docFull length failure)
        { t with stage := .running peer, sent := [.docFull doc] } agent []
  | unsynced {peer : MachineId} {doc : WorkspaceDoc} {length : ℕ} {failure : Option NetError}
      {e : NetError} (h : t.stage = .syncing peer doc) (hw : writeFrame length failure = some e) :
      Stepped t agent (.docFull length failure) { t with stage := .failed e } agent []
  | read {peer : MachineId} {m : Message} {stage : Stage} {s : State} {os : List SessionOutcome}
      (h : t.stage = .running peer) (hr : onRead agent peer m = (stage, s, os))
      (hstage : stage = .running peer ∨ ∃ reason, stage = .closing peer reason)
      (hos : os = [] ∨ os = [.workspaceChanged]) :
      Stepped t agent (.read m) { t with stage := stage } s os
  | lost {peer : MachineId} {e : NetError} (h : t.stage = .running peer) :
      Stepped t agent (.failed e) { t with stage := .closing peer (reasonOf e) } agent []
  | dropped {e : NetError} (h : t.stage.early = true) :
      Stepped t agent (.failed e) { t with stage := .failed e } agent []
  | close {peer : MachineId} {reason : Reason} (h : t.stage = .closing peer reason) :
      Stepped t agent .close { t with stage := .ended } agent [.closed peer reason]
  | report {e : NetError} (h : t.stage = .failed e) :
      Stepped t agent .report { t with stage := .ended } agent
        (t.expect.toList.map fun expect => .closed expect (.error e))

theorem onRead_spec {agent s : State} {peer : MachineId} {m : Message} {stage : Stage}
    {os : List SessionOutcome} (h : onRead agent peer m = (stage, s, os)) :
    (stage = .running peer ∨ ∃ reason, stage = .closing peer reason) ∧
      (os = [] ∨ os = [.workspaceChanged]) := by
  have hif : ∀ c : Bool, (if c then [SessionOutcome.workspaceChanged] else []) = [] ∨
      (if c then [SessionOutcome.workspaceChanged] else []) = [.workspaceChanged] := by decide
  unfold onRead at h
  split at h
  · split at h
    · obtain ⟨rfl, rfl, rfl⟩ := h
      exact ⟨.inl rfl, hif _⟩
    · obtain ⟨rfl, rfl, rfl⟩ := h
      exact ⟨.inr ⟨_, rfl⟩, .inl rfl⟩
  · split at h
    · obtain ⟨rfl, rfl, rfl⟩ := h
      exact ⟨.inl rfl, hif _⟩
    · obtain ⟨rfl, rfl, rfl⟩ := h
      exact ⟨.inr ⟨_, rfl⟩, .inl rfl⟩
  · obtain ⟨rfl, rfl, rfl⟩ := h
    exact ⟨.inr ⟨_, rfl⟩, .inl rfl⟩
  all_goals
    obtain ⟨rfl, rfl, rfl⟩ := h
    exact ⟨.inl rfl, .inl rfl⟩

theorem onHello_spec (t : SessionTask) (x : Hello Message) :
    (∃ peer key, t.onHello x = .greeted peer key ∧ ∀ expect ∈ t.expect, expect = peer) ∨
      ∃ e, t.onHello x = .failed e := by
  unfold onHello
  cases t.initiation.complete x t.dialled with
  | error e => exact .inr ⟨e, rfl⟩
  | ok s =>
    by_cases hx : t.expect.any (· ≠ s.peerMachine) = true
    · exact .inr ⟨.handshake "connected to a different machine", by simp only [hx, if_true]⟩
    · refine .inl ⟨s.peerMachine, s.peerKey, by simp only [hx, Bool.false_eq_true, if_false], ?_⟩
      intro expect he
      rw [Option.mem_def] at he
      simpa [he] using hx

theorem stepped {t u : SessionTask} {agent s : State} {e : Event} {os : List SessionOutcome}
    (h : t.step agent e = some (u, s, os)) : Stepped t agent e u s os := by
  unfold step at h
  split at h
  next hstage =>
    obtain ⟨rfl, rfl, rfl⟩ := h
    exact .connected hstage
  next x hstage =>
    obtain ⟨rfl, rfl, rfl⟩ := h
    obtain ⟨peer, key, he, hx⟩ | ⟨e, he⟩ := t.onHello_spec x
    · rw [he]
      exact .greeted hstage hx
    · rw [he]
      exact .refused hstage
  next signature hstage =>
    obtain ⟨hp, h⟩ := Option.ite_none_right_eq_some.mp h
    obtain ⟨rfl, rfl, rfl⟩ := h
    exact .panicked hstage hp
  next peer key hstage =>
    split at h
    next ha =>
      obtain ⟨rfl, rfl, rfl⟩ := h
      exact .admitted hstage ha
    next ha =>
      obtain ⟨rfl, rfl, rfl⟩ := h
      exact .rejected hstage (by simpa using ha)
  next peer key hstage =>
    obtain ⟨rfl, rfl, rfl⟩ := h
    exact .identify hstage
  next peer key ours m hstage =>
    obtain ⟨rfl, rfl, rfl⟩ := h
    split
    · split
      · split
        · exact .different hstage
        · exact .established hstage
      · exact .established hstage
    · exact .unidentified hstage
  next peer hstage =>
    split at h
    next doc hd =>
      obtain ⟨rfl, rfl, rfl⟩ := h
      exact .snapshot hstage hd
    next hd =>
      obtain ⟨rfl, rfl, rfl⟩ := h
      exact .nothing hstage hd
  next peer doc length failure hstage =>
    split at h
    next error hw =>
      obtain ⟨rfl, rfl, rfl⟩ := h
      exact .unsynced hstage hw
    next hw =>
      obtain ⟨rfl, rfl, rfl⟩ := h
      exact .synced hstage hw
  next peer m hstage =>
    obtain ⟨rfl, rfl, rfl⟩ := h
    obtain ⟨hr, hos⟩ := @onRead_spec agent _ peer m _ _ rfl
    exact .read hstage rfl hr hos
  next peer error hstage =>
    obtain ⟨rfl, rfl, rfl⟩ := h
    exact .lost hstage
  next error hstage =>
    obtain ⟨rfl, rfl, rfl⟩ := h
    exact .dropped (by rw [hstage]; rfl)
  next error hstage =>
    obtain ⟨rfl, rfl, rfl⟩ := h
    exact .dropped (by rw [hstage]; rfl)
  next error hstage =>
    obtain ⟨rfl, rfl, rfl⟩ := h
    exact .dropped (by rw [hstage]; rfl)
  next error hstage =>
    obtain ⟨rfl, rfl, rfl⟩ := h
    exact .dropped (by rw [hstage]; rfl)
  next peer reason hstage =>
    obtain ⟨rfl, rfl, rfl⟩ := h
    exact .close hstage
  next error hstage =>
    obtain ⟨rfl, rfl, rfl⟩ := h
    exact .report hstage
  next => cases h

end SessionTask
end InputShare

import InputShare.Net.Service

/-! How a session ends: what each execution of its task reports to the actor. -/
namespace InputShare
open Runs SessionTask

namespace SessionTask

/-- An execution of a task: what it has reported, and what has happened to it. -/
structure Execution where
  task : SessionTask
  reported : List SessionOutcome
  events : List Event

/-- The agent may have changed since the last step. -/
def Execution.step (x : Execution) (a : State × Event) : Option Execution :=
  (x.task.step a.1 a.2).map fun p => ⟨p.1, x.reported ++ p.2.2, x.events ++ [a.2]⟩

/-- The document could not be sent: the frame is too large or the connection fails. -/
def Event.unsynced : Event → Bool
  | .docFull length failure => (writeFrame length failure).isSome
  | _ => false

def Fresh (t : SessionTask) : Prop := t.stage = if t.dialled then .dialling else .greeting

def closes (peer : MachineId) : SessionOutcome → Bool
  | .closed id _ => id = peer
  | _ => false

def ClosedOnce (x : Execution) (peer : MachineId) : Prop := x.reported.countP (closes peer) = 1

/-- The session with `peer` was reported to be established, and nothing but changes of the
document since. -/
def Opened (peer : MachineId) (os : List SessionOutcome) : Prop :=
  ∃ displayName number n,
    os = .established peer displayName number :: List.replicate n .workspaceChanged

theorem Opened.countP {peer : MachineId} {os : List SessionOutcome} (h : Opened peer os)
    (id : MachineId) : os.countP (closes id) = 0 := by
  obtain ⟨displayName, number, n, rfl⟩ := h
  simp [List.countP_eq_zero, closes]

theorem Opened.append {peer : MachineId} {os more : List SessionOutcome} (h : Opened peer os)
    (hm : more = [] ∨ more = [.workspaceChanged]) : Opened peer (os ++ more) := by
  obtain ⟨displayName, number, n, rfl⟩ := h
  obtain rfl | rfl := hm
  · exact ⟨displayName, number, n, by simp⟩
  · exact ⟨displayName, number, n + 1, by simp [List.replicate_succ']⟩

theorem Opened.peer_eq {peer id : MachineId} {os more : List SessionOutcome} {name : String}
    {number : ℕ} (h : Opened peer os) (hm : ∀ o ∈ more, Service.isEstablished o = false)
    (he : .established id name number ∈ os ++ more) : id = peer := by
  obtain ⟨displayName, k, n, rfl⟩ := h
  obtain he | he := List.mem_append.mp he
  · obtain he | he := List.mem_cons.mp he
    · exact (SessionOutcome.established.inj he).1
    · cases List.eq_of_mem_replicate he
  · cases hm _ he

/-- What has been reported at each stage, and whether the document could not be sent. -/
inductive Account (expect : Option MachineId) : Stage → List SessionOutcome → Bool → Prop where
  | early {stage : Stage} (h : stage.early = true) : Account expect stage [] false
  | opened {stage : Stage} {peer : MachineId} {os : List SessionOutcome}
      (h : stage.open = some peer) (hos : Opened peer os) : Account expect stage os false
  | failed {e : NetError} : Account expect (.failed e) [] false
  | unsynced {e : NetError} {peer : MachineId} {os : List SessionOutcome}
      (hx : ∀ p ∈ expect, p = peer) (hos : Opened peer os) : Account expect (.failed e) os true
  | never {os : List SessionOutcome} (h : ∀ o ∈ os, Service.isEstablished o = false) :
      Account expect .ended os false
  | closed {peer : MachineId} {reason : Reason} {os : List SessionOutcome}
      (hos : Opened peer os) : Account expect .ended (os ++ [.closed peer reason]) false
  | reported {peer : MachineId} {reason : Reason} {os : List SessionOutcome}
      (hx : ∀ p ∈ expect, p = peer) (hos : Opened peer os) :
      Account expect .ended (os ++ expect.toList.map fun p => .closed p reason) true

theorem Account.of_early {expect : Option MachineId} {stage : Stage} {os : List SessionOutcome}
    {r : Bool} (h : Account expect stage os r) (he : stage.early = true) : os = [] ∧ r = false := by
  cases h with
  | early => exact ⟨rfl, rfl⟩
  | opened ho => cases stage <;> simp [Stage.open, Stage.early] at ho he
  | failed | unsynced | never | closed | reported => cases he

/-- The machine that answered a dialled connection is the one it was meant for. -/
def RightPeer (t : SessionTask) : Prop := ∀ peer ∈ t.stage.peer, ∀ p ∈ t.expect, p = peer

theorem RightPeer.step {t u : SessionTask} {agent s : State} {e : Event}
    {os : List SessionOutcome} (h : RightPeer t) (hstep : Stepped t agent e u s os) :
    RightPeer u := by
  unfold RightPeer at h ⊢
  cases hstep with
  | greeted hst hx => simpa [Stage.peer] using hx
  | read hst hr hstage =>
    rw [hst] at h
    obtain rfl | ⟨reason, rfl⟩ := hstage <;> simpa [Stage.peer, Stage.open] using h
  | admitted hst | identify hst | established hst | snapshot hst | nothing hst | synced hst
  | lost hst =>
    rw [hst] at h
    simpa [Stage.peer, Stage.open] using h
  | _ => simp [Stage.peer, Stage.open]

theorem Account.step {t u : SessionTask} {agent s : State} {e : Event} {r : Bool}
    {os more : List SessionOutcome} (h : Account t.expect t.stage os r) (hr : RightPeer t)
    (hstep : Stepped t agent e u s more) :
    Account u.expect u.stage (os ++ more) (r || e.unsynced) := by
  unfold RightPeer at hr
  cases hstep with
  | connected hst | greeted hst | admitted hst | identify hst =>
    rw [hst] at h
    cases h with
    | early => exact .early rfl
    | opened ho => cases ho
  | refused hst | unidentified hst =>
    rw [hst] at h
    cases h with
    | early => exact .failed
    | opened ho => cases ho
  | dropped hst =>
    obtain ⟨rfl, rfl⟩ := h.of_early hst
    exact .failed
  | rejected hst | different hst | panicked hst =>
    rw [hst] at h
    cases h with
    | early => exact .never (by simp [Service.isEstablished])
    | opened ho => cases ho
  | established hst =>
    rw [hst] at h
    cases h with
    | early => exact .opened rfl ⟨_, _, 0, rfl⟩
    | opened ho => cases ho
  | snapshot hst | nothing hst | lost hst =>
    rw [hst] at h
    cases h with
    | early he => cases he
    | opened ho hos =>
      obtain rfl := Option.some.inj ho
      rw [List.append_nil]
      exact .opened rfl hos
  | synced hst hw =>
    rw [hst] at h
    cases h with
    | early he => cases he
    | opened ho hos =>
      obtain rfl := Option.some.inj ho
      rw [List.append_nil]
      simpa [Event.unsynced, hw] using Account.opened rfl hos
  | unsynced hst hw =>
    rw [hst] at h hr
    cases h with
    | early he => cases he
    | opened ho hos =>
      rw [List.append_nil]
      simpa [Event.unsynced, hw] using Account.unsynced (hr _ ho) hos
  | read hst hrd hstage hmore =>
    rw [hst] at h
    cases h with
    | early he => cases he
    | opened ho hos =>
      obtain rfl := Option.some.inj ho
      obtain rfl | ⟨reason, rfl⟩ := hstage
      · exact .opened rfl (hos.append hmore)
      · exact .opened rfl (hos.append hmore)
  | close hst =>
    rw [hst] at h
    cases h with
    | early he => cases he
    | opened ho hos =>
      obtain rfl := Option.some.inj ho
      exact .closed hos
  | report hst =>
    rw [hst] at h
    cases h with
    | early he => cases he
    | opened ho => cases ho
    | failed => exact .never (by simp [Service.isEstablished])
    | unsynced hx hos => exact .reported hx hos

theorem Stepped.expect {t u : SessionTask} {agent s : State} {e : Event}
    {os : List SessionOutcome} (h : Stepped t agent e u s os) :
    u.expect = t.expect ∧ u.number = t.number := by
  cases h <;> exact ⟨rfl, rfl⟩

theorem Stepped.open_step {t u : SessionTask} {agent s : State} {e : Event}
    {os : List SessionOutcome} {p : MachineId} (h : Stepped t agent e u s os)
    (ho : t.stage.open = some p) :
    u.stage.open = some p ∨ (∃ reason, .closed p reason ∈ os) ∨
      e.unsynced = true ∧ ∃ error, u.stage = .failed error := by
  cases h with
  | snapshot hst | nothing hst | synced hst | lost hst =>
    rw [hst] at ho
    exact .inl ho
  | read hst hrd hstage =>
    rw [hst] at ho
    obtain rfl | ⟨reason, rfl⟩ := hstage <;> exact .inl ho
  | unsynced hst hw => exact .inr (.inr ⟨by simp [Event.unsynced, hw], _, rfl⟩)
  | @close peer reason hst =>
    rw [hst] at ho
    obtain rfl := Option.some.inj ho
    exact .inr (.inl ⟨reason, List.mem_cons_self⟩)
  | connected hst | greeted hst | refused hst | admitted hst | rejected hst | identify hst
  | different hst | established hst | unidentified hst | report hst | panicked hst =>
    rw [hst] at ho
    cases ho
  | dropped hst => cases hstage : t.stage <;> simp [hstage, Stage.open, Stage.early] at ho hst

theorem Stepped.opens {t u : SessionTask} {agent s : State} {e : Event}
    {os : List SessionOutcome} {p : MachineId} (h : Stepped t agent e u s os)
    (ho : u.stage.open = some p) :
    t.stage.open = some p ∨ ∃ name, os = [.established p name t.number] := by
  cases h with
  | snapshot hst | nothing hst | synced hst | lost hst =>
    rw [hst]
    exact .inl ho
  | read hst hrd hstage =>
    rw [hst]
    obtain rfl | ⟨reason, rfl⟩ := hstage <;> exact .inl ho
  | established hst =>
    obtain rfl := Option.some.inj ho
    exact .inr ⟨_, rfl⟩
  | _ => cases ho

theorem Stepped.open_of_established {t u : SessionTask} {agent s : State} {e : Event}
    {os : List SessionOutcome} {p : MachineId} {name : String} {n : ℕ}
    (h : Stepped t agent e u s os) (ho : .established p name n ∈ os) :
    u.stage.open = some p := by
  cases h with
  | established =>
    obtain ⟨rfl, -, -⟩ := SessionOutcome.established.inj (List.mem_singleton.mp ho)
    rfl
  | read hst hrd hstage hmore => obtain rfl | rfl := hmore <;> simp at ho
  | _ => simp at ho

theorem Stepped.failed_step {t u : SessionTask} {agent s : State} {e : Event}
    {os : List SessionOutcome} {p : MachineId} {error : NetError} (h : Stepped t agent e u s os)
    (hx : t.expect = some p) (hst : t.stage = .failed error) : .closed p (.error error) ∈ os := by
  cases h with
  | report hr =>
    obtain rfl := Stage.failed.inj (hst.symm.trans hr)
    simp [hx]
  | dropped hearly =>
    rw [hst] at hearly
    cases hearly
  | connected hr | greeted hr | refused hr | admitted hr | rejected hr | identify hr
  | different hr | established hr | unidentified hr | snapshot hr | nothing hr | synced hr
  | unsynced hr | read hr | lost hr | close hr | panicked hr =>
    rw [hst] at hr
    cases hr

/-- Every execution accounts for what it has reported. -/
theorem account_run {t : SessionTask} {as : List (State × Event)} {x : Execution} (ht : Fresh t)
    (h : Run Execution.step Any ⟨t, [], []⟩ as x) :
    Account x.task.expect x.task.stage x.reported (x.events.any Event.unsynced) := by
  refine (h.invariant (I := fun x => RightPeer x.task ∧
    Account x.task.expect x.task.stage x.reported (x.events.any Event.unsynced)) ?_ ⟨?_, ?_⟩).2
  · rintro x ⟨agent, e⟩ y ⟨hr, hx⟩ - hs
    obtain ⟨⟨u, s, os⟩, hu, rfl⟩ := Option.map_eq_some_iff.mp hs
    have hstep := stepped hu
    refine ⟨hr.step hstep, ?_⟩
    simpa [List.any_append] using hx.step hr hstep
  · unfold RightPeer
    rw [ht]
    cases t.dialled <;> simp [Stage.peer, Stage.open]
  · rw [show t.stage = _ from ht]
    cases t.dialled <;> exact .early rfl

/-- A session that was established reports its end exactly once, unless it was accepted and its
document could not be sent: only the task of a dialled connection reports an error. -/
theorem closedOnce_iff {t : SessionTask} {as : List (State × Event)} {x : Execution}
    (ht : Fresh t) (h : Run Execution.step Any ⟨t, [], []⟩ as x) (hend : x.task.stage = .ended)
    {peer : MachineId} {name : String} {number : ℕ}
    (hest : .established peer name number ∈ x.reported) :
    ClosedOnce x peer ↔ t.dialled = true ∨ x.events.any Event.unsynced = false := by
  have hacc := account_run ht h
  have hexpect : x.task.expect = t.expect := by
    refine h.invariant (I := fun x => x.task.expect = t.expect) ?_ rfl
    rintro x ⟨agent, e⟩ y hx - hs
    obtain ⟨⟨u, s, os⟩, hu, rfl⟩ := Option.map_eq_some_iff.mp hs
    exact (stepped hu).expect.1.trans hx
  rw [hend] at hacc
  unfold ClosedOnce
  generalize x.events.any Event.unsynced = r at hacc ⊢
  generalize x.reported = os at hacc hest ⊢
  rw [dialled, ← hexpect]
  cases hacc with
  | early he => cases he
  | opened ho => cases ho
  | never hn => cases hn _ hest
  | closed hos =>
    obtain rfl := hos.peer_eq (by simp [Service.isEstablished]) hest
    simp [hos.countP, closes]
  | reported hx hos =>
    obtain rfl := hos.peer_eq (by simp [Service.isEstablished]) hest
    cases hexp : x.task.expect with
    | none => simp [hos.countP]
    | some p =>
      obtain rfl := hx p hexp
      simp [hos.countP, closes]

end SessionTask
end InputShare

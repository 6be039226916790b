import InputShare.Agent.Edits
import InputShare.Core.Merging
import InputShare.Lib.Broadcast

/-! The task that publishes this machine's screens. It waits for announced changes and compares its
record with the screens after each, so that a record without screens gets them. -/
namespace InputShare

inductive AgentEvent where
  | changed
deriving DecidableEq, Repr

namespace Refresher
open Broadcast Runs

def eventCapacity : ℕ := 64

/-- Where the task is. From its first turn on it has a position in the channel. -/
inductive Task where
  | spawned
  | receiving (pos : ℕ)
  /-- A run has found that the record has to be written. -/
  | publishing (pos : ℕ) (edit : PendingEdit)
  /-- It has written the record and has not announced that yet. -/
  | announcing (pos : ℕ)
  /-- It has nothing more to do, but for the network to take the update. -/
  | finishing (pos : ℕ)
  | ended
deriving DecidableEq, Repr

namespace Task

def position : Task → Option ℕ
  | .receiving pos | .publishing pos _ | .announcing pos | .finishing pos => some pos
  | .spawned | .ended => none

/-- A run has started and the task is not back to receive. -/
def busy : Task → Bool
  | .publishing .. | .announcing _ | .finishing _ => true
  | _ => false

end Task

structure World where
  /-- The agent, and the edits of others that have read a record and not written it. -/
  edits : Edits.World
  /-- The screens as the system reports them. -/
  displays : List DisplayInfo
  /-- What was announced. -/
  sent : List AgentEvent
  task : Task
  /-- Changes that were made and are still to be announced. -/
  owed : ℕ
  /-- A change was announced and no run of `publish_local_facts` has started since. -/
  stale : Bool
  /-- The screens were changed since a run started. -/
  moved : Bool

inductive Action where
  /-- A monitor is plugged in, or unplugged. -/
  | plug (displays : List DisplayInfo)
  /-- Somebody else's run of `publish_local_facts` starts. -/
  | publish
  /-- One half of a call, or something from a peer. -/
  | edit (a : Edits.Action)
  /-- The agent takes an event of the network; `cleared` says whether the workspace file could be
  removed, if it had to be. -/
  | netEvent (now : ℕ) (e : NetEvent) (cleared : Bool)
  /-- One of the changes made is announced. -/
  | announce
  /-- Something that is not in the document has changed, and is announced. -/
  | note
  /-- The task's first turn. -/
  | subscribe
  | receive
  | write (now : ℕ)
  | tell
  | finish

/-- The first half of `publish_local_facts`. -/
def isRun : Edits.Action → Bool
  | .read (.publishLocalFacts ..) => true
  | _ => false

/-- Whether half a call, or something from a peer, is announced later. -/
def announces (me : MachineId) (w : Edits.World) : Edits.Action → Bool
  | .read _ => false
  | .write i now => w.pending[i]?.any fun p => (w.agent.upsertMachine me now p.edited).isOk
  | .update u =>
    match w.agent.apply u with
    | .ok (_, changed) => changed
    | .error _ => false
  | .merge doc =>
    match w.agent.merge doc with
    | .ok (_, changed) => changed
    | .error _ => false
  | .change now op => (w.agent.mutate me now op).isOk

/-- Whether an event of the network is: not when the configuration is kept, nor when giving it up
fails half way. -/
def tells (s : State) (cleared : Bool) : NetEvent → Bool
  | .differentWorkspaces _ _ theirs size => s.doc.any (shouldYield · theirs size) && cleared
  | _ => true

variable (me : MachineId) (platform : Platform)

/-- A run starts: it reads the record and compares it with the screens. -/
def run (w : World) : Except CommandError (Option PendingEdit) :=
  (Command.publishLocalFacts w.displays platform).read me w.edits.agent

def step (w : World) : Action → Option World
  | .plug displays => some { w with displays, moved := true }
  | .publish => do
    let edits ← Edits.step me w.edits (.read (.publishLocalFacts w.displays platform))
    return { w with edits, stale := false, moved := false }
  | .edit a =>
    if isRun a then none
    else do
      let edits ← Edits.step me w.edits a
      return { w with edits, owed := w.owed + (announces me w.edits a).toNat }
  | .netEvent now e cleared =>
    let agent := w.edits.agent
    some { w with
      edits := { w.edits with agent := agent.onNetEvent now e }
      owed := w.owed + (tells agent cleared e).toNat }
  | .announce =>
    if w.owed = 0 then none
    else some { w with sent := w.sent ++ [.changed], owed := w.owed - 1, stale := true }
  | .note => some { w with sent := w.sent ++ [.changed], stale := true }
  | .subscribe =>
    match w.task with
    | .spawned => some { w with task := .receiving w.sent.length }
    | _ => none
  | .receive => do
    let .receiving pos := w.task | none
    let (received, pos) ← recv eventCapacity w.sent pos
    match received with
    | .lagged _ => return { w with task := .ended }
    | .value _ =>
      let w := { w with stale := false, moved := false }
      match run me platform w with
      | .ok (some edit) => return { w with task := .publishing pos edit }
      | _ => return { w with task := .finishing pos }
  | .write now =>
    match w.task with
    | .publishing pos edit =>
      match w.edits.agent.upsertMachine me now edit.edited with
      | .ok (s, _) =>
        some { w with edits := { w.edits with agent := s }, task := .announcing pos }
      | .error _ => some { w with task := .finishing pos }
    | _ => none
  | .tell =>
    match w.task with
    | .announcing pos =>
      some { w with sent := w.sent ++ [.changed], stale := true, task := .finishing pos }
    | _ => none
  | .finish =>
    match w.task with
    | .finishing pos => some { w with task := .receiving pos }
    | _ => none

/-- The agent is loaded, nothing was announced, and the task has not had its first turn. -/
def start (s : State) (displays : List DisplayInfo) : World :=
  ⟨⟨s, [], []⟩, displays, [], .spawned, 0, false, true⟩

def Waits (w : World) : Prop := ∃ pos, w.task = .receiving pos ∧ unread w.sent pos = 0

def UpToDate (w : World) : Prop :=
  ∀ r ∈ w.edits.agent.machine me, differ r.displays w.displays = false ∧ r.platform = platform

def UnderWay (w : World) : Prop :=
  (∃ p ∈ w.edits.pending, p.edit = .publish w.displays platform) ∨
    ∃ pos p, w.task = .publishing pos p ∧ p.edit = .publish w.displays platform

/-- The task lives, a run has started since the latest change was announced whenever it waits with
nothing left, and then the record is right, or about to be, as soon as all changes are announced
and the screens are still those that the run read. -/
structure Served (w : World) : Prop where
  alive : w.task ≠ .ended
  fresh : Waits w → w.stale = false
  current : Waits w → w.owed = 0 → w.moved = false → UpToDate me platform w ∨ UnderWay platform w

/-- Nothing was announced in vain before the task's first turn, and it never finds that it has
fallen further behind than the channel keeps. -/
def KeepsUp (w : World) : Action → Prop
  | .subscribe => w.stale = false
  | .receive => ∀ pos ∈ w.task.position, unread w.sent pos ≤ eventCapacity
  | _ => True

instance (w : World) : DecidablePred (KeepsUp w)
  | .subscribe => inferInstanceAs (Decidable (_ = _))
  | .receive => inferInstanceAs (Decidable (∀ _ ∈ _, _))
  | .plug _ | .publish | .edit _ | .netEvent .. | .announce | .note | .write _ | .tell | .finish =>
    .isTrue trivial

structure Inv (w : World) : Prop where
  position : ∀ pos ∈ w.task.position, pos ≤ w.sent.length
  fresh : w.task.busy = true → ∀ pos ∈ w.task.position, unread w.sent pos = 0 → w.stale = false
  current : w.stale = false → w.owed = 0 → w.moved = false → (∀ pos, w.task ≠ .announcing pos) →
    UpToDate me platform w ∨ UnderWay platform w

variable {me platform}

/-! What one run finds, and what leaves the record alone. -/

theorem upToDate_of_noWorkspace {w : World} (h : w.edits.agent.doc = none) :
    UpToDate me platform w := by
  intro r hr
  simp [State.machine, h] at hr

variable (me platform) in
theorem run_spec (w : World) :
    (run me platform w = .ok none ∧ UpToDate me platform w) ∨
      ∃ p, run me platform w = .ok (some p) ∧ p.edit = .publish w.displays platform := by
  simp only [run, Command.read, UpToDate]
  cases w.edits.agent.machine me with
  | none => exact .inl ⟨rfl, by simp⟩
  | some record =>
    by_cases hsame : differ record.displays w.displays = false ∧ record.platform = platform
    · refine .inl ⟨?_, fun r hr => ?_⟩
      · simp [hsame.1, hsame.2]
      · obtain rfl := Option.some.inj hr
        exact hsame
    · refine .inr ⟨⟨.publish w.displays platform, record⟩, ?_, rfl⟩
      rw [← Bool.not_eq_true, not_and_or, not_not] at hsame
      simp only [Bool.and_eq_true, Bool.not_eq_true', decide_eq_true_eq]
      rw [if_neg]
      rw [← Bool.not_eq_true]
      tauto

theorem machine_of_held {s t : State} {d e : WorkspaceDoc} (hd : s.doc = some d)
    (ht : t.doc = some e) (h : ∀ r, e.held r = d.held r) (id : MachineId) :
    t.machine id = s.machine id := by
  have hslot : e.machines[id]? = d.machines[id]? := WorkspaceDoc.held_slot_inj id (h (.slot id))
  simp only [State.machine_eq, State.slot, hd, ht, Option.bind_some, hslot]

theorem machine_of_apply {s t : State} {u : WorkspaceUpdate} (h : s.apply u = .ok (t, false))
    (id : MachineId) : t.machine id = s.machine id := by
  cases hd : s.doc with
  | none =>
    obtain ⟨rfl, -⟩ := State.apply_none hd h
    rfl
  | some d =>
    obtain ⟨e, he, rfl⟩ := State.apply_some hd h
    have hheld : ∀ r, e.held r = d.held r := by
      have hno := (WorkspaceDoc.apply_changed_iff he).not.mp (by simp)
      simpa using hno
    exact machine_of_held hd rfl hheld id

theorem machine_of_merge {s t : State} {other : WorkspaceDoc} (h : s.merge other = .ok (t, false))
    (id : MachineId) : t.machine id = s.machine id := by
  cases hd : s.doc with
  | none => cases (State.merge_none hd h).2
  | some d =>
    obtain ⟨e, he, ht⟩ := State.merge_some hd h
    have hheld : ∀ r, e.held r = d.held r := by
      have hno := (WorkspaceDoc.merge_changed_iff he).not.mp (by simp)
      simpa using hno
    exact machine_of_held hd ht hheld id

theorem edit_spec {w v : Edits.World} {a : Edits.Action} (hs : Edits.step me w a = some v)
    (hq : announces me w a = false) :
    (v.agent.machine me = w.agent.machine me ∧ w.pending ⊆ v.pending) ∨ v.agent.doc = none := by
  cases a with
  | read c =>
    simp only [Edits.step] at hs
    split at hs <;> obtain rfl := Option.some.inj hs
    · exact .inl ⟨rfl, List.subset_append_left _ _⟩
    · exact .inl ⟨rfl, List.Subset.refl _⟩
  | write i now =>
    simp only [Edits.step] at hs
    split at hs
    · cases hs
    rename_i p hp
    simp only [announces, hp, Option.any_some] at hq
    split at hs
    · rename_i s u hm
      rw [hm] at hq
      cases hq
    · rename_i e hm
      obtain rfl := Option.some.inj hs
      exact .inr (State.mutate_error hm)
  | update u =>
    simp only [Edits.step] at hs
    simp only [announces] at hq
    split at hs
    · rename_i s c ha
      rw [ha] at hq
      obtain rfl := Option.some.inj hs
      exact .inl ⟨machine_of_apply (by rw [ha, show c = false from hq]) me, List.Subset.refl _⟩
    · obtain rfl := Option.some.inj hs
      exact .inl ⟨rfl, List.Subset.refl _⟩
  | merge doc =>
    simp only [Edits.step] at hs
    simp only [announces] at hq
    split at hs
    · rename_i s c hm
      rw [hm] at hq
      obtain rfl := Option.some.inj hs
      exact .inl ⟨machine_of_merge (by rw [hm, show c = false from hq]) me, List.Subset.refl _⟩
    · obtain rfl := Option.some.inj hs
      exact .inl ⟨rfl, List.Subset.refl _⟩
  | change now op =>
    simp only [Edits.step] at hs
    simp only [announces] at hq
    split at hs
    · rename_i s u hm
      rw [hm] at hq
      cases hq
    · obtain rfl := Option.some.inj hs
      exact .inl ⟨rfl, List.Subset.refl _⟩

theorem netEvent_doc (s : State) (now : ℕ) (e : NetEvent) :
    (s.onNetEvent now e).doc = s.doc ∨ (s.onNetEvent now e).doc = none := by
  cases e with
  | differentWorkspaces id key theirs size =>
    simp only [State.onNetEvent]
    split
    · split
      · exact .inr rfl
      · exact .inl rfl
    · exact .inl rfl
  | _ => exact .inl rfl

/-! What a step does, where it has a choice. -/

theorem publish_spec {w v : World} (hs : step me platform w .publish = some v) :
    ∃ edits, Edits.step me w.edits (.read (.publishLocalFacts w.displays platform)) = some edits ∧
      v = { w with edits, stale := false, moved := false } := by
  simp only [step, Option.bind_eq_bind, Option.bind_eq_some_iff] at hs
  obtain ⟨edits, hedits, hv⟩ := hs
  exact ⟨edits, hedits, (Option.some.inj hv).symm⟩

theorem half_spec {w v : World} {a : Edits.Action} (hs : step me platform w (.edit a) = some v) :
    ∃ edits, Edits.step me w.edits a = some edits ∧
      v = { w with edits, owed := w.owed + (announces me w.edits a).toNat } := by
  obtain ⟨-, hs⟩ := Option.ite_none_left_eq_some.mp hs
  obtain ⟨edits, hedits, hv⟩ := Option.bind_eq_some_iff.mp hs
  exact ⟨edits, hedits, (Option.some.inj hv).symm⟩

theorem subscribe_spec {w v : World} (hs : step me platform w .subscribe = some v) :
    w.task = .spawned ∧ v = { w with task := .receiving w.sent.length } := by
  simp only [step] at hs
  split at hs
  · rename_i htask
    exact ⟨htask, (Option.some.inj hs).symm⟩
  · cases hs

theorem receive_spec {w v : World} (hs : step me platform w .receive = some v) :
    ∃ pos, w.task = .receiving pos ∧
      ((eventCapacity < unread w.sent pos ∧ v = { w with task := .ended }) ∨
        unread w.sent pos ≤ eventCapacity ∧ pos < w.sent.length ∧
          ∃ task, v = { w with stale := false, moved := false, task } ∧
            ((task = .finishing (pos + 1) ∧ UpToDate me platform w) ∨
              ∃ p, task = .publishing (pos + 1) p ∧ p.edit = .publish w.displays platform)) := by
  simp only [step] at hs
  split at hs
  · rename_i pos htask
    obtain ⟨⟨received, next⟩, hrecv, hs⟩ := Option.bind_eq_some_iff.mp hs
    refine ⟨pos, htask, ?_⟩
    by_cases hlag : eventCapacity < unread w.sent pos
    · obtain ⟨missed, rfl⟩ := recv_of_lt_unread hlag hrecv
      exact .inl ⟨hlag, (Option.some.inj hs).symm⟩
    · obtain ⟨m, rfl, rfl, hlt⟩ := recv_of_unread_le (not_lt.mp hlag) hrecv
      refine .inr ⟨not_lt.mp hlag, hlt, ?_⟩
      have hrun : run me platform { w with stale := false, moved := false } = run me platform w :=
        rfl
      simp only [hrun] at hs
      obtain ⟨hnone, hup⟩ | ⟨p, hsome, hp⟩ := run_spec me platform w
      · simp only [hnone] at hs
        exact ⟨_, (Option.some.inj hs).symm, .inl ⟨rfl, hup⟩⟩
      · simp only [hsome] at hs
        exact ⟨_, (Option.some.inj hs).symm, .inr ⟨p, rfl, hp⟩⟩
  · cases hs

theorem write_spec {w v : World} {now : ℕ} (hs : step me platform w (.write now) = some v) :
    ∃ pos p, w.task = .publishing pos p ∧
      ((∃ s, v = { w with edits := { w.edits with agent := s }, task := .announcing pos }) ∨
        w.edits.agent.doc = none ∧ v = { w with task := .finishing pos }) := by
  simp only [step] at hs
  split at hs
  · rename_i pos p htask
    refine ⟨pos, p, htask, ?_⟩
    split at hs
    · exact .inl ⟨_, (Option.some.inj hs).symm⟩
    · rename_i err hm
      exact .inr ⟨State.mutate_error hm, (Option.some.inj hs).symm⟩
  · cases hs

theorem tell_spec {w v : World} (hs : step me platform w .tell = some v) :
    ∃ pos, w.task = .announcing pos ∧
      v = { w with sent := w.sent ++ [.changed], stale := true, task := .finishing pos } := by
  simp only [step] at hs
  split at hs
  · rename_i pos htask
    exact ⟨pos, htask, (Option.some.inj hs).symm⟩
  · cases hs

theorem finish_spec {w v : World} (hs : step me platform w .finish = some v) :
    ∃ pos, w.task = .finishing pos ∧ v = { w with task := .receiving pos } := by
  simp only [step] at hs
  split at hs
  · rename_i pos htask
    exact ⟨pos, htask, (Option.some.inj hs).symm⟩
  · cases hs

/-! The invariant. -/

theorem Inv.others {w v : World} (h : Inv me platform w) (htask : v.task = w.task)
    (hsent : v.sent = w.sent) (hstale : v.stale = w.stale ∨ v.stale = false)
    (hcurrent : v.stale = false → v.owed = 0 → v.moved = false →
      (∀ pos, v.task ≠ .announcing pos) → UpToDate me platform v ∨ UnderWay platform v) :
    Inv me platform v := by
  refine ⟨by rw [htask, hsent]; exact h.position, ?_, hcurrent⟩
  rw [htask, hsent]
  intro hbusy pos hpos hunread
  obtain heq | hfresh := hstale
  · exact heq.trans (h.fresh hbusy pos hpos hunread)
  · exact hfresh

theorem Inv.announced {w v : World} (h : Inv me platform w) (htask : v.task = w.task)
    (hsent : v.sent = w.sent ++ [.changed]) (hstale : v.stale = true) : Inv me platform v := by
  refine ⟨?_, ?_, fun hfresh => by rw [hstale] at hfresh; cases hfresh⟩
  · rw [htask, hsent]
    intro pos hpos
    rw [List.length_append]
    exact (h.position pos hpos).trans (Nat.le_add_right _ _)
  · rw [htask, hsent]
    intro _ pos hpos hunread
    exact absurd hunread (unread_append_ne_zero (h.position pos hpos) _)

theorem Inv.current_of_rest {w : World} (h : Inv me platform w)
    (hpublishing : ∀ pos p, w.task ≠ .publishing pos p) (hann : ∀ pos, w.task ≠ .announcing pos)
    (task : Task) : w.stale = false → w.owed = 0 → w.moved = false →
      (∀ pos, task ≠ .announcing pos) →
      UpToDate me platform { w with task } ∨ UnderWay platform { w with task } := by
  intro hfresh hnone hstill _
  obtain hup | hpending | ⟨pos, p, htask, -⟩ := h.current hfresh hnone hstill hann
  · exact .inl hup
  · exact .inr (.inl hpending)
  · exact absurd htask (hpublishing pos p)

/-- A change that is announced later is not looked at before; one that is not leaves the record and
the pending edits alone. -/
theorem current_of_quiet {w v : World} (h : Inv me platform w) (htask : v.task = w.task)
    (hdisplays : v.displays = w.displays) (hstale : v.stale = w.stale) (hmoved : v.moved = w.moved)
    {told : Bool} (howed : v.owed = w.owed + told.toNat)
    (hquiet : told = false → (v.edits.agent.machine me = w.edits.agent.machine me ∧
      w.edits.pending ⊆ v.edits.pending) ∨ v.edits.agent.doc = none) :
    v.stale = false → v.owed = 0 → v.moved = false → (∀ pos, v.task ≠ .announcing pos) →
      UpToDate me platform v ∨ UnderWay platform v := by
  intro hfresh hnone hstill hann
  rw [howed, Nat.add_eq_zero_iff] at hnone
  obtain ⟨hmachine, hpending⟩ | hdoc := hquiet (by simpa using hnone.2)
  · rw [hstale] at hfresh
    rw [hmoved] at hstill
    rw [htask] at hann
    obtain hup | ⟨p, hp, hedit⟩ | ⟨pos, p, hpos, hedit⟩ := h.current hfresh hnone.1 hstill hann
    · refine .inl ?_
      rw [UpToDate, hmachine, hdisplays]
      exact hup
    · exact .inr (.inl ⟨p, hpending hp, by rw [hdisplays]; exact hedit⟩)
    · exact .inr (.inr ⟨pos, p, by rw [htask]; exact hpos, by rw [hdisplays]; exact hedit⟩)
  · exact .inl (upToDate_of_noWorkspace hdoc)

theorem Inv.edit {w v : World} {a : Edits.Action} (h : Inv me platform w)
    (hs : step me platform w (.edit a) = some v) : Inv me platform v := by
  obtain ⟨edits, hedits, rfl⟩ := half_spec hs
  exact h.others rfl rfl (.inl rfl)
    (current_of_quiet h rfl rfl rfl rfl rfl fun hq => edit_spec hedits hq)

theorem Inv.publish {w v : World} (h : Inv me platform w)
    (hs : step me platform w .publish = some v) : Inv me platform v := by
  obtain ⟨edits, hedits, rfl⟩ := publish_spec hs
  refine h.others rfl rfl (.inr rfl) fun _ _ _ _ => ?_
  simp only [Edits.step] at hedits
  obtain ⟨hrun, hup⟩ | ⟨p, hrun, hp⟩ := run_spec me platform w
  · rw [show Command.read me w.edits.agent _ = _ from hrun] at hedits
    obtain rfl := Option.some.inj hedits
    exact .inl hup
  · rw [show Command.read me w.edits.agent _ = _ from hrun] at hedits
    obtain rfl := Option.some.inj hedits
    exact .inr (.inl ⟨p, List.mem_append_right _ (List.mem_singleton_self p), hp⟩)

theorem Inv.receive {w v : World} (h : Inv me platform w)
    (hs : step me platform w .receive = some v) : Inv me platform v := by
  obtain ⟨pos, htask, ⟨-, rfl⟩ | ⟨-, hlt, task, rfl, hrun⟩⟩ := receive_spec hs
  · exact ⟨by simp [Task.position], by simp [Task.busy],
      h.current_of_rest (by simp [htask]) (by simp [htask]) .ended⟩
  · have hposition : task.position = some (pos + 1) := by
      obtain ⟨rfl, -⟩ | ⟨p, rfl, -⟩ := hrun <;> rfl
    refine ⟨fun q hq => ?_, fun _ _ _ _ => rfl, fun _ _ _ _ => ?_⟩
    · obtain rfl := Option.some.inj (hposition.symm.trans hq)
      exact hlt
    · obtain ⟨rfl, hup⟩ | ⟨p, rfl, hp⟩ := hrun
      · exact .inl hup
      · exact .inr (.inr ⟨pos + 1, p, rfl, hp⟩)

theorem Inv.write {w v : World} {now : ℕ} (h : Inv me platform w)
    (hs : step me platform w (.write now) = some v) : Inv me platform v := by
  obtain ⟨pos, p, htask, hv⟩ := write_spec hs
  have hposition : w.task.position = some pos := by rw [htask]; rfl
  have hle := h.position pos hposition
  have hfresh : unread w.sent pos = 0 → w.stale = false :=
    h.fresh (by rw [htask]; rfl) pos hposition
  obtain ⟨s, rfl⟩ | ⟨hdoc, rfl⟩ := hv
  · refine ⟨?_, ?_, fun _ _ _ hann => absurd rfl (hann pos)⟩
    · simpa [Task.position] using hle
    · simpa [Task.position, Task.busy] using hfresh
  · refine ⟨?_, ?_, fun _ _ _ _ => .inl (upToDate_of_noWorkspace hdoc)⟩
    · simpa [Task.position] using hle
    · simpa [Task.position, Task.busy] using hfresh

theorem step_inv {w v : World} {a : Action} (h : Inv me platform w)
    (hs : step me platform w a = some v) : Inv me platform v := by
  cases a with
  | plug displays =>
    obtain rfl := Option.some.inj hs
    exact h.others rfl rfl (.inl rfl) fun _ _ hstill => by cases hstill
  | publish => exact h.publish hs
  | edit a => exact h.edit hs
  | netEvent now e cleared =>
    obtain rfl := Option.some.inj hs
    refine h.others rfl rfl (.inl rfl) (current_of_quiet h rfl rfl rfl rfl rfl fun _ => ?_)
    obtain hdoc | hdoc := netEvent_doc w.edits.agent now e
    · exact .inl ⟨by rw [State.machine, hdoc]; rfl, List.Subset.refl _⟩
    · exact .inr hdoc
  | announce =>
    obtain ⟨-, hs⟩ := Option.ite_none_left_eq_some.mp hs
    obtain rfl := Option.some.inj hs
    exact h.announced rfl rfl rfl
  | note =>
    obtain rfl := Option.some.inj hs
    exact h.announced rfl rfl rfl
  | subscribe =>
    obtain ⟨htask, rfl⟩ := subscribe_spec hs
    exact ⟨by simp [Task.position], by simp [Task.busy],
      h.current_of_rest (by simp [htask]) (by simp [htask]) _⟩
  | receive => exact h.receive hs
  | write now => exact h.write hs
  | tell =>
    obtain ⟨pos, htask, rfl⟩ := tell_spec hs
    have hle := h.position pos (by rw [htask]; rfl)
    refine ⟨?_, ?_, fun hfresh => by cases hfresh⟩
    · simpa [Task.position] using hle.trans (Nat.le_succ _)
    · simpa [Task.position, Task.busy] using unread_append_ne_zero hle AgentEvent.changed
  | finish =>
    obtain ⟨pos, htask, rfl⟩ := finish_spec hs
    refine ⟨?_, by simp [Task.busy], h.current_of_rest (by simp [htask]) (by simp [htask]) _⟩
    simpa [Task.position] using h.position pos (by rw [htask]; rfl)

theorem served_of_fresh {w : World} (h : Inv me platform w) (halive : w.task ≠ .ended)
    (hfresh : Waits w → w.stale = false) : Served me platform w := by
  refine ⟨halive, hfresh, fun hwaits hnone hstill => ?_⟩
  refine h.current (hfresh hwaits) hnone hstill ?_
  obtain ⟨pos, htask, -⟩ := hwaits
  simp [htask]

theorem Served.others {w v : World} (h : Served me platform w) (hv : Inv me platform v)
    (htask : v.task = w.task) (hsent : v.sent = w.sent)
    (hstale : v.stale = w.stale ∨ v.stale = false) : Served me platform v := by
  refine served_of_fresh hv (by rw [htask]; exact h.alive) fun hwaits => ?_
  obtain heq | hfresh := hstale
  · rw [Waits, htask, hsent] at hwaits
    exact heq.trans (h.fresh hwaits)
  · exact hfresh

theorem Served.announced {w v : World} (h : Served me platform w) (hw : Inv me platform w)
    (hv : Inv me platform v) (htask : v.task = w.task) (hsent : v.sent = w.sent ++ [.changed]) :
    Served me platform v := by
  refine served_of_fresh hv (by rw [htask]; exact h.alive) fun ⟨pos, hpos, hunread⟩ => ?_
  rw [htask] at hpos
  rw [hsent] at hunread
  exact absurd hunread (unread_append_ne_zero (hw.position pos (by rw [hpos]; rfl)) _)

theorem served_of_busy {w : World} (h : Inv me platform w) (hbusy : w.task.busy = true) :
    Served me platform w := by
  refine served_of_fresh h (fun hended => ?_) fun ⟨pos, hpos, _⟩ => ?_
  · rw [hended] at hbusy
    cases hbusy
  · rw [hpos] at hbusy
    cases hbusy

/-- A step leaves the task well served exactly if it does not find that it has fallen behind, nor
subscribes too late. -/
theorem step_served {w v : World} {a : Action} (h : Inv me platform w)
    (hserved : Served me platform w) (hs : step me platform w a = some v) :
    Served me platform v ↔ KeepsUp w a := by
  have hv := step_inv h hs
  cases a with
  | plug displays =>
    obtain rfl := Option.some.inj hs
    exact iff_of_true (hserved.others hv rfl rfl (.inl rfl)) trivial
  | publish =>
    obtain ⟨edits, -, rfl⟩ := publish_spec hs
    exact iff_of_true (hserved.others hv rfl rfl (.inr rfl)) trivial
  | edit a =>
    obtain ⟨edits, -, rfl⟩ := half_spec hs
    exact iff_of_true (hserved.others hv rfl rfl (.inl rfl)) trivial
  | netEvent now e cleared =>
    obtain rfl := Option.some.inj hs
    exact iff_of_true (hserved.others hv rfl rfl (.inl rfl)) trivial
  | announce =>
    obtain ⟨-, hs⟩ := Option.ite_none_left_eq_some.mp hs
    obtain rfl := Option.some.inj hs
    exact iff_of_true (hserved.announced h hv rfl rfl) trivial
  | note =>
    obtain rfl := Option.some.inj hs
    exact iff_of_true (hserved.announced h hv rfl rfl) trivial
  | subscribe =>
    obtain ⟨-, rfl⟩ := subscribe_spec hs
    exact ⟨fun hsv => hsv.fresh ⟨_, rfl, unread_length _⟩,
      fun hfresh => served_of_fresh hv (by simp) fun _ => hfresh⟩
  | receive =>
    obtain ⟨pos, htask, ⟨hlag, rfl⟩ | ⟨hkeeps, -, task, rfl, hrun⟩⟩ := receive_spec hs
    · refine iff_of_false (fun hsv => hsv.alive rfl) fun hkeeps => ?_
      exact absurd (hkeeps pos (by rw [htask]; rfl)) (not_le.mpr hlag)
    · have hbusy : task.busy = true := by
        obtain ⟨rfl, -⟩ | ⟨p, rfl, -⟩ := hrun <;> rfl
      refine iff_of_true (served_of_busy hv hbusy) fun q hq => ?_
      rw [htask] at hq
      obtain rfl := Option.some.inj hq
      exact hkeeps
  | write now =>
    obtain ⟨pos, p, -, ⟨s, rfl⟩ | ⟨-, rfl⟩⟩ := write_spec hs
    · exact iff_of_true (served_of_busy hv rfl) trivial
    · exact iff_of_true (served_of_busy hv rfl) trivial
  | tell =>
    obtain ⟨pos, -, rfl⟩ := tell_spec hs
    exact iff_of_true (served_of_busy hv rfl) trivial
  | finish =>
    obtain ⟨pos, htask, rfl⟩ := finish_spec hs
    refine iff_of_true (served_of_fresh hv (by simp) fun ⟨q, hq, hunread⟩ => ?_) trivial
    obtain rfl := Task.receiving.inj hq
    exact h.fresh (by rw [htask]; rfl) pos (by rw [htask]; rfl) hunread

theorem inv_start (s : State) (displays : List DisplayInfo) : Inv me platform (start s displays) :=
  ⟨by simp [start, Task.position], by simp [start, Task.busy], by simp [start]⟩

theorem served_start (s : State) (displays : List DisplayInfo) :
    Served me platform (start s displays) :=
  served_of_fresh (inv_start s displays) (by simp [start]) fun _ => rfl

/-- The task lives and misses nothing exactly as long as no change was announced in vain before its
first turn, and it never finds that it has fallen further behind than the channel keeps. -/
theorem watcher_survives_iff {s : State} {displays : List DisplayInfo} {as : List Action}
    {w : World} (h : Run (step me platform) Any (start s displays) as w) :
    Throughout (step me platform) (Served me platform) (start s displays) as ↔
      Run (step me platform) KeepsUp (start s displays) as w :=
  h.throughout_iff (I := Inv me platform) (fun _ _ _ hi _ hs => step_inv hi hs)
    (fun _ _ _ hi hp _ hs => step_served hi hp hs) (inv_start s displays) (served_start s displays)

def panel : DisplayInfo := ⟨"display-1", "Main display", 0, 0, 1920, 1080, 1065353216, true⟩

/-- A computer without a workspace adopts one that has its record without screens. -/
theorem watcher_survives_iff_adopted : ∃ w,
    Run (step 2 .windows) Any (start ⟨none, ∅, ∅, ∅⟩ [panel])
      [.subscribe, .edit (.merge together), .announce, .receive, .write 0, .tell, .finish,
        .receive, .finish] w ∧
    (w.task, (w.edits.agent.machine 2).map (·.displays)) = (.receiving 2, some [panel]) ∧
    Throughout (step 2 .windows) (Served 2 .windows) (start ⟨none, ∅, ∅, ∅⟩ [panel])
      [.subscribe, .edit (.merge together), .announce, .receive, .write 0, .tell, .finish,
        .receive, .finish] := by
  obtain ⟨w, hrun, hw⟩ := run_of_replay (step 2 .windows) KeepsUp
    (start ⟨none, ∅, ∅, ∅⟩ [panel])
    [.subscribe, .edit (.merge together), .announce, .receive, .write 0, .tell, .finish,
      .receive, .finish] (fun w => (w.task, (w.edits.agent.machine 2).map (·.displays)))
    (b := (.receiving 2, some [panel])) (by decide +kernel)
  have hany : Run (step 2 .windows) Any _ _ w := hrun.mono fun _ _ _ => trivial
  exact ⟨w, hany, hw, (watcher_survives_iff hany).mpr hrun⟩

/-- While the task waits for the network to take its update, a guest is sighted 64 times; later a
peer brings the record of this machine without screens. -/
def burst : List Action :=
  let sighted : List Action :=
    [.netEvent 0 (.candidate 5 "Guest" 15 none "10.0.0.5" false) true, .announce]
  [.subscribe, .note, .receive, .write 0, .tell] ++ (List.replicate 64 sighted).flatten ++
    [.finish, .receive, .edit (.update ⟨7, 3, ⟨9, 1, 0⟩, .upsertMachine laptop⟩), .announce]

set_option maxRecDepth 20000 in
/-- The burst ends the task, and the record stays without screens; and a task that has its first
turn after a change was announced waits without having looked at the record. -/
theorem watcher_misses :
    (∃ w, Run (step 2 .windows) Any (start (.ofDoc together) [panel]) burst w ∧
      (w.task, w.owed, (w.edits.agent.machine 2).map (·.displays)) = (.ended, 0, some []) ∧
      ¬ Served 2 .windows w) ∧
    ∃ w, Run (step 2 .windows) Any (start (.ofDoc together) [panel]) [.note, .subscribe] w ∧
      (w.task, w.sent.length, w.stale, (w.edits.agent.machine 2).map (·.displays)) =
        (.receiving 1, 1, true, some []) ∧ ¬ Served 2 .windows w := by
  constructor
  · obtain ⟨w, hrun, hw⟩ := run_of_replay (step 2 .windows) Any
      (start (.ofDoc together) [panel]) burst
      (fun w => (w.task, w.owed, (w.edits.agent.machine 2).map (·.displays)))
      (b := (.ended, 0, some [])) (by decide +kernel)
    exact ⟨w, hrun, hw, fun h => h.alive (Prod.mk.inj hw).1⟩
  · obtain ⟨w, hrun, hw⟩ := run_of_replay (step 2 .windows) Any
      (start (.ofDoc together) [panel]) [.note, .subscribe]
      (fun w => (w.task, w.sent.length, w.stale, (w.edits.agent.machine 2).map (·.displays)))
      (b := (.receiving 1, 1, true, some [])) (by decide +kernel)
    obtain ⟨htask, hrest⟩ := Prod.mk.inj hw
    obtain ⟨hsent, hstale, -⟩ := Prod.mk.inj hrest |>.imp_right Prod.mk.inj
    refine ⟨w, hrun, hw, fun h => ?_⟩
    have hfresh := h.fresh ⟨1, htask, by rw [unread, hsent]⟩
    rw [hstale] at hfresh
    cases hfresh

end Refresher
end InputShare

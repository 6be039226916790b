import InputShare.Core.Registers
import InputShare.Net.Connections
import InputShare.Net.Service
import Mathlib.Data.Fintype.Basic
import Mathlib.Data.Prod.Lex

/-! Two machines in different workspaces that have admitted each other. Each connection tells
either of them how large the configuration of the other is, and each decides for itself which of
the two is given up. -/
namespace InputShare
open Runs SessionTask

inductive Side where
  | left | right
deriving DecidableEq, Repr

namespace Side

instance : Fintype Side := ⟨{left, right}, fun s => by cases s <;> decide⟩

def other : Side → Side
  | left => right
  | right => left

@[simp] theorem other_other (s : Side) : s.other.other = s := by cases s <;> rfl

@[simp] theorem other_ne (s : Side) : s.other ≠ s := by cases s <;> decide

theorem eq_other_of_ne {s t : Side} (h : t ≠ s) : t = s.other := by
  cases s <;> cases t <;> first | rfl | exact absurd rfl h

end Side

def WorkspaceDoc.size (d : WorkspaceDoc) : ℕ := d.machinesPresent.length % 4294967296

/-- The smaller configuration gives way, and of two of one size that with the greater
identifier. -/
def rank (workspace : WorkspaceId) (size : ℕ) : ℕ ×ₗ ℕᵒᵈ := toLex (size, OrderDual.toDual workspace)

def WorkspaceDoc.rank (d : WorkspaceDoc) : ℕ ×ₗ ℕᵒᵈ := InputShare.rank d.workspaceId d.size

theorem rank_lt {v w : WorkspaceId} {m n : ℕ} : rank v m < rank w n ↔ m < n ∨ m = n ∧ w < v :=
  Prod.Lex.toLex_lt_toLex

theorem WorkspaceDoc.rank_le {d e : WorkspaceDoc} (hw : e.workspaceId = d.workspaceId)
    (hs : d.size ≤ e.size) : d.rank ≤ e.rank :=
  Prod.Lex.toLex_le_toLex.mpr <| (lt_or_eq_of_le hs).imp_right fun h => ⟨h, by rw [hw]⟩

theorem shouldYield_iff (d : WorkspaceDoc) (w : WorkspaceId) (n : ℕ) :
    shouldYield d w n = true ↔ d.rank < rank w n := by
  rw [WorkspaceDoc.rank, rank_lt]
  change (if d.size < n then true else if n < d.size then false
    else decide (d.workspaceId > w)) = true ↔ _
  split_ifs with hlt hgt
  · exact iff_of_true rfl (.inl hlt)
  · exact iff_of_false (by decide) (by omega)
  · rw [decide_eq_true_iff]
    exact ⟨fun h => .inr ⟨by omega, h⟩, fun h => (h.resolve_left hlt).2⟩

/-- What the actor reports to the agent when a session reports to it. -/
def reported : SessionOutcome → List NetEvent
  | .established id _ _ => [.online id]
  | .closed id _ => [.offline id]
  | .rejected id identityKey addr => [.rejected id identityKey addr]
  | .differentWorkspaces id _ identityKey theirWorkspace theirSize =>
    [.differentWorkspaces id identityKey theirWorkspace theirSize]
  | .workspaceChanged => []

/-- What happens on a machine apart from its connections to the other one. -/
inductive Change where
  | edit (op : Op)
  | pair (id : MachineId)
  | unpair (id : MachineId)
  /-- A further machine of its workspace sends something. -/
  | hear (peer : MachineId) (m : Message)
  /-- The network reports something of a further machine; what the agent makes of it is one step. -/
  | notice (e : NetEvent)

def State.change (s : State) (me : MachineId) (now : ℕ) : Change → State
  | .edit op =>
    match s.mutate me now op with
    | .ok (t, _) => t
    | .error _ => s
  | .pair id =>
    match s.pair me now id with
    | .ok (t, _) => t
    | .error _ => s
  | .unpair id =>
    match s.unpair me now id with
    | .ok (t, _) => t
    | .error _ => s
  | .hear peer m => (onRead s peer m).2.1
  | .notice e => s.onNetEvent now e

structure Link where
  task : Side → SessionTask
  /-- What the other end has sent and this one has not read. -/
  inbound : Side → List Message

namespace Link

def reads (t : SessionTask) : Bool :=
  match t.stage with
  | .closing .. | .failed _ | .ended => false
  | _ => true

def moved (l : Link) (s : Side) (t : SessionTask) (read : Bool) (out : List Message) : Link where
  task := Function.update l.task s t
  inbound x :=
    if x = s then
      if reads t then if read then (l.inbound s).tail else l.inbound s else []
    else if reads (l.task x) then l.inbound x ++ out else []

theorem moved_task (l : Link) (s : Side) (t : SessionTask) (read : Bool) (out : List Message) :
    (l.moved s t read out).task = Function.update l.task s t :=
  rfl

end Link

structure Meeting where
  me : Side → Identity
  state : Side → State
  links : List Link
  /-- What the network has reported and the agent has not taken yet. -/
  events : Side → List NetEvent
  /-- The machine whose configuration this one is about to adopt, and its key. -/
  yielding : Side → Option (MachineId × PubKey)
  /-- Whether it has called `adopt_configuration_of` for the other. -/
  adopted : Side → Bool

namespace Meeting

inductive Action where
  /-- A handshake between the two is completed. -/
  | connect (dialler : Side) (addr : String)
  | session (i : ℕ) (s : Side) (e : SessionTask.Event) (computerName : String)
  /-- A session sends something after its document. -/
  | write (i : ℕ) (s : Side) (m : Message)
  | change (s : Side) (now : ℕ) (c : Change)
  /-- The agent takes the next event; a subscriber that lags misses it. -/
  | event (s : Side) (now : ℕ) (missed : Bool)
  | adopt (s : Side)

def greeted (w : Meeting) (dialler : Side) (addr : String) (s : Side) : SessionTask :=
  let peer := w.me s.other
  let task :=
    if s = dialler then spawnDial (w.me s) w.links.length peer.machineId addr
    else spawnAccepted (w.me s) w.links.length addr
  { task with stage := .greeted peer.machineId peer.publicKey }

def taken : SessionTask.Event → Option Message
  | .identified m | .read m => some m
  | _ => none

/-- What a session puts on the wire on its way to the stage `t` is in. -/
def told (agent : State) (me : MachineId) (computerName : String) (t : SessionTask) :
    SessionTask.Event → List Message
  | .identify => [Network.identify agent me computerName]
  | .identified _ => if t.stage = .ended then [Network.separate] else []
  | .docFull .. => if t.finished then [] else t.sent
  | _ => []

def opening : Message → Bool
  | .identify .. | .docFull _ => true
  | _ => false

def step (w : Meeting) : Action → Option Meeting
  | .connect dialler addr =>
    some { w with links := w.links ++ [⟨w.greeted dialler addr, fun _ => []⟩] }
  | .session i s e computerName => do
    let l ← w.links[i]?
    if ∀ m ∈ taken e, (l.inbound s).head? = some m then
      let (t, agent, os) ← (l.task s).step (w.state s) e
      let out := told (w.state s) (w.me s).machineId computerName t e
      some { w with
        state := Function.update w.state s agent
        links := w.links.set i (l.moved s t (taken e).isSome out)
        events := Function.update w.events s (w.events s ++ os.flatMap reported) }
    else none
  | .write i s m => do
    let l ← w.links[i]?
    if Service.writing (l.task s) && !opening m then
      some { w with links := w.links.set i (l.moved s (l.task s) false [m]) }
    else none
  | .change s now c =>
    some { w with
      state := Function.update w.state s ((w.state s).change (w.me s).machineId now c) }
  | .event s now missed =>
    match w.events s, w.yielding s with
    | e :: rest, none =>
      let w := { w with events := Function.update w.events s rest }
      if missed then some w
      else
        match e with
        | .differentWorkspaces id key theirWorkspace theirSize =>
          match (w.state s).doc with
          | some doc =>
            if shouldYield doc theirWorkspace theirSize then
              some { w with yielding := Function.update w.yielding s (some (id, key)) }
            else some w
          | none => some w
        | e => some { w with state := Function.update w.state s ((w.state s).onNetEvent now e) }
    | _, _ => none
  | .adopt s =>
    match w.yielding s with
    | some (id, key) =>
      some { w with
        state := Function.update w.state s ((w.state s).adoptConfigurationOf id key)
        yielding := Function.update w.yielding s none
        adopted := Function.update w.adopted s true }
    | none => none

def reports : Message → Bool
  | .identify _ (some _) _ => true
  | _ => false

def mismatch : NetEvent → Bool
  | .differentWorkspaces .. => true
  | _ => false

/-- A size that was reported is still on its way to a decision, or a decision to its execution. -/
def Pending (w : Meeting) : Prop :=
  ∃ s, (∃ l ∈ w.links, ∃ m ∈ l.inbound s, reports m) ∨ (∃ e ∈ w.events s, mismatch e) ∨
    (w.yielding s).isSome

instance (w : Meeting) : Decidable w.Pending :=
  inferInstanceAs (Decidable (∃ s, (∃ l ∈ w.links, ∃ m ∈ l.inbound s, reports m) ∨
    (∃ e ∈ w.events s, mismatch e) ∨ (w.yielding s).isSome))

/-- A document is not made smaller while anything is pending, nor larger once its machine has
decided to give it up. -/
def Steady (w : Meeting) (s : Side) (t : State) : Prop :=
  ∀ d ∈ (w.state s).doc, ∀ e ∈ t.doc,
    (w.Pending → d.size ≤ e.size) ∧ ((w.yielding s).isSome → e.size ≤ d.size)

instance (w : Meeting) (s : Side) (t : State) : Decidable (w.Steady s t) :=
  inferInstanceAs (Decidable (∀ d ∈ (w.state s).doc, ∀ e ∈ t.doc,
    (w.Pending → d.size ≤ e.size) ∧ ((w.yielding s).isSome → e.size ≤ d.size)))

/-- A machine with a document does not give it up for that of a further machine, and one without
takes over none of another workspace than the other one is in. -/
def Loyal (w : Meeting) (s : Side) (t : State) : Prop :=
  ((w.state s).doc.isSome → t.doc.isSome) ∧
    ((w.state s).doc = none → ∀ e ∈ t.doc, ∀ d ∈ (w.state s.other).doc,
      e.workspaceId = d.workspaceId)

instance (w : Meeting) (s : Side) (t : State) : Decidable (w.Loyal s t) :=
  inferInstanceAs (Decidable (((w.state s).doc.isSome → t.doc.isSome) ∧
    ((w.state s).doc = none → ∀ e ∈ t.doc, ∀ d ∈ (w.state s.other).doc,
      e.workspaceId = d.workspaceId)))

def Undisturbed (w : Meeting) : Action → Prop
  | .change s now c =>
    w.Steady s ((w.state s).change (w.me s).machineId now c) ∧
      w.Loyal s ((w.state s).change (w.me s).machineId now c)
  | .session _ s (.read m) _ => w.Steady s (onRead (w.state s) (w.me s.other).machineId m).2.1
  | _ => True

instance (w : Meeting) : (a : Action) → Decidable (w.Undisturbed a)
  | .change s _ _ => inferInstanceAs (Decidable (w.Steady s _ ∧ w.Loyal s _))
  | .session _ s (.read _) _ => inferInstanceAs (Decidable (w.Steady s _))
  | .session _ _ (.connected) _ | .session _ _ (.hello _) _ | .session _ _ (.panicked _) _
  | .session _ _ .authorise _ | .session _ _ .identify _ | .session _ _ (.identified _) _
  | .session _ _ .snapshot _ | .session _ _ (.docFull ..) _ | .session _ _ (.failed _) _
  | .session _ _ .close _ | .session _ _ .report _ | .connect .. | .write .. | .event ..
  | .adopt _ => .isTrue trivial

/-! What a change makes of the document. -/

def SameWorkspace (s t : State) : Prop :=
  ∃ d e, s.doc = some d ∧ t.doc = some e ∧ e.workspaceId = d.workspaceId

theorem edits_sameWorkspace {s t : State} {me : MachineId} {now : ℕ} {u : WorkspaceUpdate}
    (h : s.Edits t me now u) : SameWorkspace s t := by
  obtain ⟨d, op, hd, ht, -⟩ := h
  exact ⟨d, _, hd, ht, d.edit_workspaceId me now op⟩

theorem onRead_doc (s : State) (peer : MachineId) (m : Message) :
    (onRead s peer m).2.1 = s ∨ SameWorkspace s (onRead s peer m).2.1 ∨
      s.doc = none ∧ ∃ d, m = .docFull d ∧ (onRead s peer m).2.1.doc = some d := by
  unfold onRead
  split
  · rename_i doc
    split
    · rename_i t c hm
      cases hd : s.doc with
      | some d =>
        obtain ⟨e, he, ht⟩ := State.merge_some hd hm
        exact .inr (.inl ⟨d, e, hd, ht, WorkspaceDoc.merge_workspaceId he⟩)
      | none => exact .inr (.inr ⟨rfl, doc, rfl, (State.merge_none hd hm).1⟩)
    · exact .inl rfl
  · split
    · rename_i t c hm
      cases hd : s.doc with
      | some d =>
        obtain ⟨e, he, ht⟩ := State.apply_some hd hm
        exact .inr (.inl ⟨d, e, hd, by rw [ht], (WorkspaceDoc.apply_spec he).2.2⟩)
      | none => exact .inl (State.apply_none hd hm).1
    · exact .inl rfl
  all_goals exact .inl rfl

theorem onRead_peer (s : State) (p q : MachineId) (m : Message) :
    (onRead s p m).2.1 = (onRead s q m).2.1 := by
  cases m with
  | docFull doc => cases hm : s.merge doc <;> simp [onRead, hm]
  | update u => cases hm : s.apply u <;> simp [onRead, hm]
  | _ => rfl

theorem onNetEvent_doc {s : State} {now : ℕ} {e : NetEvent} (h : mismatch e = false) :
    (s.onNetEvent now e).doc = s.doc := by
  cases e with
  | differentWorkspaces => cases h
  | _ => rfl

/-- The same document, the same one changed, the first one a machine without is told of, or none any
more. -/
theorem change_doc (s : State) (me : MachineId) (now : ℕ) (c : Change) :
    (s.change me now c).doc = s.doc ∨ SameWorkspace s (s.change me now c) ∨
      (s.doc = none ∧ (s.change me now c).doc.isSome) ∨
      s.doc.isSome ∧ (s.change me now c).doc = none := by
  cases c with
  | edit op =>
    simp only [State.change]
    split
    · rename_i h
      exact .inr (.inl (edits_sameWorkspace (State.mutate_edits h)))
    · exact .inl rfl
  | pair id =>
    simp only [State.change]
    split
    · rename_i h
      obtain ⟨-, hd⟩ | ⟨u, -, hu⟩ := State.pair_edits h
      · exact .inl hd
      · exact .inr (.inl (edits_sameWorkspace hu))
    · exact .inl rfl
  | unpair id =>
    simp only [State.change]
    split
    · rename_i h
      exact .inr (.inl (edits_sameWorkspace (State.unpair_edits h)))
    · exact .inl rfl
  | hear peer m =>
    simp only [State.change]
    obtain h | h | ⟨hn, d, -, hd⟩ := onRead_doc s peer m
    · exact .inl (by rw [h])
    · exact .inr (.inl h)
    · exact .inr (.inr (.inl ⟨hn, by rw [hd]; rfl⟩))
  | notice e =>
    simp only [State.change]
    cases hm : mismatch e with
    | false => exact .inl (onNetEvent_doc hm)
    | true =>
      cases e with
      | differentWorkspaces id key theirs size =>
        simp only [State.onNetEvent]
        split
        · rename_i d hd
          split
          · exact .inr (.inr (.inr ⟨by rw [hd]; rfl, rfl⟩))
          · exact .inl rfl
        · exact .inl rfl
      | _ => cases hm

/-! What a step of a session tells the other end. -/

theorem identify_stage {t u : SessionTask} {agent s : State} {os : List SessionOutcome}
    (h : t.step agent .identify = some (u, s, os)) :
    ∃ peer key, u.stage = .identifying peer key (agent.doc.map WorkspaceDoc.workspaceId) := by
  cases stepped h with
  | identify hst =>
    simp only [SessionTask.step, hst, Option.some.injEq, Prod.mk.injEq] at h
    exact ⟨_, _, by rw [← h.1]⟩

theorem onIdentified_mismatch {t : SessionTask} {peer : MachineId} {k : PubKey}
    {ours : Option WorkspaceId} {m : Message} {id : MachineId} {name : String} {key : PubKey}
    {ws : WorkspaceId} {n : ℕ}
    (h : .differentWorkspaces id name key ws n ∈ (t.onIdentified peer k ours m).2) :
    ∃ o, ours = some o ∧ m = .identify name (some ws) n ∧ o ≠ ws := by
  unfold onIdentified at h
  split at h
  · split at h
    · split at h
      · rename_i o w hne
        simp only [List.mem_singleton, SessionOutcome.differentWorkspaces.injEq] at h
        obtain ⟨-, rfl, -, rfl, rfl⟩ := h
        exact ⟨o, rfl, rfl, hne⟩
      · simp at h
    · simp at h
  · simp at h

theorem mismatch_identified {t u : SessionTask} {agent s : State} {e : SessionTask.Event}
    {os : List SessionOutcome} (h : t.step agent e = some (u, s, os)) {id : MachineId}
    {name : String} {key : PubKey} {ws : WorkspaceId} {n : ℕ}
    (hm : .differentWorkspaces id name key ws n ∈ os) :
    ∃ o, e = .identified (.identify name (some ws) n) ∧ o ≠ ws ∧
      ∃ peer key, t.stage = .identifying peer key (some o) := by
  cases stepped h with
  | different hst =>
    simp only [SessionTask.step, hst, Option.some.injEq, Prod.mk.injEq] at h
    rw [← h.2.2] at hm
    obtain ⟨o, rfl, rfl, hne⟩ := onIdentified_mismatch hm
    exact ⟨o, rfl, hne, _, _, hst⟩
  | read hst hr hstage hos => obtain rfl | rfl := hos <;> simp at hm
  | report hst => simp at hm
  | _ => simp at hm

/-! What a step can do to the documents, to what is told of them and to the decisions. -/

/-- What side `s` says of its document is on its way. -/
def Told (w : Meeting) (s : Side) (workspace : WorkspaceId) (size : ℕ) : Prop :=
  ∃ l ∈ w.links, ∃ name, .identify name (some workspace) size ∈ l.inbound s.other

/-- What side `s` said of its document is to be decided upon. -/
def Learned (w : Meeting) (s : Side) (workspace : WorkspaceId) (size : ℕ) : Prop :=
  ∃ id key, .differentWorkspaces id key workspace size ∈ w.events s.other

/-- A document side `s` is sending. -/
def Sends (w : Meeting) (s : Side) (d : WorkspaceDoc) : Prop :=
  ∃ l ∈ w.links, (∃ peer, (l.task s).stage = .syncing peer d) ∨ .docFull d ∈ l.inbound s.other

/-- The workspace side `s` has identified itself with on a connection that waits for the other. -/
def Held (w : Meeting) (s : Side) (workspace : WorkspaceId) : Prop :=
  ∃ l ∈ w.links, ∃ peer key, (l.task s).stage = .identifying peer key (some workspace)

theorem Told.pending {w : Meeting} {s : Side} {ws : WorkspaceId} {n : ℕ} (h : w.Told s ws n) :
    w.Pending := by
  obtain ⟨l, hl, name, hm⟩ := h
  exact ⟨s.other, .inl ⟨l, hl, _, hm, rfl⟩⟩

theorem Learned.pending {w : Meeting} {s : Side} {ws : WorkspaceId} {n : ℕ}
    (h : w.Learned s ws n) : w.Pending := by
  obtain ⟨id, key, he⟩ := h
  exact ⟨s.other, .inr (.inl ⟨_, he, rfl⟩)⟩

/-- The same document, the same one changed, the first one a machine without receives from the other
or hears of, or none any more. -/
inductive DocMoves (w : Meeting) (s : Side) : Option WorkspaceDoc → Prop where
  | same : DocMoves w s (w.state s).doc
  | changed {d e : WorkspaceDoc} (hd : (w.state s).doc = some d)
      (hw : e.workspaceId = d.workspaceId) (hp : w.Pending → d.size ≤ e.size)
      (hy : (w.yielding s).isSome → e.size ≤ d.size) : DocMoves w s (some e)
  | received {d : WorkspaceDoc} (hd : (w.state s).doc = none) (hs : w.Sends s.other d) :
      DocMoves w s (some d)
  | heard {d : WorkspaceDoc} (hd : (w.state s).doc = none)
      (hw : ∀ e ∈ (w.state s.other).doc, d.workspaceId = e.workspaceId) : DocMoves w s (some d)
  | given (hy : (w.yielding s).isSome) : DocMoves w s none

/-- The same decision, a new one, or one that is carried out. -/
inductive Decides (w : Meeting) (s : Side) (v : Meeting) : Prop where
  | same (hy : v.yielding s = w.yielding s) (ha : v.adopted s = w.adopted s)
  | yields {d : WorkspaceDoc} {ws : WorkspaceId} {n : ℕ} (hd : (w.state s).doc = some d)
      (hs : v.state = w.state) (hn : w.yielding s = none) (hy : (v.yielding s).isSome)
      (ha : v.adopted s = w.adopted s) (hl : w.Learned s.other ws n) (hr : d.rank < rank ws n)
  | adopts (hy : (w.yielding s).isSome) (hn : v.yielding s = none) (hd : (v.state s).doc = none)

structure Moves (w v : Meeting) : Prop where
  doc : ∀ s, DocMoves w s (v.state s).doc
  decides : ∀ s, Decides w s v
  told : ∀ s ws n, v.Told s ws n → w.Told s ws n ∨ v.state = w.state ∧
    ∃ d, (w.state s).doc = some d ∧ ws = d.workspaceId ∧ n = d.size
  learned : ∀ s ws n, v.Learned s ws n → w.Learned s ws n ∨
    w.Told s ws n ∧ ∃ o, w.Held s.other o ∧ o ≠ ws
  sends : ∀ s d, v.Sends s d → w.Sends s d ∨ (w.state s).doc = some d
  held : ∀ s o, v.Held s o → w.Held s o ∨ ∃ d, (w.state s).doc = some d ∧ o = d.workspaceId

theorem mem_moved {l : Link} {s x : Side} {t : SessionTask} {read : Bool} {out : List Message}
    {m : Message} (h : m ∈ (l.moved s t read out).inbound x) :
    m ∈ l.inbound x ∨ x = s.other ∧ m ∈ out := by
  unfold Link.moved at h
  simp only at h
  split at h
  · rename_i hx
    subst hx
    split at h
    · split at h
      · exact .inl (List.mem_of_mem_tail h)
      · exact .inl h
    · cases h
  · rename_i hx
    split at h
    · exact (List.mem_append.mp h).imp_right fun h => ⟨Side.eq_other_of_ne hx, h⟩
    · cases h

theorem mem_told {t u : SessionTask} {agent s : State} {e : SessionTask.Event}
    {os : List SessionOutcome} {me : MachineId} {computerName : String} {m : Message}
    (h : t.step agent e = some (u, s, os)) (hm : m ∈ told agent me computerName u e) :
    (e = .identify ∧ m = Network.identify agent me computerName) ∨ m = Network.separate ∨
      ∃ peer d, t.stage = .syncing peer d ∧ m = .docFull d := by
  cases stepped h with
  | identify => exact .inl ⟨rfl, List.mem_singleton.mp hm⟩
  | different => exact .inr (.inl (List.mem_singleton.mp hm))
  | established | unidentified => simp [told] at hm
  | @synced peer d _ _ hst => exact .inr (.inr ⟨peer, d, hst, List.mem_singleton.mp hm⟩)
  | unsynced => simp [told, finished] at hm
  | _ => simp [told] at hm

section Relink
variable {w v : Meeting} {i : ℕ} {l : Link} {s x : Side} {u : SessionTask} {read : Bool}
  {out : List Message} (hl : w.links[i]? = some l)
  (hv : v.links = w.links.set i (l.moved s u read out))
include hl hv

theorem Told.relink {ws : WorkspaceId} {n : ℕ} (h : v.Told x ws n) :
    w.Told x ws n ∨ x = s ∧ ∃ name, .identify name (some ws) n ∈ out := by
  obtain ⟨k, hk, name, hm⟩ := h
  rw [hv] at hk
  obtain hk | rfl := List.mem_or_eq_of_mem_set hk
  · exact .inl ⟨k, hk, name, hm⟩
  · obtain hm | ⟨hx, hm⟩ := mem_moved hm
    · exact .inl ⟨l, List.mem_of_getElem? hl, name, hm⟩
    · exact .inr ⟨by rw [← x.other_other, hx, Side.other_other], name, hm⟩

theorem Sends.relink {d : WorkspaceDoc} (h : v.Sends x d) :
    w.Sends x d ∨ x = s ∧ ((∃ peer, u.stage = .syncing peer d) ∨ .docFull d ∈ out) := by
  obtain ⟨k, hk, h⟩ := h
  rw [hv] at hk
  obtain hk | rfl := List.mem_or_eq_of_mem_set hk
  · exact .inl ⟨k, hk, h⟩
  obtain ⟨peer, hst⟩ | hm := h
  · by_cases hx : x = s
    · subst hx
      rw [Link.moved_task, Function.update_self] at hst
      exact .inr ⟨rfl, .inl ⟨peer, hst⟩⟩
    · rw [Link.moved_task, Function.update_of_ne hx] at hst
      exact .inl ⟨l, List.mem_of_getElem? hl, .inl ⟨peer, hst⟩⟩
  · obtain hm | ⟨hx, hm⟩ := mem_moved hm
    · exact .inl ⟨l, List.mem_of_getElem? hl, .inr hm⟩
    · exact .inr ⟨by rw [← x.other_other, hx, Side.other_other], .inr hm⟩

theorem Held.relink {o : WorkspaceId} (h : v.Held x o) :
    w.Held x o ∨ x = s ∧ ∃ peer key, u.stage = .identifying peer key (some o) := by
  obtain ⟨k, hk, peer, key, hst⟩ := h
  rw [hv] at hk
  obtain hk | rfl := List.mem_or_eq_of_mem_set hk
  · exact .inl ⟨k, hk, peer, key, hst⟩
  by_cases hx : x = s
  · subst hx
    rw [Link.moved_task, Function.update_self] at hst
    exact .inr ⟨rfl, peer, key, hst⟩
  · rw [Link.moved_task, Function.update_of_ne hx] at hst
    exact .inl ⟨l, List.mem_of_getElem? hl, peer, key, hst⟩

end Relink

theorem docMoves_update {w v : Meeting} {s : Side} {t : State}
    (hv : v.state = Function.update w.state s t) (h : DocMoves w s t.doc) (x : Side) :
    DocMoves w x (v.state x).doc := by
  rw [hv]
  by_cases hx : x = s
  · subst hx
    rwa [Function.update_self]
  · rw [Function.update_of_ne hx]
    exact .same

theorem docMoves_of_steady {w : Meeting} {s : Side} {t : State} (h : w.Steady s t)
    (hw : SameWorkspace (w.state s) t) : DocMoves w s t.doc := by
  obtain ⟨d, e, hd, he, hws⟩ := hw
  rw [he]
  exact .changed hd hws (h d hd e he).1 (h d hd e he).2

theorem stage_identifying {t u : SessionTask} {agent s : State} {e : SessionTask.Event}
    {os : List SessionOutcome} (h : t.step agent e = some (u, s, os)) {peer : MachineId}
    {key : PubKey} {o : WorkspaceId} (hu : u.stage = .identifying peer key (some o)) :
    ∃ d, agent.doc = some d ∧ o = d.workspaceId := by
  have hid : e = .identify := by
    cases stepped h with
    | identify => rfl
    | read hst hr hstage => obtain rfl | ⟨_, rfl⟩ := hstage <;> cases hu
    | _ => cases hu
  subst hid
  obtain ⟨p, k, hst⟩ := identify_stage h
  rw [hst] at hu
  obtain ⟨-, -, ho⟩ := Stage.identifying.inj hu
  obtain ⟨d, hd, rfl⟩ := Option.map_eq_some_iff.mp ho
  exact ⟨d, hd, rfl⟩

theorem stage_syncing {t u : SessionTask} {agent s : State} {e : SessionTask.Event}
    {os : List SessionOutcome} (h : t.step agent e = some (u, s, os)) {peer : MachineId}
    {d : WorkspaceDoc} (hu : u.stage = .syncing peer d) : agent.doc = some d := by
  cases stepped h with
  | snapshot hst hd =>
    obtain ⟨-, rfl⟩ := Stage.syncing.inj hu
    exact hd
  | read hst hr hstage => obtain rfl | ⟨_, rfl⟩ := hstage <;> cases hu
  | _ => cases hu

theorem step_agent {t u : SessionTask} {agent s : State} {e : SessionTask.Event}
    {os : List SessionOutcome} (h : t.step agent e = some (u, s, os)) :
    s = agent ∨ ∃ peer m, e = .read m ∧ s = (onRead agent peer m).2.1 := by
  cases stepped h with
  | @read peer m stage s os hst hr => exact .inr ⟨peer, m, rfl, by rw [hr]⟩
  | _ => exact .inl rfl

theorem docMoves_of_change {w : Meeting} {s : Side} {now : ℕ} {c : Change}
    (hsteady : w.Steady s ((w.state s).change (w.me s).machineId now c))
    (hloyal : w.Loyal s ((w.state s).change (w.me s).machineId now c)) :
    DocMoves w s ((w.state s).change (w.me s).machineId now c).doc := by
  obtain h | h | ⟨hn, hsome⟩ | ⟨hsome, hn⟩ := change_doc (w.state s) (w.me s).machineId now c
  · rw [h]
    exact .same
  · exact docMoves_of_steady hsteady h
  · obtain ⟨d, hd⟩ := Option.isSome_iff_exists.mp hsome
    rw [hd]
    exact .heard hn (hloyal.2 hn d hd)
  · have := hloyal.1 hsome
    rw [hn] at this
    cases this

theorem moves_session {w v : Meeting} {i : ℕ} {s : Side} {e : SessionTask.Event} {name : String}
    (hok : w.Undisturbed (.session i s e name)) (h : w.step (.session i s e name) = some v) :
    Moves w v := by
  simp only [step, Option.bind_eq_bind, Option.bind_eq_some_iff] at h
  obtain ⟨l, hl, h⟩ := h
  split at h
  swap
  · cases h
  rename_i hread
  simp only [Option.bind_eq_some_iff] at h
  obtain ⟨⟨u, agent, os⟩, hu, h⟩ := h
  obtain rfl := Option.some.inj h
  have hmem : ∀ m ∈ taken e, m ∈ l.inbound s := fun m hm => List.mem_of_head? (hread m hm)
  have hll := List.mem_of_getElem? hl
  refine ⟨docMoves_update rfl ?_, fun x => .same rfl rfl, fun x ws n hx => ?_,
    fun x ws n hx => ?_, fun x d hx => ?_, fun x o hx => ?_⟩
  · obtain rfl | ⟨peer, m, rfl, rfl⟩ := step_agent hu
    · exact .same
    · obtain h | h | ⟨hn, d, rfl, hd⟩ := onRead_doc (w.state s) peer m
      · rw [h]
        exact .same
      · rw [onRead_peer _ _ (w.me s.other).machineId] at h ⊢
        exact docMoves_of_steady hok h
      · rw [hd]
        exact .received hn ⟨l, hll, .inr (by simpa using hmem _ rfl)⟩
  · obtain hx | ⟨rfl, name', hm⟩ := Told.relink hl rfl hx
    · exact .inl hx
    obtain ⟨rfl, hid⟩ | hid | ⟨peer, d, -, hid⟩ := mem_told hu hm
    · obtain rfl | ⟨peer, m, he, -⟩ := step_agent hu
      · obtain ⟨-, hws, hn⟩ := Message.identify.inj hid
        obtain ⟨d, hd, rfl⟩ := Option.map_eq_some_iff.mp hws.symm
        refine .inr ⟨Function.update_eq_self x w.state, d, hd, rfl, ?_⟩
        rw [hn, hd]
        rfl
      · cases he
    · cases hid
    · cases hid
  · obtain ⟨id, key, hm⟩ := hx
    by_cases hxs : x.other = s
    · subst hxs
      simp only [Function.update_self, List.mem_append, List.mem_flatMap] at hm
      obtain hm | ⟨o, ho, hm⟩ := hm
      · exact .inl ⟨id, key, hm⟩
      · obtain ⟨name', rfl⟩ : ∃ name', o = .differentWorkspaces id name' key ws n := by
          cases o <;> simp_all [reported]
        obtain ⟨o, rfl, hne, peer, k, hst⟩ := mismatch_identified hu ho
        exact .inr ⟨⟨l, hll, name', hmem _ rfl⟩, o, ⟨l, hll, peer, k, hst⟩, hne⟩
    · simp only [Function.update_of_ne hxs] at hm
      exact .inl ⟨id, key, hm⟩
  · obtain hx | ⟨rfl, ⟨peer, hst⟩ | hm⟩ := Sends.relink hl rfl hx
    · exact .inl hx
    · exact .inr (stage_syncing hu hst)
    · obtain ⟨-, hm⟩ | hm | ⟨peer, d', hst, hm⟩ := mem_told hu hm
      · cases hm
      · cases hm
      · obtain rfl := Message.docFull.inj hm
        exact .inl ⟨l, hll, .inl ⟨peer, hst⟩⟩
  · obtain hx | ⟨rfl, peer, key, hst⟩ := Held.relink hl rfl hx
    · exact .inl hx
    · exact .inr (stage_identifying hu hst)

theorem moves_connect {w v : Meeting} {dialler : Side} {addr : String}
    (h : w.step (.connect dialler addr) = some v) : Moves w v := by
  obtain rfl := Option.some.inj h
  have hmem : ∀ {l : Link}, l ∈ w.links ++ [⟨w.greeted dialler addr, fun _ => []⟩] →
      l ∈ w.links ∨ l = ⟨w.greeted dialler addr, fun _ => []⟩ :=
    fun h => (List.mem_append.mp h).imp_right List.mem_singleton.mp
  refine ⟨fun x => .same, fun x => .same rfl rfl, ?_, fun x ws n hx => .inl hx, ?_, ?_⟩
  · rintro x ws n ⟨l, hl, name, hm⟩
    obtain hl | rfl := hmem hl
    · exact .inl ⟨l, hl, name, hm⟩
    · cases hm
  · rintro x d ⟨l, hl, hm⟩
    obtain hl | rfl := hmem hl
    · exact .inl ⟨l, hl, hm⟩
    · obtain ⟨peer, hst⟩ | hm := hm
      · cases hst
      · cases hm
  · rintro x o ⟨l, hl, peer, key, hst⟩
    obtain hl | rfl := hmem hl
    · exact .inl ⟨l, hl, peer, key, hst⟩
    · cases hst

theorem moves_write {w v : Meeting} {i : ℕ} {s : Side} {m : Message}
    (h : w.step (.write i s m) = some v) : Moves w v := by
  simp only [step, Option.bind_eq_bind, Option.bind_eq_some_iff] at h
  obtain ⟨l, hl, h⟩ := h
  split at h
  swap
  · cases h
  rename_i hm
  rw [Bool.and_eq_true, Bool.not_eq_true'] at hm
  obtain ⟨hw, hm⟩ := hm
  obtain rfl := Option.some.inj h
  refine ⟨fun x => .same, fun x => .same rfl rfl, fun x ws n hx => ?_, fun x ws n hx => .inl hx,
    fun x d hx => ?_, fun x o hx => ?_⟩
  · obtain hx | ⟨-, name, hmem⟩ := Told.relink hl rfl hx
    · exact .inl hx
    · obtain rfl := List.mem_singleton.mp hmem
      cases hm
  · obtain hx | ⟨-, ⟨peer, hst⟩ | hmem⟩ := Sends.relink hl rfl hx
    · exact .inl hx
    · simp [Service.writing, hst] at hw
    · obtain rfl := List.mem_singleton.mp hmem
      cases hm
  · obtain hx | ⟨-, peer, key, hst⟩ := Held.relink hl rfl hx
    · exact .inl hx
    · simp [Service.writing, hst] at hw

theorem moves_event {w v : Meeting} {s : Side} {now : ℕ} {missed : Bool}
    (h : w.step (.event s now missed) = some v) : Moves w v := by
  simp only [step] at h
  split at h
  swap
  · cases h
  rename_i e rest he hn
  have hrest : ∀ x ws n, (∃ id key, .differentWorkspaces id key ws n ∈
      Function.update w.events s rest x.other) → w.Learned x ws n := by
    rintro x ws n ⟨id, key, hm⟩
    by_cases hxs : x.other = s
    · subst hxs
      rw [Function.update_self] at hm
      exact ⟨id, key, by rw [he]; exact List.mem_cons_of_mem _ hm⟩
    · rw [Function.update_of_ne hxs] at hm
      exact ⟨id, key, hm⟩
  have hsame : Moves w { w with events := Function.update w.events s rest } :=
    ⟨fun x => .same, fun x => .same rfl rfl, fun x ws n hx => .inl hx,
      fun x ws n hx => .inl (hrest x ws n hx), fun x d hx => .inl hx, fun x o hx => .inl hx⟩
  split at h
  · obtain rfl := Option.some.inj h
    exact hsame
  split at h
  · rename_i id key ws n
    split at h
    · rename_i d hd
      split at h
      · rename_i hy
        obtain rfl := Option.some.inj h
        refine ⟨fun x => .same, fun x => ?_, fun x ws n hx => .inl hx,
          fun x ws n hx => .inl (hrest x ws n hx), fun x d hx => .inl hx, fun x o hx => .inl hx⟩
        by_cases hx : x = s
        · subst hx
          refine .yields hd rfl hn (by simp) rfl ⟨id, key, ?_⟩ ((shouldYield_iff d ws n).mp hy)
          rw [Side.other_other, he]
          exact List.mem_cons_self
        · exact .same (Function.update_of_ne hx _ _) rfl
      · obtain rfl := Option.some.inj h
        exact hsame
    · obtain rfl := Option.some.inj h
      exact hsame
  · rename_i hne
    obtain rfl := Option.some.inj h
    refine ⟨docMoves_update rfl ?_, fun x => .same rfl rfl, fun x ws n hx => .inl hx,
      fun x ws n hx => .inl (hrest x ws n hx), fun x d hx => .inl hx, fun x o hx => .inl hx⟩
    rw [onNetEvent_doc]
    · exact .same
    · cases e with
      | differentWorkspaces id key ws n => exact absurd rfl (hne id key ws n)
      | _ => rfl

theorem moves_adopt {w v : Meeting} {s : Side} (h : w.step (.adopt s) = some v) : Moves w v := by
  simp only [step] at h
  split at h
  swap
  · cases h
  rename_i id key hy
  obtain rfl := Option.some.inj h
  have hsome : (w.yielding s).isSome := by rw [hy]; rfl
  refine ⟨docMoves_update rfl (.given hsome), fun x => ?_, fun x ws n hx => .inl hx,
    fun x ws n hx => .inl hx, fun x d hx => .inl hx, fun x o hx => .inl hx⟩
  by_cases hx : x = s
  · subst hx
    refine .adopts hsome (Function.update_self ..) ?_
    simp only [Function.update_self]
    rfl
  · exact .same (Function.update_of_ne hx _ _) (Function.update_of_ne hx _ _)

theorem moves {w v : Meeting} {a : Action} (hok : w.Undisturbed a) (h : w.step a = some v) :
    Moves w v := by
  cases a with
  | session i s e name => exact moves_session hok h
  | connect dialler addr => exact moves_connect h
  | write i s m => exact moves_write h
  | change s now c =>
    obtain rfl := Option.some.inj h
    exact ⟨docMoves_update rfl (docMoves_of_change hok.1 hok.2), fun x => .same rfl rfl,
      fun x ws n hx => .inl hx, fun x ws n hx => .inl hx, fun x d hx => .inl hx,
      fun x o hx => .inl hx⟩
  | event s now missed => exact moves_event h
  | adopt s => exact moves_adopt h

/-! The two decisions agree as long as the numbers they are taken on do. -/

structure Firm (w : Meeting) (s : Side) (ws : WorkspaceId) : Prop where
  doc : ∃ d, (w.state s).doc = some d ∧ d.workspaceId = ws
  held : ∀ o, w.Held s o → o = ws
  sends : ∀ d, w.Sends s d → d.workspaceId = ws
  yielding : w.yielding s = none
  adopted : w.adopted s = false

/-- Neither has decided to give way, and nothing said of either document is greater than it. -/
structure Apart (own : Side → WorkspaceId) (w : Meeting) : Prop where
  firm : ∀ s, w.Firm s (own s)
  bound : ∀ s d, (w.state s).doc = some d → ∀ ws n, w.Told s ws n ∨ w.Learned s ws n →
    rank ws n ≤ d.rank

/-- Side `s` gives way: nothing said of the document it gives up, or of the one it has, makes the
other do so too. -/
structure GivesWay (own : Side → WorkspaceId) (s : Side) (w : Meeting) : Prop where
  firm : w.Firm s.other (own s.other)
  below : ∀ d, (w.state s.other).doc = some d →
    (∀ ws n, w.Learned s ws n → rank ws n < d.rank) ∧
    (∀ ws n, w.Told s ws n → ws = own s.other ∨ rank ws n < d.rank) ∧
    ∀ e, (w.state s).doc = some e →
      e.workspaceId = own s.other ∨ (w.yielding s).isSome ∧ e.rank < d.rank

theorem Firm.later {w v : Meeting} {s : Side} {ws : WorkspaceId} (h : w.Firm s ws)
    (hm : Moves w v) {e : WorkspaceDoc} (he : (v.state s).doc = some e) :
    ∃ d, (w.state s).doc = some d ∧ e.workspaceId = d.workspaceId ∧
      (w.Pending → d.rank ≤ e.rank) := by
  obtain ⟨d, hd, -⟩ := h.doc
  have hdoc := hm.doc s
  rw [he] at hdoc
  generalize hx : (some e : Option WorkspaceDoc) = x at hdoc
  cases hdoc with
  | same =>
    obtain rfl := Option.some.inj (hx.trans hd)
    exact ⟨e, hd, rfl, fun _ => le_rfl⟩
  | @changed d' e' hd' hw hp =>
    obtain rfl := Option.some.inj hx
    exact ⟨d', hd', hw, fun h => WorkspaceDoc.rank_le hw (hp h)⟩
  | received hn | heard hn =>
    rw [hd] at hn
    cases hn
  | given => cases hx

theorem Firm.moves {w v : Meeting} {s : Side} {ws : WorkspaceId} (h : w.Firm s ws)
    (hm : Moves w v) (hy : v.yielding s = w.yielding s) (ha : v.adopted s = w.adopted s) :
    v.Firm s ws := by
  obtain ⟨d, hd, hws⟩ := h.doc
  refine ⟨?_, fun o ho => ?_, fun e he => ?_, hy.trans h.yielding, ha.trans h.adopted⟩
  · have hdoc := hm.doc s
    generalize hx : (v.state s).doc = x at hdoc
    cases hdoc with
    | same => exact ⟨d, hd, hws⟩
    | @changed d' e hd' hw =>
      obtain rfl := Option.some.inj (hd.symm.trans hd')
      exact ⟨e, rfl, hw.trans hws⟩
    | received hn | heard hn =>
      rw [hd] at hn
      cases hn
    | given hg =>
      rw [h.yielding] at hg
      cases hg
  · obtain ho | ⟨e, he, rfl⟩ := hm.held s o ho
    · exact h.held o ho
    · rw [← hws, Option.some.inj (he.symm.trans hd)]
  · obtain he | he := hm.sends s e he
    · exact h.sends e he
    · rw [← hws, Option.some.inj (he.symm.trans hd)]

theorem GivesWay.moves {own : Side → WorkspaceId} {s : Side} {w v : Meeting}
    (h : GivesWay own s w) (hm : Moves w v) : GivesWay own s v := by
  obtain ⟨d, hd, hws⟩ := h.firm.doc
  obtain ⟨hlearned, htold, hown⟩ := h.below d hd
  obtain ⟨hy, ha⟩ : v.yielding s.other = w.yielding s.other ∧
      v.adopted s.other = w.adopted s.other := by
    cases hm.decides s.other with
    | same hy ha => exact ⟨hy, ha⟩
    | @yields d' ws n hd' _ _ _ _ hl hr =>
      rw [Side.other_other] at hl
      obtain rfl := Option.some.inj (hd.symm.trans hd')
      exact absurd (hlearned ws n hl) (lt_asymm hr)
    | adopts hg =>
      rw [h.firm.yielding] at hg
      cases hg
  refine ⟨h.firm.moves hm hy ha, fun e he => ?_⟩
  obtain ⟨d', hd', -, hle⟩ := h.firm.later hm he
  obtain rfl := Option.some.inj (hd.symm.trans hd')
  refine ⟨fun ws n hl => ?_, fun ws n ht => ?_, fun x hx => ?_⟩
  · obtain hl | ⟨ht, o, ho, hne⟩ := hm.learned s ws n hl
    · exact (hlearned ws n hl).trans_le (hle hl.pending)
    · -- an exchange in which the other holds another workspace
      have hne' : ws ≠ own s.other := by
        rw [← h.firm.held o ho]
        exact hne.symm
      exact ((htold ws n ht).resolve_left hne').trans_le (hle ht.pending)
  · obtain ht | ⟨hst, x, hx, rfl, rfl⟩ := hm.told s ws n ht
    · exact (htold ws n ht).imp_right fun hr => hr.trans_le (hle ht.pending)
    · rw [hst, hd] at he
      obtain rfl := Option.some.inj he
      exact (hown x hx).imp_right And.right
  · have hdoc := hm.doc s
    rw [hx] at hdoc
    generalize hz : (some x : Option WorkspaceDoc) = z at hdoc
    -- a document that is being given up stays in that state until it is gone
    have hkeep : (w.yielding s).isSome → (v.yielding s).isSome ∧ w.Pending := by
      intro hg
      refine ⟨?_, s, .inr (.inr hg)⟩
      cases hm.decides s with
      | same hy => rwa [hy]
      | yields _ _ hn =>
        rw [hn] at hg
        cases hg
      | adopts _ _ hn =>
        rw [hx] at hn
        cases hn
    cases hdoc with
    | same =>
      obtain hw | ⟨hg, hr⟩ := hown x hz.symm
      · exact .inl hw
      · exact .inr ⟨(hkeep hg).1, hr.trans_le (hle (hkeep hg).2)⟩
    | @changed d₀ e₀ hd₀ hw _ hsize =>
      obtain rfl := Option.some.inj hz
      obtain hown | ⟨hg, hr⟩ := hown d₀ hd₀
      · exact .inl (hw.trans hown)
      · refine .inr ⟨(hkeep hg).1, ?_⟩
        exact ((WorkspaceDoc.rank_le hw.symm (hsize hg)).trans_lt hr).trans_le (hle (hkeep hg).2)
    | received _ hs =>
      obtain rfl := Option.some.inj hz
      exact .inl (h.firm.sends _ hs)
    | heard _ hw =>
      obtain rfl := Option.some.inj hz
      exact .inl ((hw d hd).trans hws)
    | given => cases hz

theorem Apart.moves {own : Side → WorkspaceId} {w v : Meeting} (h : Apart own w)
    (hm : Moves w v) : Apart own v ∨ ∃ s, GivesWay own s v := by
  -- what is said of a document does not come to exceed it
  have hbound : ∀ s e, (v.state s).doc = some e → ∀ ws n, v.Told s ws n ∨ v.Learned s ws n →
      rank ws n ≤ e.rank := by
    intro s e he ws n hr
    obtain ⟨d, hd, -, hle⟩ := (h.firm s).later hm he
    obtain ht | hl := hr
    · obtain ht | ⟨hst, x, hx, rfl, rfl⟩ := hm.told s ws n ht
      · exact (h.bound s d hd ws n (.inl ht)).trans (hle ht.pending)
      · rw [hst, hx] at he
        obtain rfl := Option.some.inj he
        exact le_rfl
    · obtain hl | ⟨ht, -⟩ := hm.learned s ws n hl
      · exact (h.bound s d hd ws n (.inr hl)).trans (hle hl.pending)
      · exact (h.bound s d hd ws n (.inl ht)).trans (hle ht.pending)
  by_cases hy : ∃ s d ws n, (w.state s).doc = some d ∧ w.Learned s.other ws n ∧
      d.rank < rank ws n ∧ v.state = w.state ∧ (v.yielding s).isSome
  · obtain ⟨s, d, ws, n, hd, hl, hr, hst, hg⟩ := hy
    obtain ⟨e, he, hown⟩ := (h.firm s.other).doc
    have hlt : d.rank < e.rank := hr.trans_le (h.bound s.other e he ws n (.inr hl))
    have hfirm : v.Firm s.other (own s.other) := by
      cases hm.decides s.other with
      | same hy ha => exact (h.firm s.other).moves hm hy ha
      | @yields e' ws' n' he' _ _ _ _ hl' hr' =>
        rw [Side.other_other] at hl'
        obtain rfl := Option.some.inj (he.symm.trans he')
        exact absurd (hr'.trans_le (h.bound s d hd ws' n' (.inr hl'))) (lt_asymm hlt)
      | adopts hg =>
        rw [(h.firm s.other).yielding] at hg
        cases hg
    refine .inr ⟨s, hfirm, fun x hx => ?_⟩
    rw [hst, he] at hx
    obtain rfl := Option.some.inj hx
    have hd' : (v.state s).doc = some d := by rw [hst, hd]
    refine ⟨fun ws n hl => (hbound s d hd' ws n (.inr hl)).trans_lt hlt,
      fun ws n ht => .inr ((hbound s d hd' ws n (.inl ht)).trans_lt hlt), fun x hx => ?_⟩
    obtain rfl := Option.some.inj (hd'.symm.trans hx)
    exact .inr ⟨hg, hlt⟩
  · refine .inl ⟨fun s => ?_, hbound⟩
    cases hm.decides s with
    | same hy ha => exact (h.firm s).moves hm hy ha
    | yields hd hst _ hg _ hl hr => exact absurd ⟨s, _, _, _, hd, hl, hr, hst, hg⟩ hy
    | adopts hg =>
      rw [(h.firm s).yielding] at hg
      cases hg

/-- Two machines that have admitted each other hold different workspaces, and nothing has passed
between them. -/
structure Meets (w : Meeting) : Prop where
  admitted : ∀ s, (w.state s).authorize (w.me s.other).machineId (w.me s.other).publicKey
  apart : ∃ d e, (w.state .left).doc = some d ∧ (w.state .right).doc = some e ∧
    d.workspaceId ≠ e.workspaceId
  links : w.links = []
  events : ∀ s, w.events s = []
  yielding : ∀ s, w.yielding s = none
  adopted : ∀ s, w.adopted s = false

theorem Meets.apart_of {w : Meeting} (h : Meets w) : ∃ own, Apart own w := by
  obtain ⟨d, e, hd, he, -⟩ := h.apart
  refine ⟨fun | .left => d.workspaceId | .right => e.workspaceId, fun s => ?_,
    fun s x _ ws n hr => ?_⟩
  · refine ⟨?_, fun o ho => ?_, fun x hx => ?_, h.yielding s, h.adopted s⟩
    · cases s with
      | left => exact ⟨d, hd, rfl⟩
      | right => exact ⟨e, he, rfl⟩
    · obtain ⟨l, hl, -⟩ := ho
      simp [h.links] at hl
    · obtain ⟨l, hl, -⟩ := hx
      simp [h.links] at hl
  · obtain ⟨l, hl, -⟩ | ⟨id, key, he⟩ := hr
    · simp [h.links] at hl
    · simp [h.events] at he

/-- At least one of the two holds a document, and at most one has given its own up for the
other's. -/
def OneYields (w : Meeting) : Prop :=
  (∃ s, (w.state s).doc.isSome) ∧ ¬ ∀ s, w.adopted s

theorem Firm.oneYields {w : Meeting} {s : Side} {ws : WorkspaceId} (h : w.Firm s ws) :
    w.OneYields := by
  obtain ⟨d, hd, -⟩ := h.doc
  refine ⟨⟨s, by rw [hd]; rfl⟩, fun ha => ?_⟩
  have := ha s
  rw [h.adopted] at this
  cases this

/-- As long as no document loses machines while what was said of it or of the other is pending, nor
gains any once it is to be given up, and further machines neither make one of the two give its own
up nor bring one without a document into a third workspace, the two never both give way. -/
theorem oneYields_of_undisturbed (w v : Meeting) (as : List Action) (hw : Meets w)
    (h : Run step Undisturbed w as v) : v.OneYields := by
  obtain ⟨own, hown⟩ := hw.apart_of
  have hinv : Apart own v ∨ ∃ s, GivesWay own s v := by
    refine h.invariant (I := fun v => Apart own v ∨ ∃ s, GivesWay own s v)
      (fun w a v hw hok hs => ?_) (.inl hown)
    obtain hw | ⟨s, hw⟩ := hw
    · exact hw.moves (Meeting.moves hok hs)
    · exact .inr ⟨s, hw.moves (Meeting.moves hok hs)⟩
  obtain hv | ⟨s, hv⟩ := hinv
  · exact (hv.firm .left).oneYields
  · exact hv.firm.oneYields

/-- The laptop's own workspace, with the studio's machine and a third one. -/
def laptops : WorkspaceDoc :=
  let d := (WorkspaceDoc.create 9 0 "Desk" laptop).upsertMachine 2 0 studio
  (d.1.upsertMachine 2 0 { laptop with id := 3, displayName := "Spare", publicKey := 13 }).1

def atOdds : Meeting where
  me
    | .left => ⟨1, 11⟩
    | .right => ⟨2, 12⟩
  state
    | .left => .ofDoc together
    | .right => .ofDoc laptops
  links := []
  events _ := []
  yielding _ := none
  adopted _ := false

def exchange : List Action :=
  [.connect .left "192.168.1.7:47452",
    .session 0 .left .authorise "", .session 0 .right .authorise "",
    .session 0 .left .identify "", .session 0 .right .identify "",
    .session 0 .left (.identified (.identify "Laptop" (some 9) 3)) "",
    .session 0 .right (.identified (.identify "Studio" (some 7) 2)) ""]

theorem meets_atOdds : Meets atOdds where
  admitted := by decide +kernel
  apart := ⟨together, laptops, rfl, rfl, by decide +kernel⟩
  links := rfl
  events _ := rfl
  yielding _ := rfl
  adopted _ := rfl

theorem oneYields_of_undisturbed_exchanged :
    ∃ v, Run step Undisturbed atOdds
        (exchange ++ [.event .left 0 false, .event .right 0 false, .adopt .left]) v ∧
      (v.adopted .left = true ∧ (v.state .left).doc = none) ∧ v.OneYields := by
  obtain ⟨v, hrun, hv⟩ := run_of_replay step Undisturbed atOdds
    (exchange ++ [.event .left 0 false, .event .right 0 false, .adopt .left])
    (fun v => (v.adopted .left, (v.state .left).doc)) (b := (true, none)) (by decide +kernel)
  obtain ⟨ha, hd⟩ := Prod.mk.inj hv
  exact ⟨v, hrun, ⟨ha, hd⟩, oneYields_of_undisturbed _ _ _ meets_atOdds hrun⟩

/-- The laptop unpairs a machine before it decides, and both give way. -/
theorem both_yield :
    ∃ v, Meets atOdds ∧ Run step Any atOdds
        (exchange ++ [.event .left 0 false, .change .right 0 (.unpair 3), .event .right 0 false,
          .adopt .left, .adopt .right]) v ∧
      ¬ v.Pending ∧ (∀ s, (v.state s).doc = none ∧ v.adopted s) ∧ ¬ v.OneYields := by
  obtain ⟨v, hrun, hv⟩ := run_of_replay step Any atOdds
    (exchange ++ [.event .left 0 false, .change .right 0 (.unpair 3), .event .right 0 false,
      .adopt .left, .adopt .right])
    (fun v => decide (¬ v.Pending ∧ ∀ s, (v.state s).doc = none ∧ v.adopted s)) (b := true)
    (by decide +kernel)
  obtain ⟨hp, hboth⟩ := of_decide_eq_true hv
  exact ⟨v, meets_atOdds, hrun, hp, hboth, fun h => h.2 fun s => (hboth s).2⟩

def halls : WorkspaceDoc :=
  let d := (WorkspaceDoc.create 5 0 "Hall" { laptop with id := 4, publicKey := 14 }).upsertMachine 4
    0 studio
  let e := d.1.upsertMachine 4 0 laptop
  (e.1.upsertMachine 4 0 { laptop with id := 3, displayName := "Spare", publicKey := 13 }).1

/-- The studio has given its configuration up for the laptop's when a further machine sends it a
greater one, for which the laptop gives way in turn. -/
theorem both_yield_in_turn :
    ∃ as v, Meets atOdds ∧ Run step Any atOdds as v ∧ (∀ s, v.adopted s) ∧ ¬ v.OneYields := by
  obtain ⟨v, hrun, hv⟩ := run_of_replay step Any atOdds
    (exchange ++ [.event .left 0 false, .adopt .left, .change .left 0 (.hear 4 (.docFull halls)),
      .event .right 0 false, .connect .left "192.168.1.7:47452",
      .session 1 .left .authorise "", .session 1 .right .authorise "",
      .session 1 .left .identify "", .session 1 .right .identify "",
      .session 1 .right (.identified (.identify "Studio" (some 5) 4)) "",
      .event .right 0 false, .adopt .right])
    (fun v => decide (∀ s, v.adopted s)) (b := true) (by decide +kernel)
  have hboth := of_decide_eq_true hv
  exact ⟨_, v, meets_atOdds, hrun, hboth, fun h => h.2 hboth⟩

end Meeting
end InputShare

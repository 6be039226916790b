import InputShare.Core.Replicas
import InputShare.Net.Outgoing

/-! Any number of machines of one workspace. Each runs its service, and the sessions of two of them
are the two ends of a connection. -/
namespace InputShare
open LastWriter Runs SessionTask

/-- The machine goes off and comes back: its connections are gone, its document is kept. -/
def Service.off (w : Service) : Service :=
  { w with
    agent := ⟨w.agent.doc, ∅, ∅, ∅⟩
    actor := ⟨w.actor.me, ∅, fun q =>
      if q < w.tasks.length then (w.actor.queues q).close else w.actor.queues q⟩
    inbox := []
    tasks := w.tasks.map fun t => { t with stage := .ended }
    events := []
    editing := [] }

/-- Two machines of the workspace hold the same name, settings and slots. -/
def Service.Agree (s t : Service) : Prop :=
  ∃ d e, s.agent.doc = some d ∧ t.agent.doc = some e ∧
    d.name = e.name ∧ d.settings = e.settings ∧ d.machines = e.machines

namespace Service

theorem off_task {w : Service} {i : ℕ} {u : SessionTask} (h : w.off.tasks[i]? = some u) :
    ∃ t, w.tasks[i]? = some t ∧ u = { t with stage := .ended } := by
  obtain ⟨t, ht, rfl⟩ := Option.map_eq_some_iff.mp ((List.getElem?_map ..).symm.trans h)
  exact ⟨t, ht, rfl⟩

theorem ordered_off {w : Service} (h : Ordered w) : Ordered w.off := by
  refine ⟨fun i u hu => ?_, fun i u hu => ?_⟩
  · obtain ⟨t, ht, rfl⟩ := off_task hu
    exact h.number i t ht
  · obtain ⟨t, -, rfl⟩ := off_task hu
    trivial

theorem not_fed_off (w : Service) (i : ℕ) (p : MachineId) : ¬ Fed w.off i p := by
  intro h
  obtain ⟨u, hu, hst⟩ := h.running
  obtain ⟨t, -, rfl⟩ := off_task hu
  simp at hst

theorem says_off {w : Service} {x : Message} (h : Says w.off x) : Says w x := by
  obtain ⟨i, u, hu, htask⟩ | ⟨q, hitem⟩ | ⟨k, u, hpending, -⟩ := h
  · obtain ⟨t, ht, rfl⟩ := off_task hu
    obtain hsent | ⟨p, d, hst, -⟩ := htask
    · exact .inl ⟨i, t, ht, .inl hsent⟩
    · cases hst
  · refine .inr (.inl ⟨q, ?_⟩)
    simp only [off] at hitem
    split at hitem
    · simp [Queue.close] at hitem
    · exact hitem
  · simp [off] at hpending

theorem Bound.off {w : Service} {q : ℕ} {p : MachineId} (h : Bound w q p) : Bound w.off q p := by
  obtain ⟨t, ht, -⟩ := h
  refine ⟨{ t with stage := .ended }, by simp [Service.off, ht], .inr ?_⟩
  simp [Service.off, (List.getElem?_eq_some_iff.mp ht).1, Queue.close]

end Service

structure Mesh where
  service : MachineId → Service
  /-- The session at the other end of a connection. -/
  other : MachineId × ℕ → Option (MachineId × ℕ)
  /-- How many of the messages its other end has sent a session has read. -/
  heard : MachineId × ℕ → ℕ
  /-- The local edits made so far. -/
  edits : ℕ

namespace Mesh

inductive Action where
  /-- A machine does something of its own; none gives its document up. -/
  | own (m : MachineId) (a : Service.Action)
  /-- Two open sessions are the two ends of one connection. -/
  | connect (m : MachineId) (i : ℕ) (p : MachineId) (j : ℕ)
  /-- A session reads the next message from its other end. -/
  | hear (m : MachineId) (i : ℕ)
  | off (m : MachineId)

/-- The machines of a workspace, each with the document it was founded with. -/
def start (doc : WorkspaceDoc) (key : MachineId → PubKey) (now : MachineId → ℕ) : Mesh where
  service m := .start ⟨m, key m⟩ (.ofDoc doc) (now m)
  other _ := none
  heard _ := 0
  edits := 0

def set (w : Mesh) (m : MachineId) (s : Service) : Mesh :=
  { w with service := Function.update w.service m s }

def openWith (w : Mesh) (m : MachineId) (i : ℕ) : Option MachineId :=
  (w.service m).tasks[i]?.bind fun t => t.stage.open

def next (w : Mesh) (m : MachineId) (i : ℕ) : Option Message := do
  let (p, j) ← w.other (m, i)
  let t ← (w.service p).tasks[j]?
  t.sent[w.heard (m, i)]?

def passed (w : Mesh) (m : MachineId) (i : ℕ) : ℕ :=
  match w.other (m, i) with
  | some e => w.heard e
  | none => 0

def joined (other : MachineId × ℕ → Option (MachineId × ℕ)) (e f : MachineId × ℕ) :
    MachineId × ℕ → Option (MachineId × ℕ) :=
  Function.update (Function.update other e (some f)) f (some e)

def step (w : Mesh) : Action → Option Mesh
  | .own m a =>
    if Service.reads a = false ∧ (w.service m).KeepsDocument a then
      ((w.service m).step a).map fun s => { w.set m s with
        edits := w.edits + (s.edits.length - (w.service m).edits.length) }
    else none
  | .connect m i p j =>
    if w.openWith m i = some p ∧ w.openWith p j = some m ∧ m ≠ p ∧ w.other (m, i) = none ∧
        w.other (p, j) = none then
      some { w with other := joined w.other (m, i) (p, j) }
    else none
  | .hear m i => do
    let x ← w.next m i
    let s ← (w.service m).step (.session i (.read x))
    some { w.set m s with heard := Function.update w.heard (m, i) (w.heard (m, i) + 1) }
  | .off m => some (w.set m (w.service m).off)

theorem own_spec {w v : Mesh} {m : MachineId} {a : Service.Action}
    (hs : step w (.own m a) = some v) : ∃ s, Service.reads a = false ∧
      (w.service m).KeepsDocument a ∧ (w.service m).step a = some s ∧ v = { w.set m s with
        edits := w.edits + (s.edits.length - (w.service m).edits.length) } := by
  simp only [step] at hs
  split_ifs at hs with hok
  obtain ⟨s, hstep, hv⟩ := Option.map_eq_some_iff.mp hs
  exact ⟨s, hok.1, hok.2, hstep, hv.symm⟩

theorem hear_spec {w v : Mesh} {m : MachineId} {i : ℕ} (hs : step w (.hear m i) = some v) :
    ∃ x s, w.next m i = some x ∧ (w.service m).step (.session i (.read x)) = some s ∧
      v = { w.set m s with heard := Function.update w.heard (m, i) (w.heard (m, i) + 1) } := by
  simp only [step, Option.bind_eq_bind, Option.bind_eq_some_iff, Option.some.injEq] at hs
  obtain ⟨x, hx, s, hstep, hv⟩ := hs
  exact ⟨x, s, hx, hstep, hv.symm⟩

theorem next_spec {w : Mesh} {m : MachineId} {i : ℕ} {x : Message} (h : w.next m i = some x) :
    ∃ p j t, w.other (m, i) = some (p, j) ∧ (w.service p).tasks[j]? = some t ∧
      t.sent[w.heard (m, i)]? = some x := by
  simp only [next, Option.bind_eq_bind, Option.bind_eq_some_iff] at h
  obtain ⟨⟨p, j⟩, hother, t, ht, hx⟩ := h
  exact ⟨p, j, t, hother, ht, hx⟩

/-- No document or update is on its way from a session to its other end. -/
def Quiet (w : Mesh) (m : MachineId) (i : ℕ) : Prop :=
  ∀ x, (w.service m).Outgoing i (w.passed m i) x → x.syncs = false

/-- Machines with a live session between them, on which nothing is on its way, agree. -/
def Agrees (w : Mesh) : Prop :=
  ∀ m i p j, w.other (m, i) = some (p, j) → (w.service m).Fed i p → (w.service p).Fed j m →
    w.Quiet m i → w.Quiet p j → (w.service m).Agree (w.service p)

/-- What a machine takes in, every machine it has a live session with has already, or something
newer; and the clocks do not wrap. -/
def Spreads (w : Mesh) : Action → Prop
  | .own .. => w.edits + 2 < u64Size
  | .hear m i => ∀ x ∈ w.next m i, ∀ d ∈ (w.service m).agent.doc, ∀ r y, x.offers r = some y →
      Beats (d.held r) (some y) → ∀ j q, (w.service m).Fed j q →
        ∃ e ∈ (w.service q).agent.doc, Covers (e.held r) y
  | .connect .. | .off _ => True

/-! The documents of the machines are the replicas of one workspace. -/

/-- Whatever carries state and was sent by `m`: a document it has held or an update it has made,
and it holds what is in it, or something newer. -/
structure Known (r : Replicas.World) (m : MachineId) (x : Message) : Prop where
  kept : match x with
    | .docFull d => d ∈ r.documents
    | .update u => u ∈ r.updates
    | _ => True
  covered : ∀ k y, x.offers k = some y → Covers ((r.doc m).held k) y

structure Tracks (base : WorkspaceDoc) (w : Mesh) (r : Replicas.World) : Prop where
  inv : Replicas.Inv base r
  edits : r.edits = w.edits
  kept : ∀ m, r.doc m ∈ r.documents
  me : ∀ m, (w.service m).identity.machineId = m
  doc : ∀ m, (w.service m).agent.doc = some (r.doc m)
  ordered : ∀ m, Service.Ordered (w.service m)
  unsaid : ∀ m (i : ℕ) t, (w.service m).tasks[i]? = some t → Service.Unsaid t
  known : ∀ m x, (w.service m).Says x → x.syncs = true → Known r m x

theorem Known.extends {r r' : Replicas.World} {m : MachineId} {x : Message} (h : Known r m x)
    (hr : Replicas.Extends r r') : Known r' m x := by
  obtain ⟨hkept, hcovered⟩ := h
  refine ⟨?_, fun k y hy => hr.covers m k y (hcovered k y hy)⟩
  cases x with
  | docFull d => exact hr.documents hkept
  | update u => exact hr.updates hkept
  | _ => trivial

theorem covers_of_held {d : WorkspaceDoc} {k : Register} {y : DocWrite} (h : d.held k = some y) :
    Covers (d.held k) y := ⟨y, h, le_rfl⟩

section Turn
variable {base : WorkspaceDoc} {w v : Mesh} {r r' : Replicas.World} {m : MachineId} {s : Service}

theorem Tracks.turn (h : Tracks base w r) (hservice : v.service = Function.update w.service m s)
    (hinv : Replicas.Inv base r') (hext : Replicas.Extends r r') (hedits : r'.edits = v.edits)
    (hkept : ∀ k, r'.doc k ∈ r'.documents)
    (hother : ∀ k, k ≠ m → r'.doc k = r.doc k) (hdoc : s.agent.doc = some (r'.doc m))
    (hme : s.identity = (w.service m).identity) (hord : Service.Ordered s)
    (hun : ∀ (i : ℕ) t, s.tasks[i]? = some t → Service.Unsaid t)
    (htells : ∀ x, s.Says x → x.syncs = true → (w.service m).Says x ∨ Known r' m x) :
    Tracks base v r' := by
  have hself : v.service m = s := by rw [hservice, Function.update_self]
  have hne : ∀ k, k ≠ m → v.service k = w.service k := fun k hk => by
    rw [hservice, Function.update_of_ne hk]
  refine ⟨hinv, hedits, hkept, fun k => ?_, fun k => ?_, fun k => ?_, fun k => ?_, fun k => ?_⟩ <;>
    obtain rfl | hk := eq_or_ne k m
  · rw [hself, hme]
    exact h.me k
  · rw [hne k hk]
    exact h.me k
  · rw [hself, hdoc]
  · rw [hne k hk, hother k hk]
    exact h.doc k
  · rwa [hself]
  · rw [hne k hk]
    exact h.ordered k
  · rwa [hself]
  · rw [hne k hk]
    exact h.unsaid k
  · rw [hself]
    intro x hx hsync
    exact (htells x hx hsync).elim (fun hold => (h.known k x hold hsync).extends hext) id
  · rw [hne k hk]
    exact fun x hx hsync => (h.known k x hx hsync).extends hext

theorem Tracks.docFull (h : Tracks base w r) (m : MachineId) : Known r m (.docFull (r.doc m)) :=
  ⟨h.kept m, fun _ y hy => ⟨y, hy, le_rfl⟩⟩

theorem Tracks.own {a : Service.Action} (h : Tracks base w r) (hs : step w (.own m a) = some v)
    (hlt : w.edits + 2 < u64Size) :
    ∃ r', Tracks base v r' ∧ Replicas.Extends r r' ∧ (∀ k, k ≠ m → r'.doc k = r.doc k) ∧
      ∀ k y, (r'.doc m).held k = some y → (r.doc m).held k = some y ∨
        ∃ n u, (n, u) ∈ (v.service m).editing ∧ u.write.register = k ∧ u.write = y := by
  obtain ⟨s, hreads, hkeeps, hstep, rfl⟩ := own_spec hs
  have hmoves := Service.moves hstep
  have htells : ∀ x, s.Says x → x.syncs = true → (w.service m).Says x ∨
      x = .docFull (r.doc m) ∨ ∃ u, s.edits = (w.service m).edits ++ [u] ∧ x = .update u := by
    intro x hx hsync
    obtain hold | ⟨d, hd, rfl⟩ | hnew := Service.says_step (h.unsaid m) hmoves hx hsync
    · exact .inl hold
    · obtain rfl := Option.some.inj ((h.doc m).symm.trans hd)
      exact .inr (.inl rfl)
    · exact .inr (.inr hnew)
  obtain ⟨hdoc, hsame⟩ | ⟨u, ⟨d, op, hd, hnew, rfl⟩, hedits, hediting⟩ :=
    Service.own_doc hkeeps hreads hmoves
  · refine ⟨r, ?_, .refl r, fun _ _ => rfl, fun k y hy => .inl hy⟩
    refine h.turn (s := s) rfl h.inv (.refl r) ?_ h.kept (fun _ _ => rfl) (hdoc.trans (h.doc m))
      (Service.identity_step hmoves) ((h.ordered m).step hmoves)
      (Service.unsaid_step (h.unsaid m) hmoves) fun x hx hsync => ?_
    · simp [h.edits, hsame]
    · obtain hold | rfl | ⟨u, hu, -⟩ := htells x hx hsync
      · exact .inl hold
      · exact .inr (h.docFull m)
      · simp [hsame] at hu
  · obtain rfl := Option.some.inj ((h.doc m).symm.trans hd)
    rw [h.me m] at hnew hedits hediting
    obtain ⟨r', hr'⟩ : ∃ r', Replicas.step r (.edit m (w.service m).now op) = some r' := ⟨_, rfl⟩
    have hbound : r.edits + 1 < u64Size - 1 := by
      rw [h.edits]
      omega
    have hext := h.inv.extends_edit hbound hr'
    have hinv := h.inv.edit hbound hr'
    simp only [Replicas.step, Option.some.injEq] at hr'
    subst hr'
    set u := ((r.doc m).edit m (w.service m).now op).2 with hu
    have hself : (r.hold m ((r.doc m).edit m (w.service m).now op).1 {u.write}).doc m =
        ((r.doc m).edit m (w.service m).now op).1 := by simp [Replicas.World.hold]
    have hreg : u.write.register = op.register := by
      rw [hu, WorkspaceDoc.edit_update]
      rfl
    refine ⟨_, ?_, hext, fun k hk => by simp [Replicas.World.hold, hk], fun k y hy => ?_⟩
    · refine h.turn (s := s) rfl hinv hext ?_ (Replicas.kept_hold h.kept m _ {u.write})
        (fun k hk => by simp [Replicas.World.hold, hk]) (hnew.trans (by rw [hself]))
        (Service.identity_step hmoves) ((h.ordered m).step hmoves)
        (Service.unsaid_step (h.unsaid m) hmoves) fun x hx hsync => ?_
      · simp [h.edits, hedits]
      · obtain hold | rfl | ⟨z, hz, rfl⟩ := htells x hx hsync
        · exact .inl hold
        · exact .inr ((h.docFull m).extends hext)
        · obtain rfl : u = z := by simpa using hedits.symm.trans hz
          refine .inr ⟨by simp, fun k y hy => ?_⟩
          simp only [Message.offers] at hy
          split_ifs at hy with hk
          obtain rfl := Option.some.inj hy
          rw [hself, ← hk, WorkspaceDoc.held_edit, hreg, Function.update_self]
          exact covers_self _
    · rw [hself, WorkspaceDoc.held_edit] at hy
      obtain rfl | hk := eq_or_ne k op.register
      · rw [Function.update_self] at hy
        refine .inr ⟨(w.service m).edits.length, u, ?_, hreg, Option.some.inj hy⟩
        simp [Mesh.set, hediting]
      · rw [Function.update_of_ne hk] at hy
        exact .inl hy

theorem Tracks.taken {x : Message} (h : Tracks base w r) {n : MachineId}
    (hx : x.syncs = true → Known r n x) {agent t : State} {peer : MachineId}
    {stage : SessionTask.Stage} {os : List SessionOutcome} (hd : agent.doc = some (r.doc m))
    (hread : onRead agent peer x = (stage, t, os)) :
    ∃ r', Replicas.Inv base r' ∧ Replicas.Extends r r' ∧ r'.edits = r.edits ∧
      (∀ k, r'.doc k ∈ r'.documents) ∧ (∀ k, k ≠ m → r'.doc k = r.doc k) ∧
      t.doc = some (r'.doc m) ∧
      ∀ k, (r'.doc m).held k = newer ((r.doc m).held k) (x.offers k) := by
  have hdoc := onRead_doc hread hd
  cases x with
  | docFull d =>
    have hmem : d ∈ r.documents := (hx rfl).kept
    obtain ⟨hws, -, -⟩ := h.inv.documents d hmem
    obtain ⟨e, c, he⟩ := WorkspaceDoc.merge_ok_of_workspace
      (hws.trans (h.inv.workspace m).symm)
    obtain ⟨i, hi⟩ := List.mem_iff_getElem?.mp hmem
    have hr' : Replicas.step r (.merge m i) = some (r.hold m e d.replica.writes) := by
      simp [Replicas.step, hi, he]
    have hself : (r.hold m e d.replica.writes).doc m = e := by simp [Replicas.World.hold]
    refine ⟨_, h.inv.merge hr', h.inv.extends_merge hr', rfl, Replicas.kept_hold h.kept _ _ _,
      fun k hk => by simp [Replicas.World.hold, hk], ?_, fun k => ?_⟩
    · rw [hself]
      exact hdoc e c he
    · rw [hself]
      exact WorkspaceDoc.merge_held he k
  | update u =>
    have hmem : u ∈ r.updates := (hx rfl).kept
    obtain ⟨e, c, he⟩ := WorkspaceDoc.apply_ok_of_workspace
      ((h.inv.updates u hmem).trans (h.inv.workspace m).symm)
    obtain ⟨i, hi⟩ := List.mem_iff_getElem?.mp hmem
    have hr' : Replicas.step r (.deliver m i) = some (r.hold m e {u.write}) := by
      simp [Replicas.step, hi, he]
    have hself : (r.hold m e {u.write}).doc m = e := by simp [Replicas.World.hold]
    refine ⟨_, h.inv.deliver hr', h.inv.extends_deliver hr', rfl, Replicas.kept_hold h.kept _ _ _,
      fun k hk => by simp [Replicas.World.hold, hk], ?_, fun k => ?_⟩
    · rw [hself]
      exact hdoc e c he
    · rw [hself, ← WorkspaceDoc.replica_held, (WorkspaceDoc.apply_spec he).2.1]
      simp only [Message.offers]
      by_cases hk : u.write.register = k
      · subst hk
        simp [Replica.take]
      · simp [Replica.take, hk, Ne.symm hk]
  | identify | input | cursorOwner | ping | pong | goodbye =>
    have hsame : t = agent := hdoc
    rw [hsame]
    exact ⟨r, h.inv, .refl r, rfl, h.kept, fun _ _ => rfl, hd, fun k => by simp [Message.offers]⟩

theorem Tracks.hear {i : ℕ} (h : Tracks base w r) (hs : step w (.hear m i) = some v) :
    ∃ r' x, w.next m i = some x ∧ Tracks base v r' ∧ Replicas.Extends r r' ∧
      (∀ k, k ≠ m → r'.doc k = r.doc k) ∧
      ∀ k, (r'.doc m).held k = newer ((r.doc m).held k) (x.offers k) := by
  obtain ⟨x, s, hx, hstep, rfl⟩ := hear_spec hs
  obtain ⟨n, j, t, -, ht, hsent⟩ := next_spec hx
  have hsaid : (w.service n).Says x := .inl ⟨j, t, ht, .inl (List.mem_of_getElem? hsent)⟩
  have hmoves := Service.moves hstep
  obtain ⟨t, peer, stage, agent, os, -, -, hread, hs⟩ := Service.read_spec hstep
  have hagent : s.agent = agent := by rw [hs]; rfl
  have hedits : s.edits = (w.service m).edits := by rw [hs]; rfl
  obtain ⟨r', hinv, hext, hsame, hkept, hother, hdoc, hheld⟩ :=
    h.taken (h.known n x hsaid) (h.doc m) hread
  refine ⟨r', x, hx, ?_, hext, hother, hheld⟩
  refine h.turn (s := s) rfl hinv hext (hsame.trans h.edits) hkept hother (hagent ▸ hdoc)
    (Service.identity_step hmoves) ((h.ordered m).step hmoves)
    (Service.unsaid_step (h.unsaid m) hmoves) fun y hy hsync => ?_
  obtain hold | ⟨d, hd, rfl⟩ | ⟨u, hu, -⟩ := Service.says_step (h.unsaid m) hmoves hy hsync
  · exact .inl hold
  · obtain rfl := Option.some.inj ((h.doc m).symm.trans hd)
    exact .inr ((h.docFull m).extends hext)
  · simp [hedits] at hu

theorem Tracks.off (h : Tracks base w r) : Tracks base (w.set m (w.service m).off) r := by
  refine h.turn (s := (w.service m).off) rfl h.inv (.refl r) h.edits h.kept (fun _ _ => rfl)
    (h.doc m) rfl (Service.ordered_off (h.ordered m)) (fun i u hu => ?_)
    fun x hx _ => .inl (Service.says_off hx)
  obtain ⟨t, -, rfl⟩ := Service.off_task hu
  trivial

end Turn

/-! The ends of the connections. -/

structure Linked (w : Mesh) : Prop where
  sym : ∀ e f, w.other e = some f → w.other f = some e
  apart : ∀ m i p j, w.other (m, i) = some (p, j) → m ≠ p
  bound : ∀ m i p j, w.other (m, i) = some (p, j) → Service.Bound (w.service m) i p
  unread : ∀ e, w.other e = none → w.heard e = 0
  heard : ∀ m i p j, w.other (m, i) = some (p, j) → ∀ t, (w.service p).tasks[j]? = some t →
    w.heard (m, i) ≤ t.sent.length

theorem linked_start (doc : WorkspaceDoc) (key : MachineId → PubKey) (now : MachineId → ℕ) :
    Linked (start doc key now) :=
  ⟨fun e f h => by simp [start] at h, fun m i p j h => by simp [start] at h,
    fun m i p j h => by simp [start] at h, fun _ _ => rfl, fun m i p j h => by simp [start] at h⟩

section Links
variable {w v : Mesh} {m : MachineId}

theorem Linked.turn {s : Service} (h : Linked w)
    (hservice : v.service = Function.update w.service m s) (hother : v.other = w.other)
    (hbound : ∀ i p, Service.Bound (w.service m) i p → Service.Bound s i p)
    (hsent : ∀ (i : ℕ) t, (w.service m).tasks[i]? = some t →
      ∃ u, s.tasks[i]? = some u ∧ t.sent.length ≤ u.sent.length)
    (hunread : ∀ e, w.other e = none → v.heard e = 0)
    (hheard : ∀ k i p j, w.other (k, i) = some (p, j) → ∀ t, (w.service p).tasks[j]? = some t →
      v.heard (k, i) ≤ t.sent.length) : Linked v := by
  refine ⟨hother ▸ h.sym, hother ▸ h.apart, fun k i p j hk => ?_, hother ▸ hunread,
    fun k i p j hk t ht => ?_⟩ <;> rw [hother] at hk
  · have hb := h.bound k i p j hk
    rw [hservice]
    obtain rfl | hne := eq_or_ne k m
    · rw [Function.update_self]
      exact hbound i p hb
    · rwa [Function.update_of_ne hne]
  · rw [hservice] at ht
    obtain rfl | hne := eq_or_ne p m
    · rw [Function.update_self] at ht
      obtain ⟨x, hx, -⟩ := h.bound p j k i (h.sym _ _ hk)
      obtain ⟨u, hu, hle⟩ := hsent j x hx
      obtain rfl := Option.some.inj (ht.symm.trans hu)
      exact (hheard k i p j hk x hx).trans hle
    · rw [Function.update_of_ne hne] at ht
      exact hheard k i p j hk t ht

theorem Linked.own {a : Service.Action} (h : Linked w)
    (hun : ∀ (i : ℕ) t, (w.service m).tasks[i]? = some t → Service.Unsaid t)
    (hs : step w (.own m a) = some v) : Linked v := by
  obtain ⟨s, -, -, hstep, rfl⟩ := own_spec hs
  have hmoves := Service.moves hstep
  refine h.turn (s := s) rfl rfl (fun i p hb => hb.step hmoves) (fun i t ht => ?_) h.unread h.heard
  obtain ⟨u, hu, hprefix⟩ := Service.sent_step hmoves (hun i t ht) ht
  exact ⟨u, hu, hprefix.length_le⟩

theorem Linked.hear {i : ℕ} (h : Linked w)
    (hun : ∀ (i : ℕ) t, (w.service m).tasks[i]? = some t → Service.Unsaid t)
    (hs : step w (.hear m i) = some v) : Linked v := by
  obtain ⟨x, s, hnext, hstep, rfl⟩ := hear_spec hs
  obtain ⟨p, j, t, hother, ht, hx⟩ := next_spec hnext
  have hmoves := Service.moves hstep
  refine h.turn (s := s) rfl rfl (fun i p hb => hb.step hmoves) (fun i t ht => ?_) (fun e he => ?_)
    fun k n q l hk u hu => ?_
  · obtain ⟨u, hu, hprefix⟩ := Service.sent_step hmoves (hun i t ht) ht
    exact ⟨u, hu, hprefix.length_le⟩
  · have hne : e ≠ (m, i) := fun heq => by simp [heq, hother] at he
    simp [hne, h.unread e he]
  · obtain heq | hne := eq_or_ne (k, n) (m, i)
    · -- the message that is read was there
      rw [heq] at hk ⊢
      obtain ⟨rfl, rfl⟩ := Prod.mk.inj (Option.some.inj (hother.symm.trans hk))
      obtain rfl := Option.some.inj (ht.symm.trans hu)
      simp only [Function.update_self]
      exact (List.getElem?_eq_some_iff.mp hx).1
    · simpa [hne] using h.heard k n q l hk u hu

theorem Linked.off (h : Linked w) : Linked (w.set m (w.service m).off) := by
  refine h.turn (s := (w.service m).off) rfl rfl (fun i p hb => hb.off) (fun i t ht => ?_) h.unread
    h.heard
  exact ⟨{ t with stage := .ended }, by simp [Service.off, ht], le_rfl⟩

theorem bound_of_openWith {i : ℕ} {p : MachineId} (h : w.openWith m i = some p) :
    Service.Bound (w.service m) i p := by
  obtain ⟨t, ht, hopen⟩ := Option.bind_eq_some_iff.mp h
  exact ⟨t, ht, .inl hopen⟩

theorem joined_eq_some {other : MachineId × ℕ → Option (MachineId × ℕ)} {e f x y : MachineId × ℕ}
    (hne : e ≠ f) (h : joined other e f x = some y) :
    (x = e ∧ y = f) ∨ (x = f ∧ y = e) ∨ (x ≠ e ∧ x ≠ f ∧ other x = some y) := by
  obtain rfl | hxf := eq_or_ne x f
  · simp only [joined, Function.update_self, Option.some.injEq] at h
    exact .inr (.inl ⟨rfl, h.symm⟩)
  · obtain rfl | hxe := eq_or_ne x e
    · simp only [joined, Function.update_of_ne hxf, Function.update_self, Option.some.injEq] at h
      exact .inl ⟨rfl, h.symm⟩
    · simp only [joined, Function.update_of_ne hxf, Function.update_of_ne hxe] at h
      exact .inr (.inr ⟨hxe, hxf, h⟩)

theorem Linked.connect {i j : ℕ} {p : MachineId} (h : Linked w)
    (hs : step w (.connect m i p j) = some v) : Linked v := by
  simp only [step] at hs
  split_ifs at hs with hok
  obtain ⟨hm, hp, hmp, hfreem, hfreep⟩ := hok
  obtain rfl := Option.some.inj hs
  have hne : (m, i) ≠ (p, j) := fun heq => hmp (Prod.mk.inj heq).1
  have hcases : ∀ {x y}, joined w.other (m, i) (p, j) x = some y →
      (x = (m, i) ∧ y = (p, j)) ∨ (x = (p, j) ∧ y = (m, i)) ∨
        (x ≠ (m, i) ∧ x ≠ (p, j) ∧ w.other x = some y) := fun h => joined_eq_some hne h
  refine ⟨fun e f hef => ?_, fun k n q l hk => ?_, fun k n q l hk => ?_, fun e he => ?_,
    fun k n q l hk t ht => ?_⟩
  · obtain ⟨rfl, rfl⟩ | ⟨rfl, rfl⟩ | ⟨hem, hep, hold⟩ := hcases hef
    · simp [joined]
    · simp [joined, hne]
    · have hback := h.sym e f hold
      have hfm : f ≠ (m, i) := fun heq => by simp [heq, hfreem] at hback
      have hfp : f ≠ (p, j) := fun heq => by simp [heq, hfreep] at hback
      simpa [joined, hfm, hfp] using hback
  · obtain ⟨hk, hq⟩ | ⟨hk, hq⟩ | ⟨-, -, hold⟩ := hcases hk
    · obtain ⟨rfl, rfl⟩ := Prod.mk.inj hk
      obtain ⟨rfl, rfl⟩ := Prod.mk.inj hq
      exact hmp
    · obtain ⟨rfl, rfl⟩ := Prod.mk.inj hk
      obtain ⟨rfl, rfl⟩ := Prod.mk.inj hq
      exact hmp.symm
    · exact h.apart k n q l hold
  · obtain ⟨hk, hq⟩ | ⟨hk, hq⟩ | ⟨-, -, hold⟩ := hcases hk
    · obtain ⟨rfl, rfl⟩ := Prod.mk.inj hk
      obtain ⟨rfl, rfl⟩ := Prod.mk.inj hq
      exact bound_of_openWith hm
    · obtain ⟨rfl, rfl⟩ := Prod.mk.inj hk
      obtain ⟨rfl, rfl⟩ := Prod.mk.inj hq
      exact bound_of_openWith hp
    · exact h.bound k n q l hold
  · refine h.unread e ?_
    have hem : e ≠ (m, i) := fun heq => by simp [heq, joined, hne] at he
    have hep : e ≠ (p, j) := fun heq => by simp [heq, joined] at he
    simpa [joined, hem, hep] using he
  · obtain ⟨hk, hq⟩ | ⟨hk, hq⟩ | ⟨-, -, hold⟩ := hcases hk
    · rw [hk, h.unread _ hfreem]
      exact Nat.zero_le _
    · rw [hk, h.unread _ hfreep]
      exact Nat.zero_le _
    · exact h.heard k n q l hold t ht

end Links

/-! What a machine holds, the other end of each of its live sessions holds or is being sent. -/

/-- The other end of session `i` holds `y`, or something newer, or that is on its way. -/
def Reached (w : Mesh) (r : Replicas.World) (m : MachineId) (i : ℕ) (p : MachineId) (k : Register)
    (y : DocWrite) : Prop :=
  Covers ((r.doc p).held k) y ∨
    ∃ x, Covers (x.offers k) y ∧ (w.service m).Outgoing i (w.passed m i) x

def Covered (w : Mesh) (r : Replicas.World) : Prop :=
  ∀ m i p, (w.service m).Fed i p → ∀ k y, (r.doc m).held k = some y → Reached w r m i p k y

section Reach
variable {base : WorkspaceDoc} {w v : Mesh} {r r' : Replicas.World} {m n : MachineId} {i : ℕ}
  {p : MachineId}

theorem Linked.peer (h : Linked w) (hfed : (w.service m).Fed i p) {q : MachineId} {j : ℕ}
    (ho : w.other (m, i) = some (q, j)) : q = p := by
  obtain ⟨t, ht, hopen | hclosed⟩ := h.bound m i q j ho
  · obtain ⟨x, hx, hst⟩ := hfed.running
    obtain rfl := Option.some.inj (ht.symm.trans hx)
    obtain hst | ⟨d, hst⟩ := hst <;> rw [hst] at hopen <;> exact (Option.some.inj hopen).symm
  · rw [hfed.listening] at hclosed
    cases hclosed

theorem Linked.passed_le (h : Linked w) {t : SessionTask}
    (ht : (w.service m).tasks[i]? = some t) : w.passed m i ≤ t.sent.length := by
  unfold passed
  split
  next e he => exact h.heard e.1 e.2 m i (h.sym _ _ he) t ht
  next => exact Nat.zero_le _

theorem Tracks.outgoing {s : Service} {a : Service.Action} (h : Tracks base w r) (hl : Linked w)
    (hs : Service.Moves (w.service m) a s) (hw : (w.service m).Fed i p) (hv : s.Fed i p)
    {x : Message} (hx : (w.service m).Outgoing i (w.passed m i) x) :
    s.Outgoing i (w.passed m i) x :=
  hx.step (h.ordered m) hs (fun t ht => ⟨h.unsaid m i t ht, hl.passed_le ht⟩) hw hv

theorem Reached.own {a : Service.Action} {k : Register} {y : DocWrite} (h : Tracks base w r)
    (hl : Linked w) (hs : step w (.own n a) = some v) (hext : Replicas.Extends r r')
    (hw : (w.service m).Fed i p) (hv : (v.service m).Fed i p) (hy : Reached w r m i p k y) :
    Reached v r' m i p k y := by
  obtain ⟨s, -, -, hstep, rfl⟩ := own_spec hs
  refine hy.imp (hext.covers p k y) fun hx => ?_
  obtain ⟨x, hcov, hout⟩ := hx
  refine ⟨x, hcov, ?_⟩
  obtain rfl | hne := eq_or_ne m n
  · simp only [Mesh.set, Function.update_self] at hv ⊢
    exact h.outgoing hl (Service.moves hstep) hw hv hout
  · change (Function.update w.service n s m).Outgoing i (w.passed m i) x
    rwa [Function.update_of_ne hne]

theorem Reached.hear {l : ℕ} {k : Register} {y : DocWrite} {x : Message} (h : Tracks base w r)
    (hl : Linked w) (hs : step w (.hear n l) = some v) (hx : w.next n l = some x)
    (hext : Replicas.Extends r r')
    (hheld : ∀ k, (r'.doc n).held k = newer ((r.doc n).held k) (x.offers k))
    (hw : (w.service m).Fed i p) (hv : (v.service m).Fed i p) (hy : Reached w r m i p k y) :
    Reached v r' m i p k y := by
  obtain ⟨x', s, hx', hstep, rfl⟩ := hear_spec hs
  obtain rfl := Option.some.inj (hx.symm.trans hx')
  obtain hcov | ⟨z, hcov, hout⟩ := hy
  · exact .inl (hext.covers p k y hcov)
  by_cases hother : w.other (m, i) = some (n, l)
  · obtain rfl := hl.peer hw hother
    have hpassed : w.passed m i = w.heard (n, l) := by simp [passed, hother]
    obtain ⟨q, j, t, hback, ht, hsent⟩ := next_spec hx
    obtain ⟨rfl, rfl⟩ := Prod.mk.inj (Option.some.inj ((hl.sym _ _ hother).symm.trans hback))
    obtain rfl | hlater := hout.next ht (hpassed ▸ hsent)
    · refine .inl ?_
      rw [hheld k]
      exact hcov.newer_right _
    · refine .inr ⟨z, hcov, ?_⟩
      have hne := hl.apart m i n l hother
      simpa [Mesh.set, passed, hother, hne] using hlater
  · have hstay : (Function.update w.service n s m).Outgoing i (w.passed m i) z := by
      obtain rfl | hne := eq_or_ne m n
      · simp only [Mesh.set, Function.update_self] at hv ⊢
        exact h.outgoing hl (Service.moves hstep) hw hv hout
      · rwa [Function.update_of_ne hne]
    refine .inr ⟨z, hcov, ?_⟩
    cases ho : w.other (m, i) with
    | none => simpa [Mesh.set, passed, ho] using hstay
    | some e =>
      have hne : e ≠ (n, l) := fun heq => hother (by rw [ho, heq])
      simpa [Mesh.set, passed, ho, hne] using hstay

theorem Covered.own {a : Service.Action} (hc : Covered w r) (h : Tracks base w r) (hl : Linked w)
    (hs : step w (.own n a) = some v) (hext : Replicas.Extends r r')
    (hother : ∀ k, k ≠ n → r'.doc k = r.doc k)
    (hnew : ∀ k y, (r'.doc n).held k = some y → (r.doc n).held k = some y ∨
      ∃ j u, (j, u) ∈ (v.service n).editing ∧ u.write.register = k ∧ u.write = y) :
    Covered v r' := by
  have hmoves : Service.Moves (w.service n) a (v.service n) ∧
      ∀ k, k ≠ n → v.service k = w.service k := by
    obtain ⟨s, -, -, hstep, rfl⟩ := own_spec hs
    exact ⟨by simpa [Mesh.set] using Service.moves hstep, fun k hk => by simp [Mesh.set, hk]⟩
  obtain ⟨hmoves, hsame⟩ := hmoves
  intro m i p hv k y hy
  obtain rfl | hne := eq_or_ne m n
  · obtain hold | ⟨j, u, hu, hk, hyu⟩ := hnew k y hy
    · obtain hw | hnone | ⟨-, t, d, -, -, hd, ht, hst⟩ := hv.back (h.ordered m) hmoves
      · exact (hc m i p hw k y hold).own h hl hs hext hw hv
      · rw [h.doc m] at hnone
        cases hnone
      · obtain rfl := Option.some.inj ((h.doc m).symm.trans hd)
        exact .inr ⟨.docFull (r.doc m), covers_of_held hold, .inl ⟨t, ht, .inr ⟨p, _, hst, rfl⟩⟩⟩
    · have hoffers : (Message.update u).offers k = some y :=
        (Message.offers_update hk).trans (congrArg some hyu)
      exact .inr ⟨.update u, ⟨y, hoffers, le_rfl⟩, .inr (.inr ⟨j, u, .inl hu, rfl⟩)⟩
  · have hw : (w.service m).Fed i p := hsame m hne ▸ hv
    rw [hother m hne] at hy
    exact (hc m i p hw k y hy).own h hl hs hext hw hv

theorem Covered.hear {l : ℕ} {x : Message} (hc : Covered w r) (h : Tracks base w r)
    (hl : Linked w) (hok : Spreads w (.hear n l)) (hs : step w (.hear n l) = some v)
    (hx : w.next n l = some x) (hext : Replicas.Extends r r')
    (hother : ∀ k, k ≠ n → r'.doc k = r.doc k)
    (hheld : ∀ k, (r'.doc n).held k = newer ((r.doc n).held k) (x.offers k)) : Covered v r' := by
  intro m i p hv k y hy
  have hw : (w.service m).Fed i p := by
    obtain ⟨x, s, -, hstep, rfl⟩ := hear_spec hs
    obtain rfl | hne := eq_or_ne m n
    · simp only [Mesh.set, Function.update_self] at hv
      exact hv.of_read (h.ordered m) (h.doc m) hstep
    · simpa only [Mesh.set, Function.update_of_ne hne] using hv
  have hkeep : ∀ y, (r.doc m).held k = some y → Reached v r' m i p k y := fun y hy =>
    (hc m i p hw k y hy).hear h hl hs hx hext hheld hw hv
  obtain rfl | hne := eq_or_ne m n
  · rw [hheld k] at hy
    by_cases hsame : newer ((r.doc m).held k) (x.offers k) = (r.doc m).held k
    · exact hkeep y (hsame.symm.trans hy)
    · have hbeats := newer_ne_left_iff.mp hsame
      rw [newer_eq_right_of_beats hbeats] at hy
      rw [hy] at hbeats
      obtain ⟨e, he, hcov⟩ := hok x hx (r.doc m) (h.doc m) k y hy hbeats i p hw
      obtain rfl := Option.some.inj ((h.doc p).symm.trans he)
      exact .inl (hext.covers p k y hcov)
  · rw [hother m hne] at hy
    exact hkeep y hy

theorem Tracks.connect {j : ℕ} (h : Tracks base w r) (hs : step w (.connect m i p j) = some v) :
    Tracks base v r := by
  simp only [step] at hs
  split_ifs at hs
  obtain rfl := Option.some.inj hs
  exact ⟨h.inv, h.edits, h.kept, h.me, h.doc, h.ordered, h.unsaid, h.known⟩

theorem Covered.connect {q : MachineId} {j l : ℕ} (hc : Covered w r) (hl : Linked w)
    (hs : step w (.connect n l q j) = some v) : Covered v r := by
  simp only [step] at hs
  split_ifs at hs with hok
  obtain ⟨-, -, hnq, hfreen, hfreeq⟩ := hok
  obtain rfl := Option.some.inj hs
  intro m i p hv k y hy
  refine (hc m i p hv k y hy).imp_right fun hx => ?_
  obtain ⟨x, hcov, hout⟩ := hx
  refine ⟨x, hcov, ?_⟩
  have hne : (n, l) ≠ (q, j) := fun heq => hnq (Prod.mk.inj heq).1
  have hpassed : ({ w with other := joined w.other (n, l) (q, j) } : Mesh).passed m i =
      w.passed m i := by
    unfold passed
    obtain heq | hmq := eq_or_ne (m, i) (q, j)
    · simp [joined, heq, hfreeq, hl.unread _ hfreen]
    · obtain heq | hmn := eq_or_ne (m, i) (n, l)
      · simp [joined, heq, hne, hfreen, hl.unread _ hfreeq]
      · simp [joined, hmq, hmn]
  rw [hpassed]
  exact hout

theorem Covered.off (hc : Covered w r) : Covered (w.set n (w.service n).off) r := by
  intro m i p hv k y hy
  obtain rfl | hne := eq_or_ne m n
  · simp only [Mesh.set, Function.update_self] at hv
    exact absurd hv (Service.not_fed_off _ i p)
  · simp only [Mesh.set, Function.update_of_ne hne] at hv
    refine (hc m i p hv k y hy).imp_right fun hx => ?_
    obtain ⟨x, hcov, hout⟩ := hx
    refine ⟨x, hcov, ?_⟩
    change (Function.update w.service n (w.service n).off m).Outgoing i (w.passed m i) x
    rwa [Function.update_of_ne hne]

end Reach

structure Inv (base : WorkspaceDoc) (w : Mesh) (r : Replicas.World) : Prop where
  tracks : Tracks base w r
  linked : Linked w
  covered : Covered w r

theorem Inv.step {base : WorkspaceDoc} {w v : Mesh} {r : Replicas.World} {a : Action}
    (h : Inv base w r) (hok : Spreads w a) (hs : Mesh.step w a = some v) :
    ∃ r', Inv base v r' := by
  obtain ⟨ht, hl, hc⟩ := h
  cases a with
  | own m a =>
    obtain ⟨r', ht', hext, hother, hnew⟩ := ht.own hs hok
    exact ⟨r', ht', hl.own (ht.unsaid m) hs, hc.own ht hl hs hext hother hnew⟩
  | hear m i =>
    obtain ⟨r', x, hx, ht', hext, hother, hheld⟩ := ht.hear hs
    exact ⟨r', ht', hl.hear (ht.unsaid m) hs, hc.hear ht hl hok hs hx hext hother hheld⟩
  | connect m i p j =>
    exact ⟨r, ht.connect hs, hl.connect hs, hc.connect hl hs⟩
  | off m =>
    obtain rfl := Option.some.inj hs
    exact ⟨r, ht.off, hl.off, hc.off⟩

theorem inv_start (ws : WorkspaceId) (time : ℕ) (name : String) (founder : MachineRecord)
    (key : MachineId → PubKey) (now : MachineId → ℕ) :
    Inv (.create ws time name founder) (start (.create ws time name founder) key now)
      (Replicas.start (.create ws time name founder)) := by
  refine ⟨⟨Replicas.inv_start ws time name founder, rfl, fun _ => ?_, fun _ => rfl, fun _ => rfl,
    fun m => ?_, fun m i t ht => ?_, fun m x hx => ?_⟩, linked_start .., fun m i p hv => ?_⟩
  · simp [Replicas.start]
  · exact (Service.wired_start _ _ _).ordered
  · simp [start, Service.start] at ht
  · obtain ⟨i, t, ht, -⟩ | ⟨q, hq⟩ | ⟨k, u, hpending, -⟩ := hx
    · simp [start, Service.start] at ht
    · simp [start, Service.start, Queue.new] at hq
    · simp [start, Service.start] at hpending
  · obtain ⟨t, ht, -⟩ := hv.running
    simp [start, Service.start] at ht

/-- Nothing is on its way through either end: what one holds the other one covers. -/
theorem Inv.agrees {base : WorkspaceDoc} {w : Mesh} {r : Replicas.World} (h : Inv base w r) :
    Agrees w := by
  intro m i p j hother hm hp hquietm hquietp
  have hcovers : ∀ {m i p}, (w.service m).Fed i p → w.Quiet m i → ∀ k y,
      (r.doc m).held k = some y → Covers ((r.doc p).held k) y := by
    intro m i p hfed hquiet k y hy
    obtain hcov | ⟨x, hcov, hout⟩ := h.covered m i p hfed k y hy
    · exact hcov
    · have hsyncs := Message.syncs_of_offers hcov
      rw [hquiet x hout] at hsyncs
      cases hsyncs
  obtain ⟨hname, hsettings, hmachines⟩ :=
    h.tracks.inv.agree (hcovers hm hquietm) (hcovers hp hquietp)
  exact ⟨r.doc m, r.doc p, h.tracks.doc m, h.tracks.doc p, hname, hsettings, hmachines⟩

/-- In every run in which each machine takes in only what those it has a live session with have
already, two machines with a live and quiet session agree. -/
theorem agrees_of_spreads {ws : WorkspaceId} {time : ℕ} {name : String} {founder : MachineRecord}
    {key : MachineId → PubKey} {now : MachineId → ℕ} {as : List Action} {w : Mesh}
    (h : Run step Spreads (start (.create ws time name founder) key now) as w) : Agrees w := by
  have hinv : ∃ r, Inv (.create ws time name founder) w r :=
    h.invariant (I := fun w => ∃ r, Inv (.create ws time name founder) w r)
      (fun w a v hw hok hs => by
        obtain ⟨r, hr⟩ := hw
        exact hr.step hok hs)
      ⟨_, inv_start ws time name founder key now⟩
  obtain ⟨r, hr⟩ := hinv
  exact hr.agrees

/-! Runs of three machines. -/

def Idle (w : Mesh) (m : MachineId) (i : ℕ) (p : MachineId) : Prop :=
  (w.service m).tasks[i]?.map (fun t => (t.stage, t.sent.length)) =
      some (.running p, w.passed m i) ∧
    ((w.service m).actor.queues i).listening = true ∧
    ((w.service m).actor.queues i).items = [] ∧
    (w.service m).actor.peers[p]?.map PeerSlot.outbound = some (some i) ∧
    (w.service m).editing = [] ∧ (w.service m).inbox = []

instance (w : Mesh) (m : MachineId) (i : ℕ) (p : MachineId) : Decidable (w.Idle m i p) :=
  inferInstanceAs (Decidable (_ ∧ _))

theorem Idle.fed {w : Mesh} {m : MachineId} {i : ℕ} {p : MachineId} (h : w.Idle m i p) :
    (w.service m).Fed i p := by
  obtain ⟨htask, hlistening, -, hpeer, -⟩ := h
  obtain ⟨t, ht, hst⟩ := Option.map_eq_some_iff.mp htask
  obtain ⟨slot, hslot, hout⟩ := Option.map_eq_some_iff.mp hpeer
  exact ⟨⟨t, ht, .inl (Prod.mk.inj hst).1⟩, hlistening, fun hg => hg.1 p slot hslot hout⟩

theorem Idle.quiet {w : Mesh} {m : MachineId} {i : ℕ} {p : MachineId} (h : w.Idle m i p) :
    w.Quiet m i := by
  obtain ⟨htask, -, hitems, -, hediting, hinbox⟩ := h
  obtain ⟨t, ht, hst⟩ := Option.map_eq_some_iff.mp htask
  obtain ⟨hst, hlength⟩ := Prod.mk.inj hst
  intro x hx
  obtain ⟨u, hu, hsent | ⟨q, d, hsync, -⟩⟩ | hitem | ⟨k, u, hk | ⟨as, bs, hin, -⟩, -⟩ := hx
  · obtain rfl := Option.some.inj (ht.symm.trans hu)
    simp [← hlength] at hsent
  · obtain rfl := Option.some.inj (ht.symm.trans hu)
    rw [hst] at hsync
    cases hsync
  · simp [hitems] at hitem
  · simp [hediting] at hk
  · simp [hinbox] at hin

/-- Everything a message carries, the peers of all open sessions of the machine that reads it
have. -/
def reechoes (w : Mesh) : Action → Bool
  | .own .. => decide (w.edits + 2 < u64Size)
  | .hear m i =>
    (w.next m i).all fun x => x.writes.all fun y => (w.service m).tasks.all fun t =>
      t.stage.open.all fun q => (w.service q).agent.doc.any fun e =>
        (e.held y.register).any fun z => decide (y.key ≤ z.key)
  | .connect .. | .off _ => true

theorem spreads_of_reechoes {w : Mesh} {a : Action} (h : w.reechoes a = true) : Spreads w a := by
  cases a with
  | own m a => simpa [reechoes, Spreads] using h
  | hear m i =>
    intro x hx d hd r y hy hbeats j q hfed
    obtain ⟨hmem, rfl⟩ := Message.mem_writes hy
    obtain ⟨t, ht, hst⟩ := hfed.running
    have hopen : t.stage.open = some q := by obtain hst | ⟨d, hst⟩ := hst <;> rw [hst] <;> rfl
    simp only [reechoes, Option.mem_def.mp hx, Option.all_some, List.all_eq_true] at h
    have hq := h y hmem t (List.mem_of_getElem? ht)
    rw [hopen, Option.all_some] at hq
    obtain ⟨e, he, hz⟩ := (Option.any_eq_true ..).mp hq
    obtain ⟨z, hz, hle⟩ := (Option.any_eq_true ..).mp hz
    exact ⟨e, he, z, hz, of_decide_eq_true hle⟩
  | connect | off => trivial

def tower : MachineRecord := { laptop with id := 3, displayName := "Tower", publicKey := 13 }

def keyOf (m : MachineId) : PubKey := m + 10

/-- The studio's workspace, before anybody else is in it. -/
def founded : Mesh := start (.create 7 0 "Workspace" studio) keyOf fun _ => 0

/-- The studio hears from machine `p`, dials it, and both exchange their documents. -/
def meeting (p : MachineId) (i : ℕ) : List Action :=
  [.own 1 (.send (.sighting ⟨p, "Peer", keyOf p, some 7, [], "10.0.0.2"⟩)), .own 1 .handle,
    .own 1 (.send .tick), .own 1 .handle, .own 1 (.session i .connected),
    .own p (.accept "10.0.0.1")] ++
  (Service.opening ⟨p, keyOf p⟩ "Peer" 0).map (fun e => .own 1 (.session i e)) ++
  (Service.opening ⟨1, 11⟩ "Studio" i).map (fun e => .own p (.session 0 e)) ++
  [.own 1 .handle, .own p .handle, .connect 1 i p 0, .own 1 (.session i .snapshot),
    .own p (.session 0 .snapshot), .own 1 (.session i (.docFull 900 none)),
    .own p (.session 0 (.docFull 900 none)), .hear 1 i, .hear p 0, .own p .handle]

/-- Machine `m` makes an edit and pushes it. -/
def editing (m : MachineId) (op : Op) : List Action :=
  [.own m (.edit op), .own m (.push 0), .own m .handle]

/-- The studio admits the laptop and the tower and connects to the first. -/
def gathering : List Action :=
  editing 1 (.upsertMachine laptop) ++ editing 1 (.upsertMachine tower) ++ meeting 2 0

/-- The laptop renames the workspace, and the studio reads it. -/
def naming : List Action :=
  editing 2 (.setName "Desk") ++ [.own 2 (.write 0 true), .hear 1 0, .own 1 .handle]

theorem agrees_of_spreads_named : ∃ w, Run step Spreads founded (gathering ++ naming) w ∧
    w.other (1, 0) = some (2, 0) ∧ w.Idle 1 0 2 ∧ w.Idle 2 0 1 ∧
    (w.service 1).agent.doc.map (fun d => d.name.value) = some "Desk" ∧ Agrees w := by
  obtain ⟨w, hrun, hw⟩ := run_of_replay step (fun w a => w.reechoes a = true) founded
    (gathering ++ naming)
    (fun w => (w.other (1, 0), decide (w.Idle 1 0 2), decide (w.Idle 2 0 1),
      (w.service 1).agent.doc.map fun d => d.name.value))
    (b := (some (2, 0), true, true, some "Desk")) (by decide +kernel)
  simp only [Prod.mk.injEq, decide_eq_true_eq] at hw
  obtain ⟨hother, hone, htwo, hname⟩ := hw
  have hspreads := hrun.mono fun w a => spreads_of_reechoes
  exact ⟨w, hspreads, hother, hone, htwo, hname, agrees_of_spreads hspreads⟩

/-- With the tower connected as well, the studio takes the laptop's name and does not pass it on;
nor does the tower ask for anything when the next update of the studio comes from ahead of it. -/
theorem name_not_passed_on : ∃ as w, Run step Any founded as w ∧ ¬ Agrees w := by
  obtain ⟨w, hrun, hw⟩ := run_of_replay step Any founded
    (gathering ++ meeting 3 1 ++ naming ++ editing 1 (.removeMachine 5) ++
      [.own 1 (.write 0 true), .own 1 (.write 1 true), .hear 2 0, .hear 3 0, .own 2 .handle,
        .own 3 .handle])
    (fun w => (w.other (1, 1), decide (w.Idle 1 1 3), decide (w.Idle 3 0 1),
      (w.service 1).agent.doc.map fun d => d.name.value,
      (w.service 3).agent.doc.map fun d => d.name.value))
    (b := (some (3, 0), true, true, some "Desk", some "Workspace")) (by decide +kernel)
  simp only [Prod.mk.injEq, decide_eq_true_eq] at hw
  obtain ⟨hother, hone, hthree, hdesk, hold⟩ := hw
  refine ⟨_, w, hrun, fun h => ?_⟩
  obtain ⟨d, e, hd, he, hname, -⟩ :=
    h 1 1 3 0 hother hone.fed hthree.fed hone.quiet hthree.quiet
  rw [hd] at hdesk
  rw [he] at hold
  simp only [Option.map_some, Option.some.injEq] at hdesk hold
  rw [hname, hold] at hdesk
  exact absurd hdesk (by decide)

end Mesh
end InputShare

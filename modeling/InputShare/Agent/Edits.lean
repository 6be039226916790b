import InputShare.Agent.Permission
import InputShare.Lib.Runs

/-! Editing one field of a machine: the record is read, changed, and later written back whole. In
between the document is free, for other edits and for what peers send. -/
namespace InputShare

/-- Whether two `f32` are equal, by their bits: no NaN is, and the two zeros are. -/
def f32Eq (a b : ℕ) : Bool :=
  let nan (n : ℕ) := decide (n % 2147483648 > 2139095040)
  let zero (n : ℕ) := decide (n % 2147483648 = 0)
  !nan a && !nan b && (decide (a = b) || zero a && zero b)

def DisplayInfo.eq (a b : DisplayInfo) : Bool :=
  decide ({ a with scale := 0 } = { b with scale := 0 }) && f32Eq a.scale b.scale

def differ (a b : List DisplayInfo) : Bool :=
  decide (a.length ≠ b.length) || (a.zip b).any fun (x, y) => !x.eq y

namespace MachineRecord

/-- Moves the machine so that the corner of everything it covers lands there. -/
def moveTo (record : MachineRecord) (x y : Int) : MachineRecord :=
  let offset : Point :=
    match record.bounds with
    | some b => ⟨wrapI32 (b.x - record.position.x), wrapI32 (b.y - record.position.y)⟩
    | none => .default
  { record with position := ⟨wrapI32 (x - offset.x), wrapI32 (y - offset.y)⟩ }

end MachineRecord

inductive Edit where
  | rename (name : String)
  | move (x y : Int)
  | setInput (keyboard mouse : Bool)
  /-- The facts only the machine knows about itself. -/
  | publish (displays : List DisplayInfo) (platform : Platform)
deriving DecidableEq, Repr

namespace Edit

def apply : Edit → MachineRecord → MachineRecord
  | .rename name, record => { record with displayName := name }
  | .move x y, record => record.moveTo x y
  | .setInput keyboard mouse, record => { record with input := ⟨keyboard, mouse⟩ }
  | .publish displays platform, record =>
    { record with
      displays := if differ record.displays displays then displays else record.displays
      platform := platform }

def rest : Edit → MachineRecord → MachineRecord
  | .rename _, record => { record with displayName := "" }
  | .move _ _, record => { record with position := .default }
  | .setInput _ _, record => { record with input := ⟨false, false⟩ }
  | .publish _ _, record => { record with displays := [], platform := .other }

@[simp] theorem rest_apply (e : Edit) (record : MachineRecord) :
    e.rest (e.apply record) = e.rest record := by
  cases e <;> rfl

@[simp] theorem id_apply (e : Edit) (record : MachineRecord) : (e.apply record).id = record.id := by
  cases e <;> rfl

def SameRest (e : Edit) (r q : MachineRecord) : Prop := e.rest r = e.rest q

instance (e : Edit) (r q : MachineRecord) : Decidable (e.SameRest r q) :=
  inferInstanceAs (Decidable (_ = _))

end Edit

def isWhite (c : Char) : Bool :=
  let n := c.toNat
  decide (9 ≤ n ∧ n ≤ 13) || decide (8192 ≤ n ∧ n ≤ 8202) ||
    n ∈ [32, 133, 160, 5760, 8232, 8233, 8239, 8287, 12288]

def trim (name : String) : String :=
  String.ofList (((name.toList.dropWhile isWhite).reverse.dropWhile isWhite).reverse)

inductive CommandError where
  /-- No such machine. -/
  | noSuchMachine
  | agent (error : AgentError)
deriving DecidableEq, Repr

/-- The calls that change a record: one for any machine, two for this one. -/
inductive Command where
  | editMachine (id : MachineId) (edit : Edit)
  | renameThisMachine (name : String)
  | publishLocalFacts (displays : List DisplayInfo) (platform : Platform)
deriving DecidableEq, Repr

/-- An edit whose record was read and is still to be written. -/
structure PendingEdit where
  edit : Edit
  record : MachineRecord
deriving DecidableEq, Repr

def PendingEdit.edited (p : PendingEdit) : MachineRecord := p.edit.apply p.record

namespace Command

def target (me : MachineId) : Command → MachineId
  | .editMachine id _ => id
  | .renameThisMachine _ | .publishLocalFacts _ _ => me

/-- The first half of a call: it reads the record, is refused, or finds nothing to do. -/
def read (me : MachineId) (s : State) : Command → Except CommandError (Option PendingEdit)
  | .editMachine id edit =>
    match s.machine id with
    | some record => .ok (some ⟨edit, record⟩)
    | none => .error .noSuchMachine
  | .renameThisMachine name =>
    if (trim name).isEmpty then .error (.agent (.refused "a computer needs a name"))
    else
      match s.machine me with
      | some record => .ok (some ⟨.rename (trim name), record⟩)
      | none => .error (.agent (.unknownMachine me))
  | .publishLocalFacts displays platform =>
    match s.machine me with
    | some record =>
      if !differ record.displays displays && record.platform = platform then .ok none
      else .ok (some ⟨.publish displays platform, record⟩)
    | none => .ok none

theorem read_some {me : MachineId} {s : State} {c : Command} {p : PendingEdit}
    (h : c.read me s = .ok (some p)) : s.machine (c.target me) = some p.record := by
  cases c with
  | editMachine id edit =>
    simp only [read] at h
    cases hm : s.machine id with
    | none => simp [hm] at h
    | some record =>
      simp only [hm, Except.ok.injEq, Option.some.injEq] at h
      subst h
      exact hm
  | renameThisMachine name =>
    simp only [read] at h
    split at h
    · cases h
    cases hm : s.machine me with
    | none => simp [hm] at h
    | some record =>
      simp only [hm, Except.ok.injEq, Option.some.injEq] at h
      subst h
      exact hm
  | publishLocalFacts displays platform =>
    simp only [read] at h
    cases hm : s.machine me with
    | none => simp [hm] at h
    | some record =>
      simp only [hm] at h
      split at h
      · cases h
      · simp only [Except.ok.injEq, Option.some.injEq] at h
        subst h
        exact hm

end Command

def State.upsertMachine (s : State) (me : MachineId) (now : ℕ) (record : MachineRecord) :
    Except AgentError (State × WorkspaceUpdate) :=
  s.mutate me now (.upsertMachine record)

def State.run (s : State) (me : MachineId) (now : ℕ) (c : Command) : Except CommandError State :=
  match c.read me s with
  | .error e => .error e
  | .ok none => .ok s
  | .ok (some p) =>
    match s.upsertMachine me now p.edited with
    | .error e => .error (.agent e)
    | .ok (t, _) => .ok t

namespace Edits
open Runs

/-- What can happen next: one half of a call, something from a peer, or a change that is made
without a pause, such as pairing and unpairing. -/
inductive Action where
  | read (c : Command)
  | write (i now : ℕ)
  | update (u : WorkspaceUpdate)
  | merge (doc : WorkspaceDoc)
  | change (now : ℕ) (op : Op)

/-- A record that was written, with the one it replaced. -/
structure Written where
  before : Option MachineRecord
  edit : Edit
  stored : MachineRecord
deriving DecidableEq, Repr

structure World where
  agent : State
  pending : List PendingEdit
  written : List Written

variable (me : MachineId)

def step (w : World) : Action → Option World
  | .read c =>
    match c.read me w.agent with
    | .ok (some p) => some { w with pending := w.pending ++ [p] }
    | _ => some w
  | .write i now =>
    match w.pending[i]? with
    | none => none
    | some p =>
      let w := { w with pending := w.pending.eraseIdx i }
      match w.agent.upsertMachine me now p.edited with
      | .ok (s, _) =>
        some { w with
          agent := s
          written := w.written ++ [⟨w.agent.machine p.edited.id, p.edit, p.edited⟩] }
      | .error _ => some w
  | .update u =>
    match w.agent.apply u with
    | .ok (s, _) => some { w with agent := s }
    | .error _ => some w
  | .merge doc =>
    match w.agent.merge doc with
    | .ok (s, _) => some { w with agent := s }
    | .error _ => some w
  | .change now op =>
    match w.agent.mutate me now op with
    | .ok (s, _) => some { w with agent := s }
    | .error _ => some w

/-- What is put in the place of the record leaves what the edit does not touch. -/
def Leaves (e : Edit) (record : MachineRecord) : SlotState → Prop
  | .present r => e.SameRest record r
  | .removed => False

instance (e : Edit) (record : MachineRecord) : DecidablePred (Leaves e record)
  | .present _ => inferInstanceAs (Decidable (e.SameRest _ _))
  | .removed => inferInstanceAs (Decidable False)

/-- A slot from a peer that leaves what the edit does not touch, or is not newer. -/
def Harmless (s : State) (p : PendingEdit) (slot : MachineSlot) : Prop :=
  (∃ own ∈ s.slot p.record.id, slot.stamp.key ≤ own.stamp.key) ∨
    ∀ r ∈ s.machine p.record.id, Leaves p.edit r slot.state

instance (s : State) (p : PendingEdit) (slot : MachineSlot) : Decidable (Harmless s p slot) :=
  inferInstanceAs (Decidable (_ ∨ _))

def replaces (id : MachineId) : Op → Option SlotState
  | .upsertMachine record => if record.id = id then some (.present record) else none
  | .removeMachine gone => if gone = id then some .removed else none
  | .setName _ | .setSettings _ => none

/-- Nothing but its own field is changed of a machine with a pending edit, and it is not removed;
and what is read is the record of the machine it is filed under. -/
def Spares (w : World) : Action → Prop
  | .read c => ∀ r ∈ w.agent.machine (c.target me), r.id = c.target me
  | .write i _ => ∀ q ∈ w.pending[i]?, ∀ p ∈ w.pending.eraseIdx i, p.record.id = q.record.id →
      ∀ r ∈ w.agent.machine p.record.id, p.edit.SameRest r q.edited
  | .update u => ∀ p ∈ w.pending, ∀ slot ∈ w.agent.incoming p.record.id (.update u),
      Harmless w.agent p slot
  | .merge doc => ∀ p ∈ w.pending, ∀ slot ∈ w.agent.incoming p.record.id (.docFull doc),
      Harmless w.agent p slot
  | .change _ op => ∀ p ∈ w.pending, ∀ st ∈ replaces p.record.id op,
      ∀ r ∈ w.agent.machine p.record.id, Leaves p.edit r st

instance (w : World) : DecidablePred (Spares me w)
  | .read _ => inferInstanceAs (Decidable (∀ _ ∈ _, _))
  | .write _ _ => inferInstanceAs (Decidable (∀ _ ∈ _, ∀ _ ∈ _, _ → ∀ _ ∈ _, _))
  | .update _ => inferInstanceAs (Decidable (∀ _ ∈ _, ∀ _ ∈ _, _))
  | .merge _ => inferInstanceAs (Decidable (∀ _ ∈ _, ∀ _ ∈ _, _))
  | .change _ _ => inferInstanceAs (Decidable (∀ _ ∈ _, ∀ _ ∈ _, ∀ _ ∈ _, _))

/-- The machine was there, and only what was edited is different from the record replaced. -/
def Written.Faithful (x : Written) : Prop := ∃ r ∈ x.before, x.edit.SameRest r x.stored

instance : DecidablePred Written.Faithful
  | ⟨none, _, _⟩ => .isFalse (by simp [Written.Faithful])
  | ⟨some r, e, stored⟩ =>
    decidable_of_iff (e.SameRest r stored) (by simp [Written.Faithful])

/-- The machine is there, with the record that was read but for what is edited. -/
def Current (s : State) (p : PendingEdit) : Prop :=
  ∃ r, s.machine p.record.id = some r ∧ p.edit.SameRest p.record r

structure Inv (w : World) : Prop where
  pending : ∀ p ∈ w.pending, Current w.agent p
  written : ∀ x ∈ w.written, x.Faithful

theorem Current.of_slot {s t : State} {p : PendingEdit} (h : Current s p)
    (hslot : t.slot p.record.id = s.slot p.record.id ∨ ∃ slot, t.slot p.record.id = some slot ∧
      ∀ r ∈ s.machine p.record.id, Leaves p.edit r slot.state) : Current t p := by
  obtain ⟨r, hr, hsame⟩ := h
  obtain hkept | ⟨⟨stamp, st⟩, hnow, hleaves⟩ := hslot
  · exact ⟨r, by rwa [State.machine_eq, hkept, ← State.machine_eq], hsame⟩
  · have hl := hleaves r hr
    cases st with
    | removed => exact hl.elim
    | present q => exact ⟨q, by rw [State.machine_eq, hnow]; rfl, hsame.trans hl⟩

theorem Current.of_took {s t : State} {message : Message} {p : PendingEdit} (h : Current s p)
    (htook : State.Took s message t)
    (hok : ∀ slot ∈ s.incoming p.record.id message, Harmless s p slot) : Current t p := by
  refine h.of_slot ?_
  obtain hkept | ⟨slot, hslot, hnow, hnewer⟩ := htook.slot p.record.id
  · exact .inl hkept
  · obtain ⟨own, hown, hle⟩ | hleaves := hok slot hslot
    · exact absurd hle (not_le.mpr (hnewer own hown))
    · exact .inr ⟨slot, hnow, hleaves⟩

theorem slot_of_mutate {s t : State} {now : ℕ} {op : Op} {u : WorkspaceUpdate}
    (h : s.mutate me now op = .ok (t, u)) (id : MachineId) :
    (replaces id op = none ∧ t.slot id = s.slot id) ∨
      ∃ st, replaces id op = some st ∧ t.slot id = some ⟨u.stamp, st⟩ := by
  rw [State.mutate_slot h id, WorkspaceUpdate.slot, State.mutate_update_op h]
  cases op with
  | setName | setSettings => exact .inl ⟨rfl, rfl⟩
  | upsertMachine record =>
    by_cases hid : record.id = id
    · exact .inr ⟨.present record, by simp [replaces, hid], by simp [hid]⟩
    · exact .inl ⟨by simp [replaces, hid], by simp [hid]⟩
  | removeMachine gone =>
    by_cases hid : gone = id
    · exact .inr ⟨.removed, by simp [replaces, hid], by simp [hid]⟩
    · exact .inl ⟨by simp [replaces, hid], by simp [hid]⟩

theorem Current.of_mutate {s t : State} {now : ℕ} {op : Op} {u : WorkspaceUpdate}
    {p : PendingEdit} (h : Current s p) (hm : s.mutate me now op = .ok (t, u))
    (hok : ∀ st ∈ replaces p.record.id op, ∀ r ∈ s.machine p.record.id, Leaves p.edit r st) :
    Current t p := by
  obtain ⟨-, hkept⟩ | ⟨st, hst, hnow⟩ := slot_of_mutate me hm p.record.id
  · exact h.of_slot (.inl hkept)
  · exact h.of_slot (.inr ⟨_, hnow, hok st hst⟩)

theorem Inv.write {w v : World} {i now : ℕ} (h : Inv w) (hok : Spares me w (.write i now))
    (hs : step me w (.write i now) = some v) : Inv v := by
  simp only [step] at hs
  split at hs
  · cases hs
  rename_i p hp
  have hkeep : ∀ q ∈ w.pending.eraseIdx i, Current w.agent q := fun q hq =>
    h.pending q (List.mem_of_mem_eraseIdx hq)
  obtain ⟨r, hr, hsame⟩ := h.pending p (List.mem_of_getElem? hp)
  split at hs
  · rename_i s u hm
    obtain rfl := Option.some.inj hs
    refine ⟨fun q hq => (hkeep q hq).of_mutate me hm fun st hst x hx => ?_, fun x hx => ?_⟩
    · simp only [replaces] at hst
      split at hst
      · rename_i hid
        obtain rfl := Option.some.inj hst
        exact hok p hp q hq (by rw [← hid, PendingEdit.edited, Edit.id_apply]) x hx
      · cases hst
    · obtain hx | hx := List.mem_append.mp hx
      · exact h.written x hx
      · obtain rfl := List.mem_singleton.mp hx
        refine ⟨r, by rw [PendingEdit.edited, Edit.id_apply]; exact hr, ?_⟩
        exact hsame.symm.trans (p.edit.rest_apply p.record).symm
  · obtain rfl := Option.some.inj hs
    exact ⟨hkeep, h.written⟩

/-- A step that spares the pending edits writes only records that differ from those they replace
in what was edited. -/
theorem step_inv {w v : World} {a : Action} (h : Inv w) (hok : Spares me w a)
    (hs : step me w a = some v) : Inv v := by
  cases a with
  | read c =>
    simp only [step] at hs
    split at hs
    · rename_i p hp
      obtain rfl := Option.some.inj hs
      refine ⟨fun q hq => ?_, h.written⟩
      obtain hq | hq := List.mem_append.mp hq
      · exact h.pending q hq
      · obtain rfl := List.mem_singleton.mp hq
        have hread := Command.read_some hp
        exact ⟨q.record, by rw [hok _ hread]; exact hread, rfl⟩
    · obtain rfl := Option.some.inj hs
      exact h
  | write i now => exact h.write me hok hs
  | update u =>
    simp only [step] at hs
    split at hs
    · rename_i s c hu
      obtain rfl := Option.some.inj hs
      exact ⟨fun p hp => (h.pending p hp).of_took (State.took_apply hu) (hok p hp), h.written⟩
    · obtain rfl := Option.some.inj hs
      exact h
  | merge doc =>
    simp only [step] at hs
    split at hs
    · rename_i s c hu
      obtain rfl := Option.some.inj hs
      exact ⟨fun p hp => (h.pending p hp).of_took (State.took_merge hu) (hok p hp), h.written⟩
    · obtain rfl := Option.some.inj hs
      exact h
  | change now op =>
    simp only [step] at hs
    split at hs
    · rename_i s u hm
      obtain rfl := Option.some.inj hs
      exact ⟨fun p hp => (h.pending p hp).of_mutate me hm (hok p hp), h.written⟩
    · obtain rfl := Option.some.inj hs
      exact h

/-- As long as nothing else is changed of a machine while an edit of it is under way, every
record written differs from the one it replaces only in what was edited, and no machine that was
removed comes back. -/
theorem edits_lose_nothing {s : State} {as : List Action} {w : World}
    (h : Run (step me) (Spares me) ⟨s, [], []⟩ as w) : ∀ x ∈ w.written, x.Faithful :=
  (h.invariant (I := Inv) (fun _ _ _ hi hok hs => step_inv me hi hok hs)
    ⟨fun _ hp => absurd hp List.not_mem_nil, fun _ hx => absurd hx List.not_mem_nil⟩).written

def atStudio : World := ⟨.ofDoc together, [], []⟩

/-- Two machines are edited at a time, and a peer renames the workspace in between. -/
theorem edits_lose_nothing_apart : ∃ w, Run (step 1) (Spares 1) atStudio
      [.read (.editMachine 2 (.rename "Den")), .read (.editMachine 1 (.move 5 5)),
        .update ⟨7, 5, ⟨5, 2, 0⟩, .setName "Home"⟩, .write 1 0, .write 0 0] w ∧
    w.written.length = 2 ∧ ∀ x ∈ w.written, x.Faithful := by
  obtain ⟨w, hrun, hw⟩ := run_of_replay (step 1) (Spares 1) atStudio
    [.read (.editMachine 2 (.rename "Den")), .read (.editMachine 1 (.move 5 5)),
      .update ⟨7, 5, ⟨5, 2, 0⟩, .setName "Home"⟩, .write 1 0, .write 0 0]
    (fun w => w.written.length) (b := 2) (by decide +kernel)
  exact ⟨w, hrun, hw, edits_lose_nothing 1 hrun⟩

/-- A name is lost to a choice of inputs that was read before it was written; and a machine that a
peer removed is back once a rename of it is written. -/
theorem edits_lost :
    (∃ w, Run (step 1) Any atStudio
        [.read (.editMachine 2 (.rename "Den")), .read (.editMachine 2 (.setInput true true)),
          .write 0 0, .write 0 0] w ∧
      (∃ x ∈ w.written, ¬ x.Faithful) ∧
      (w.agent.machine 2).map (·.displayName) = some "Laptop") ∧
    ∃ w, Run (step 1) Any atStudio
        [.read (.editMachine 2 (.rename "Den")), .update ⟨7, 2, ⟨3, 2, 0⟩, .removeMachine 2⟩,
          .write 0 0] w ∧
      (∃ x ∈ w.written, ¬ x.Faithful) ∧
      (w.agent.machine 2).map (·.displayName) = some "Den" := by
  have hlost : ∀ {w : World} {name : Option String}, (w.written.any (fun x => ¬ x.Faithful),
      (w.agent.machine 2).map (·.displayName)) = (true, name) →
      (∃ x ∈ w.written, ¬ x.Faithful) ∧ (w.agent.machine 2).map (·.displayName) = name := by
    intro w name h
    obtain ⟨hany, hname⟩ := Prod.mk.inj h
    exact ⟨by simpa using hany, hname⟩
  constructor
  · obtain ⟨w, hrun, hw⟩ := run_of_replay (step 1) Any atStudio
      [.read (.editMachine 2 (.rename "Den")), .read (.editMachine 2 (.setInput true true)),
        .write 0 0, .write 0 0]
      (fun w => (w.written.any (fun x => ¬ x.Faithful),
        (w.agent.machine 2).map (·.displayName))) (b := (true, some "Laptop")) (by decide +kernel)
    exact ⟨w, hrun, hlost hw⟩
  · obtain ⟨w, hrun, hw⟩ := run_of_replay (step 1) Any atStudio
      [.read (.editMachine 2 (.rename "Den")), .update ⟨7, 2, ⟨3, 2, 0⟩, .removeMachine 2⟩,
        .write 0 0]
      (fun w => (w.written.any (fun x => ¬ x.Faithful),
        (w.agent.machine 2).map (·.displayName))) (b := (true, some "Den")) (by decide +kernel)
    exact ⟨w, hrun, hlost hw⟩

end Edits
end InputShare

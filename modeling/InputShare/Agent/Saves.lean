import InputShare.Agent.Permission
import InputShare.Lib.Runs

/-! What an agent writes to its workspace file, and whether the next start can read it: local
edits, updates and documents from peers, whatever they hold, and a document adopted whole. -/
namespace InputShare

/-- The exponent of an `f32` that is a number; the others are written as `null`. -/
def DisplayInfo.Finite (d : DisplayInfo) : Prop := d.scale / 8388608 % 256 ≠ 255

def MachineRecord.Finite (r : MachineRecord) : Prop := ∀ d ∈ r.displays, d.Finite

def MachineSlot.Finite (s : MachineSlot) : Prop := ∀ r ∈ s.state.record, r.Finite

def WorkspaceDoc.Finite (d : WorkspaceDoc) : Prop := ∀ p ∈ d.machines.toList, p.2.Finite

def Op.record : Op → Option MachineRecord
  | .upsertMachine record => some record
  | _ => none

namespace Saves
open Runs Files Store

inductive Action where
  | edit (now : ℕ) (op : Op) (stop : Option Stop)
  | apply (u : WorkspaceUpdate) (stop : Option Stop)
  | merge (incoming : WorkspaceDoc) (stop : Option Stop)
  | adoptConfigurationOf (id : MachineId) (theirKey : PubKey)

structure World where
  state : State
  disk : Dir
  /-- The documents whose save went through, each with the directory it left. -/
  written : List (WorkspaceDoc × Dir)

variable (json : Json WorkspaceDoc) (me : MachineId)

def start (d : WorkspaceDoc) (disk : Dir) : World := ⟨.ofDoc d, disk, []⟩

def persist (w : World) (s : State) (stop : Option Stop) : Option World :=
  match s.doc, stop with
  | none, _ => some { w with state := s }
  | some doc, none => (complete (saveWorkspace json doc) w.disk).map fun e =>
    { state := s, disk := e, written := w.written ++ [(doc, e)] }
  | some doc, some stop => (interrupt (saveWorkspace json doc) w.disk stop).map fun e =>
    { w with state := s, disk := e }

def persistIf (w : World) (s : State) (changed : Bool) (stop : Option Stop) : Option World :=
  if changed then persist json w s stop else some { w with state := s }

def step (w : World) : Action → Option World
  | .edit now op stop =>
    match w.state.mutate me now op with
    | .ok (s, _) => persist json w s stop
    | .error _ => some w
  | .apply u stop =>
    match w.state.apply u with
    | .ok (s, changed) => persistIf json w s changed stop
    | .error _ => some w
  | .merge incoming stop =>
    match w.state.merge incoming with
    | .ok (s, changed) => persistIf json w s changed stop
    | .error _ => some w
  | .adoptConfigurationOf id theirKey => (complete clearWorkspace w.disk).map fun e =>
    { w with state := w.state.adoptConfigurationOf id theirKey, disk := e }

/-- Every document whose save went through is what the next start reads. -/
def LoadsBack (w : World) : Prop :=
  ∀ p ∈ w.written, loadWorkspace json p.2 = .ok (some p.1)

def Readable (d : WorkspaceDoc) : Prop :=
  d.schemaVersion ≤ WorkspaceDoc.supportedSchema ∧ d.Finite

def EntersFinite (own : Option MachineSlot) (s : MachineSlot) : Prop :=
  (∀ o ∈ own, o.stamp.key < s.stamp.key) → s.Finite

/-- What is taken into the document has only numbers in it, and a document that is adopted whole is
of a version this build knows. -/
def Storable (w : World) : Action → Prop
  | .edit _ op _ => ∀ r ∈ op.record, r.Finite
  | .apply u _ => ∀ d ∈ w.state.doc, u.workspaceId = d.workspaceId →
      ∀ r ∈ u.op.record, EntersFinite d.machines[r.id]? ⟨u.stamp, .present r⟩
  | .merge incoming _ =>
    match w.state.doc with
    | none => Readable incoming
    | some d => incoming.workspaceId = d.workspaceId →
        ∀ p ∈ incoming.machines.toList, EntersFinite d.machines[p.1]? p.2
  | .adoptConfigurationOf .. => True

theorem Readable.slot {d : WorkspaceDoc} (h : Readable d) {id : MachineId} {s : MachineSlot}
    (hs : d.machines[id]? = some s) : s.Finite :=
  h.2 (id, s) (Std.ExtTreeMap.mem_toList_iff_getElem?_eq_some.mpr hs)

theorem readable_of_adopts {d e : WorkspaceDoc} {slots : MachineId → Option MachineSlot}
    (hd : Readable d) (hschema : e.schemaVersion = d.schemaVersion)
    (ha : ∀ id : MachineId, WorkspaceDoc.Adopts d.machines[id]? (slots id) e.machines[id]?)
    (hin : ∀ (id : MachineId), ∀ s ∈ slots id, EntersFinite d.machines[id]? s) : Readable e := by
  refine ⟨hschema ▸ hd.1, fun p hp => ?_⟩
  have hnow := Std.ExtTreeMap.mem_toList_iff_getElem?_eq_some.mp hp
  obtain hsame | ⟨slot, hslot, htaken, hlt⟩ := ha p.1
  · exact hd.slot (hsame ▸ hnow)
  · obtain rfl := Option.some.inj (htaken.symm.trans hnow)
    exact hin p.1 p.2 hslot hlt

theorem finite_of_slot {u : WorkspaceUpdate} {id : MachineId} {s : MachineSlot}
    (h : u.slot id = some s) (hop : ∀ r ∈ u.op.record, r.id = id → r.Finite) : s.Finite := by
  intro r hr
  obtain ⟨record, hrecord, hid, hstate⟩ | ⟨-, hstate⟩ := WorkspaceUpdate.slot_eq_some h
  · rw [hstate] at hr
    obtain rfl := Option.some.inj hr
    exact hop record (by rw [hrecord]; rfl) hid
  · rw [hstate] at hr
    cases hr

theorem readable_edit {s t : State} {me : MachineId} {now : ℕ} {op : Op} {u : WorkspaceUpdate}
    {e : WorkspaceDoc} (h : s.mutate me now op = .ok (t, u)) (he : t.doc = some e)
    (hd : ∀ d, s.doc = some d → Readable d) (hop : ∀ r ∈ op.record, r.Finite) : Readable e := by
  have huop := State.mutate_update_op h
  have hslots := State.mutate_slot h
  obtain ⟨d, hdoc, rfl, -⟩ := State.mutate_some h
  obtain rfl := Option.some.inj he
  refine ⟨(d.edit_schemaVersion me now op).symm ▸ (hd d hdoc).1, fun p hp => ?_⟩
  have hnow := hslots p.1
  simp only [State.slot, hdoc, Option.bind_some,
    Std.ExtTreeMap.mem_toList_iff_getElem?_eq_some.mp hp] at hnow
  cases hu : u.slot p.1 with
  | none =>
    rw [hu, Option.none_or] at hnow
    exact (hd d hdoc).slot hnow.symm
  | some x =>
    rw [hu, Option.some_or] at hnow
    obtain rfl := Option.some.inj hnow
    exact finite_of_slot hu fun r hr _ => hop r (huop ▸ hr)

theorem readable_apply {s t : State} {u : WorkspaceUpdate} {c : Bool} {e : WorkspaceDoc}
    (h : s.apply u = .ok (t, c)) (he : t.doc = some e) (hs : ∀ d, s.doc = some d → Readable d)
    (hok : ∀ d ∈ s.doc, u.workspaceId = d.workspaceId →
      ∀ r ∈ u.op.record, EntersFinite d.machines[r.id]? ⟨u.stamp, .present r⟩) : Readable e := by
  cases hd : s.doc with
  | none =>
    obtain ⟨rfl, -⟩ := State.apply_none hd h
    rw [hd] at he
    cases he
  | some d =>
    obtain ⟨x, hx, rfl⟩ := State.apply_some hd h
    obtain rfl := Option.some.inj he
    refine readable_of_adopts (hs d hd) (WorkspaceDoc.apply_schemaVersion hx)
      (WorkspaceDoc.apply_slot hx) fun id s hs hlt => finite_of_slot hs fun r hr hid => ?_
    rw [WorkspaceUpdate.slot_stamp hs, ← hid] at hlt
    exact hok d hd (WorkspaceDoc.apply_spec hx).1 r hr hlt r rfl

theorem readable_merge {s t : State} {incoming : WorkspaceDoc} {c : Bool} {d e : WorkspaceDoc}
    (h : s.merge incoming = .ok (t, c)) (he : t.doc = some e) (hd : s.doc = some d)
    (hs : Readable d) (hok : incoming.workspaceId = d.workspaceId →
      ∀ p ∈ incoming.machines.toList, EntersFinite d.machines[p.1]? p.2) : Readable e := by
  obtain ⟨x, hx, hdoc⟩ := State.merge_some hd h
  obtain rfl := Option.some.inj (hdoc.symm.trans he)
  exact readable_of_adopts hs (WorkspaceDoc.merge_schemaVersion hx)
    (WorkspaceDoc.merge_slot hx) fun id s hs => hok (WorkspaceDoc.merge_eq hx).1 (id, s)
      (Std.ExtTreeMap.mem_toList_iff_getElem?_eq_some.mpr hs)

/-- The document held can be read back, and what was written is in the file. -/
structure Good (w : World) : Prop where
  held : ∀ d, w.state.doc = some d → Readable d
  written : ∀ p ∈ w.written, Readable p.1 ∧ p.2 workspaceFile = .file (json.render p.1)

variable {json me}

theorem Good.persist {w v : World} (h : Good json w) {s : State} {stop : Option Stop}
    (hs : ∀ d, s.doc = some d → Readable d) (hv : persist json w s stop = some v) :
    Good json v := by
  unfold Saves.persist at hv
  split at hv
  next hd =>
    obtain rfl := Option.some.inj hv
    exact ⟨hs, h.written⟩
  next doc hd =>
    obtain ⟨e, he, rfl⟩ := Option.map_eq_some_iff.mp hv
    refine ⟨hs, fun p hp => ?_⟩
    obtain hp | hp := List.mem_append.mp hp
    · exact h.written p hp
    · obtain rfl := List.mem_singleton.mp hp
      exact ⟨hs doc hd, complete_writeAtomic he⟩
  next doc stop hd =>
    obtain ⟨e, -, rfl⟩ := Option.map_eq_some_iff.mp hv
    exact ⟨hs, h.written⟩

theorem Good.persistIf {w v : World} (h : Good json w) {s : State} {changed : Bool}
    {stop : Option Stop} (hs : ∀ d, s.doc = some d → Readable d)
    (hv : persistIf json w s changed stop = some v) : Good json v := by
  unfold Saves.persistIf at hv
  split at hv
  · exact h.persist hs hv
  · obtain rfl := Option.some.inj hv
    exact ⟨hs, h.written⟩

theorem Good.step {w v : World} {a : Action} (h : Good json w) (hok : Storable w a)
    (hs : Saves.step json me w a = some v) : Good json v := by
  cases a with
  | edit now op stop =>
    simp only [Saves.step] at hs
    split at hs
    next s u hu => exact h.persist (fun d hd => readable_edit hu hd h.held hok) hs
    next =>
      obtain rfl := Option.some.inj hs
      exact h
  | apply u stop =>
    simp only [Saves.step] at hs
    split at hs
    next s changed hu => exact h.persistIf (fun e he => readable_apply hu he h.held hok) hs
    next =>
      obtain rfl := Option.some.inj hs
      exact h
  | merge incoming stop =>
    simp only [Saves.step] at hs
    split at hs
    next s changed hm =>
      refine h.persistIf (fun e he => ?_) hs
      unfold Storable at hok
      cases hd : w.state.doc with
      | none =>
        obtain ⟨hdoc, -⟩ := State.merge_none hd hm
        obtain rfl := Option.some.inj (hdoc.symm.trans he)
        simpa only [hd] using hok
      | some d =>
        simp only [hd] at hok
        exact readable_merge hm he hd (h.held d hd) hok
    next =>
      obtain rfl := Option.some.inj hs
      exact h
  | adoptConfigurationOf id theirKey =>
    obtain ⟨e, -, rfl⟩ := Option.map_eq_some_iff.mp hs
    exact ⟨fun d hd => (by cases hd), h.written⟩

/-- Where what is taken in has only numbers in it and what is adopted whole is of a known version,
every document that is saved is what the next start reads. -/
theorem loadsBack_of_storable {d : WorkspaceDoc} {disk : Dir} {as : List Action} {w : World}
    (hd : Readable d) (h : Run (step json me) Storable (start d disk) as w)
    (hjson : ∀ p ∈ w.written, p.1.Finite → json.parse (json.render p.1) = some p.1) :
    LoadsBack json w := by
  have hw : Good json w := h.invariant (fun w a v hw hok hs => hw.step hok hs)
    ⟨fun e he => (Option.some.inj he) ▸ hd, fun p hp => by simp [start] at hp⟩
  intro p hp
  obtain ⟨⟨hschema, hfinite⟩, hfile⟩ := hw.written p hp
  exact loadWorkspace_of_reads ⟨_, hfile, hjson p hp hfinite⟩ hschema

instance (d : DisplayInfo) : Decidable d.Finite := inferInstanceAs (Decidable (_ ≠ _))

instance (r : MachineRecord) : Decidable r.Finite :=
  inferInstanceAs (Decidable (∀ d ∈ r.displays, d.Finite))

instance (s : MachineSlot) : Decidable s.Finite :=
  inferInstanceAs (Decidable (∀ r ∈ s.state.record, r.Finite))

instance (d : WorkspaceDoc) : Decidable d.Finite :=
  inferInstanceAs (Decidable (∀ p ∈ d.machines.toList, p.2.Finite))

instance (d : WorkspaceDoc) : Decidable (Readable d) := inferInstanceAs (Decidable (_ ∧ d.Finite))

instance (own : Option MachineSlot) (s : MachineSlot) : Decidable (EntersFinite own s) :=
  inferInstanceAs (Decidable ((∀ o ∈ own, o.stamp.key < s.stamp.key) → s.Finite))

instance (w : World) (a : Action) : Decidable (Storable w a) :=
  match a with
  | .edit _ op _ => inferInstanceAs (Decidable (∀ r ∈ op.record, r.Finite))
  | .apply u _ => inferInstanceAs (Decidable (∀ d ∈ w.state.doc, _ → ∀ r ∈ u.op.record,
      EntersFinite d.machines[r.id]? ⟨u.stamp, .present r⟩))
  | .merge incoming _ =>
    match h : w.state.doc with
    | none => decidable_of_iff (Readable incoming) (by simp [Storable, h])
    | some d => decidable_of_iff (incoming.workspaceId = d.workspaceId →
        ∀ p ∈ incoming.machines.toList, EntersFinite d.machines[p.1]? p.2) (by simp [Storable, h])
  | .adoptConfigurationOf .. => .isTrue trivial

/-- A rename, and then another configuration in its place. -/
theorem loadsBack_of_storable_adopted : ∃ w, Run (step sampleJson 1) Storable
      (start desk (dirOf (sampleText desk) .missing))
      [.edit 0 (.setName "Home") none, .adoptConfigurationOf 2 12, .merge loft none] w ∧
    w.written.map Prod.fst = [home, loft] ∧ LoadsBack sampleJson w := by
  obtain ⟨w, hrun, hw⟩ := run_of_replay (step sampleJson 1) Storable
    (start desk (dirOf (sampleText desk) .missing))
    [.edit 0 (.setName "Home") none, .adoptConfigurationOf 2 12, .merge loft none]
    (fun w => w.written.map Prod.fst) (b := [home, loft]) (by decide +kernel)
  refine ⟨w, hrun, hw, loadsBack_of_storable (by decide +kernel) hrun fun p hp _ => ?_⟩
  have hmem := List.mem_map_of_mem (f := Prod.fst) hp
  rw [hw] at hmem
  exact sampleJson_render (List.mem_cons_of_mem _ (by simpa using hmem))

def later : WorkspaceDoc := { desk with schemaVersion := 2 }

def laterJson : Json WorkspaceDoc where
  render := sampleText
  parse bytes := [later, desk, home, loft].find? fun doc => sampleText doc = bytes

/-- A later build's document is adopted and saved, and is read back as of a version this build
refuses. -/
theorem adopted_version_refused : ∃ as w, Run (step laterJson 1) Any
      (start desk (dirOf (sampleText desk) .missing)) as w ∧
    (∀ p ∈ w.written, laterJson.parse (laterJson.render p.1) = some p.1) ∧
    ¬ LoadsBack laterJson w := by
  obtain ⟨w, hrun, hw⟩ := run_of_replay (step laterJson 1) Any
    (start desk (dirOf (sampleText desk) .missing))
    [.adoptConfigurationOf 2 12, .merge later none]
    (fun w => w.written.map Prod.fst) (b := [later]) (by decide +kernel)
  have hlater : ∀ p ∈ w.written, p.1 = later := by
    intro p hp
    have hmem := List.mem_map_of_mem (f := Prod.fst) hp
    rw [hw] at hmem
    exact List.mem_singleton.mp hmem
  refine ⟨_, w, hrun, fun p hp => ?_, fun h => ?_⟩
  · rw [hlater p hp]
    simp [laterJson]
  · obtain ⟨p, hp, hpl⟩ : ∃ p ∈ w.written, p.1 = later := by
      simpa using (show later ∈ w.written.map Prod.fst by rw [hw]; exact List.mem_cons_self)
    have hload := (loadWorkspace_some.mp (h p hp)).2
    rw [hpl] at hload
    exact absurd hload (by decide)

end Saves
end InputShare

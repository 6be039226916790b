import InputShare.Agent.Core
import InputShare.Core.Merging
import InputShare.Core.Replicas

/-! Agents of one workspace with the files they save to. What a peer sends is saved only when the
document reports a change. That skips nothing: along a run the clock of a document is the
greatest stamp in it, so a merge that changes no register does not move the clock either. -/
namespace InputShare
open LastWriter

namespace WorkspaceDoc

/-- `apply` reports no change only of a document it has left alone. -/
theorem eq_of_apply_false {d e : WorkspaceDoc} {u : WorkspaceUpdate} {W : Set DocWrite}
    (h : d.apply u = .ok (e, false)) (hk : d.replica.Knows W) : e = d := by
  obtain ⟨-, hrep, hws⟩ := apply_spec h
  have hsame : ∀ r, e.held r = d.held r := by
    have := (apply_changed_iff h).not.mp (by simp)
    simpa using this
  refine eq_of_fields hws (apply_schemaVersion h) (eq_of_replica_eq ?_)
  rw [hrep]
  refine Replica.take_eq_self hk.clocked fun r => ?_
  rw [← hrep]
  exact hsame r

/-- `merge` reports no change only of a document it has left alone, when the clock of the other
document is that of a write in it. -/
theorem eq_of_merge_false {d other e : WorkspaceDoc} {V W : Set DocWrite}
    (h : d.merge other = .ok (e, false)) (hk : d.replica.Knows W) (ho : other.replica.Knows V) :
    e = d := by
  obtain ⟨-, hrep, hws⟩ := merge_spec h (clockBounds_of_knows ho)
  have hsame : ∀ r, e.held r = d.held r := by
    have := (merge_changed_iff h).not.mp (by simp)
    simpa using this
  refine eq_of_fields hws (merge_schemaVersion h) (eq_of_replica_eq ?_)
  rw [hrep]
  refine Replica.join_eq_left hk.clocked ho fun r => ?_
  rw [← hrep]
  exact hsame r

end WorkspaceDoc

namespace Skipping
open Runs Files Store Replicas

structure World where
  agent : MachineId → State
  disk : MachineId → Dir
  updates : List WorkspaceUpdate
  /-- Every document an agent has held. -/
  documents : List WorkspaceDoc
  edits : ℕ

variable (json : Json WorkspaceDoc)

def start (d : WorkspaceDoc) (disk : MachineId → Dir) : World where
  agent _ := .ofDoc d
  disk := disk
  updates := []
  documents := [d]
  edits := 0

def World.hold (w : World) (m : MachineId) (s : State) : World :=
  { w with
    agent := Function.update w.agent m s
    documents := w.documents ++ s.doc.toList }

/-- Saves what machine `m` holds; the run has no failing save. -/
def persist (w : World) (m : MachineId) : Option World :=
  match (w.agent m).doc with
  | none => some w
  | some doc => (complete (saveWorkspace json doc) (w.disk m)).map fun e =>
    { w with disk := Function.update w.disk m e }

def persistIf (w : World) (m : MachineId) (changed : Bool) : Option World :=
  if changed then persist json w m else some w

def step (w : World) : Action → Option World
  | .edit m now op =>
    match (w.agent m).mutate m now op with
    | .ok (s, u) =>
      persist json { w.hold m s with updates := w.updates ++ [u], edits := w.edits + 1 } m
    | .error _ => some w
  | .deliver m i =>
    w.updates[i]?.bind fun u =>
      match (w.agent m).apply u with
      | .ok (s, changed) => persistIf json (w.hold m s) m changed
      | .error _ => some w
  | .merge m i =>
    w.documents[i]?.bind fun other =>
      match (w.agent m).merge other with
      | .ok (s, changed) => persistIf json (w.hold m s) m changed
      | .error _ => some w

/-- The agents hold the documents of these replicas. -/
structure Holds (w : World) (r : Replicas.World) : Prop where
  doc : ∀ m, (w.agent m).doc = some (r.doc m)
  updates : w.updates = r.updates
  documents : w.documents = r.documents
  edits : w.edits = r.edits

def Saved (w : World) : Prop :=
  ∀ m d, (w.agent m).doc = some d → w.disk m workspaceFile = .file (json.render d)

theorem Holds.hold {w : World} {r : Replicas.World} (h : Holds w r) {m : MachineId} {s : State}
    {d : WorkspaceDoc} (hs : s.doc = some d) (W : Set DocWrite) :
    Holds (w.hold m s) (r.hold m d W) := by
  refine ⟨fun k => ?_, h.updates, ?_, h.edits⟩
  · by_cases hk : k = m
    · subst hk
      simpa [World.hold, Replicas.World.hold] using hs
    · simpa [World.hold, Replicas.World.hold, hk] using h.doc k
  · simp [World.hold, Replicas.World.hold, hs, h.documents]

theorem Holds.edit {w : World} {r : Replicas.World} (h : Holds w r) {m : MachineId} {s : State}
    {d : WorkspaceDoc} (hs : s.doc = some d) (u : WorkspaceUpdate) :
    Holds { w.hold m s with updates := w.updates ++ [u], edits := w.edits + 1 }
      { r.hold m d {u.write} with updates := r.updates ++ [u], edits := r.edits + 1 } := by
  obtain ⟨hdoc, hupdates, hdocuments, hedits⟩ := h.hold hs {u.write}
  exact ⟨hdoc, congrArg (· ++ [u]) hupdates, hdocuments, congrArg (· + 1) hedits⟩

variable {json}

theorem persist_some {w v : World} {m : MachineId} (h : persist json w m = some v) :
    ∃ e, v = { w with disk := Function.update w.disk m e } ∧
      ∀ d, (w.agent m).doc = some d → e workspaceFile = .file (json.render d) := by
  unfold persist at h
  split at h
  next hd =>
    obtain rfl := Option.some.inj h
    exact ⟨w.disk m, by rw [Function.update_eq_self], by simp [hd]⟩
  next doc hd =>
    obtain ⟨e, he, rfl⟩ := Option.map_eq_some_iff.mp h
    refine ⟨e, rfl, fun d hd' => ?_⟩
    obtain rfl := Option.some.inj (hd.symm.trans hd')
    exact complete_writeAtomic he

theorem Holds.persist {w v : World} {r : Replicas.World} {m : MachineId} (h : Holds w r)
    (hv : persist json w m = some v) : Holds v r := by
  obtain ⟨e, rfl, -⟩ := persist_some hv
  exact ⟨h.doc, h.updates, h.documents, h.edits⟩

theorem saved_persist {w v : World} {m : MachineId} (hv : persist json w m = some v)
    (h : ∀ k d, k ≠ m → (w.agent k).doc = some d →
      w.disk k workspaceFile = .file (json.render d)) : Saved json v := by
  obtain ⟨e, rfl, he⟩ := persist_some hv
  intro k d hd
  by_cases hk : k = m
  · subst hk
    simpa using he d hd
  · simpa [hk] using h k d hk hd

theorem Holds.persistIf {w v : World} {r : Replicas.World} {m : MachineId} {c : Bool}
    (h : Holds w r) (hv : persistIf json w m c = some v) : Holds v r := by
  cases c with
  | false =>
    obtain rfl := Option.some.inj hv
    exact h
  | true => exact h.persist hv

theorem saved_persistIf {w v : World} {m : MachineId} {s : State} {c : Bool}
    (hv : persistIf json (w.hold m s) m c = some v) (h : Saved json w)
    (hskip : c = false → s.doc = (w.agent m).doc) : Saved json v := by
  have hother : ∀ k d, k ≠ m → ((w.hold m s).agent k).doc = some d →
      (w.hold m s).disk k workspaceFile = .file (json.render d) := by
    intro k d hk hd
    exact h k d (by simpa [World.hold, hk] using hd)
  cases c with
  | false =>
    obtain rfl := Option.some.inj hv
    intro k d hd
    by_cases hk : k = m
    · subst hk
      have hdoc : s.doc = some d := by simpa [World.hold] using hd
      exact h k d ((hskip rfl).symm.trans hdoc)
    · exact hother k d hk hd
  | true => exact saved_persist hv hother

theorem apply_skipped {base : WorkspaceDoc} {w : World} {r : Replicas.World} (h : Holds w r)
    (hr : Inv base r) {m : MachineId} {u : WorkspaceUpdate} {s : State}
    (hs : (w.agent m).apply u = .ok (s, false)) : s = w.agent m := by
  obtain ⟨e, he, rfl⟩ := State.apply_some (h.doc m) hs
  rw [WorkspaceDoc.eq_of_apply_false he (hr.knows m), ← h.doc m]

theorem merge_skipped {base : WorkspaceDoc} {w : World} {r : Replicas.World} (h : Holds w r)
    (hr : Inv base r) {m : MachineId} {other : WorkspaceDoc} (ho : other ∈ w.documents)
    {s : State} (hs : (w.agent m).merge other = .ok (s, false)) : s = w.agent m := by
  obtain ⟨-, hknows, -⟩ := hr.documents other (h.documents ▸ ho)
  obtain ⟨e, he, hdoc⟩ := State.merge_some (h.doc m) hs
  have hsame : e = r.doc m := WorkspaceDoc.eq_of_merge_false he (hr.knows m) hknows
  simp only [State.merge, h.doc m, he, hsame, bind, Except.bind, pure, Except.pure,
    Except.ok.injEq, Prod.mk.injEq] at hs
  rw [← hs.1, ← h.doc m]
  rfl

theorem step_holds {base : WorkspaceDoc} {w v : World} {r : Replicas.World} {a : Action}
    (h : Holds w r) (hr : Inv base r) (hsaved : Saved json w) (hv : step json w a = some v) :
    ∃ q, Replicas.step r a = some q ∧ Holds v q ∧ Saved json v := by
  cases a with
  | edit m now op =>
    have hm : (w.agent m).mutate m now op =
        .ok ({ w.agent m with doc := some ((r.doc m).edit m now op).1 },
          ((r.doc m).edit m now op).2) := by
      simp [State.mutate, h.doc m]
    simp only [step, hm] at hv
    refine ⟨_, rfl, (h.edit rfl ((r.doc m).edit m now op).2).persist hv,
      saved_persist hv fun k d hk hd => ?_⟩
    exact hsaved k d (by simpa [World.hold, hk] using hd)
  | deliver m i =>
    obtain ⟨u, hu, hv⟩ := Option.bind_eq_some_iff.mp hv
    have hu' : r.updates[i]? = some u := h.updates ▸ hu
    cases ha : (w.agent m).apply u with
    | error err =>
      simp only [ha, Option.some.injEq] at hv
      subst hv
      exact ⟨r, by simp [Replicas.step, hu', State.apply_error (h.doc m) ha], h, hsaved⟩
    | ok p =>
      obtain ⟨s, c⟩ := p
      simp only [ha] at hv
      obtain ⟨e, he, hdoc⟩ := State.apply_some (h.doc m) ha
      refine ⟨r.hold m e {u.write}, by simp only [Replicas.step, hu', Option.map_some, he],
        (h.hold (by rw [hdoc]) _).persistIf hv, saved_persistIf hv hsaved fun hc => ?_⟩
      subst hc
      rw [apply_skipped h hr ha]
  | merge m i =>
    obtain ⟨other, ho, hv⟩ := Option.bind_eq_some_iff.mp hv
    have ho' : r.documents[i]? = some other := h.documents ▸ ho
    cases ha : (w.agent m).merge other with
    | error err =>
      simp only [ha, Option.some.injEq] at hv
      subst hv
      exact ⟨r, by simp [Replicas.step, ho', State.merge_error (h.doc m) ha], h, hsaved⟩
    | ok p =>
      obtain ⟨s, c⟩ := p
      simp only [ha] at hv
      obtain ⟨e, he, hdoc⟩ := State.merge_some (h.doc m) ha
      refine ⟨r.hold m e other.replica.writes,
        by simp only [Replicas.step, ho', Option.map_some, he],
        (h.hold hdoc _).persistIf hv, saved_persistIf hv hsaved fun hc => ?_⟩
      subst hc
      rw [merge_skipped h hr (List.mem_of_getElem? ho) ha]

theorem edits_mono {w v : World} {a : Action} (hv : step json w a = some v) :
    w.edits ≤ v.edits := by
  have hpersist : ∀ {w v : World} {m : MachineId}, persist json w m = some v →
      v.edits = w.edits := by
    intro w v m h
    obtain ⟨e, rfl, -⟩ := persist_some h
    rfl
  have hif : ∀ {w v : World} {m : MachineId} {c : Bool}, persistIf json w m c = some v →
      v.edits = w.edits := by
    intro w v m c h
    cases c with
    | false => rw [← Option.some.inj h]
    | true => exact hpersist h
  cases a with
  | edit m now op =>
    simp only [step] at hv
    split at hv
    · rw [hpersist hv]
      exact Nat.le_succ _
    · rw [Option.some.inj hv]
  | deliver m i =>
    obtain ⟨u, -, hv⟩ := Option.bind_eq_some_iff.mp hv
    split at hv
    · exact (hif hv).ge
    · rw [Option.some.inj hv]
  | merge m i =>
    obtain ⟨other, -, hv⟩ := Option.bind_eq_some_iff.mp hv
    split at hv
    · exact (hif hv).ge
    · rw [Option.some.inj hv]

/-- A run of the agents is a run of the replicas they hold, and leaves everything saved. -/
theorem run_holds {base : WorkspaceDoc} {w v : World} {as : List Action}
    (hrun : Run (step json) Any w as v) (hlt : v.edits < u64Size - 1) {r : Replicas.World}
    (h : Holds w r) (hr : Inv base r) (hsaved : Saved json w) :
    ∃ q, Run Replicas.step Any r as q ∧ Inv base q ∧ Holds v q ∧ Saved json v := by
  induction hrun generalizing r with
  | nil => exact ⟨r, .nil r, hr, h, hsaved⟩
  | @cons w x v a as hok hs hrest ih =>
    obtain ⟨q, hq, hheld, hsaved⟩ := step_holds h hr hsaved hs
    have hle : x.edits ≤ v.edits := hrest.related (R := fun a b => a.edits ≤ b.edits)
      (fun _ => le_rfl) (fun _ _ _ => le_trans) fun _ _ _ _ => edits_mono
    have hq' : Inv base q := hr.step hq (hheld.edits ▸ lt_of_le_of_lt hle hlt)
    obtain ⟨p, hp, hinv, hheld, hsaved⟩ := ih hlt hheld hq' hsaved
    exact ⟨p, .cons trivial hq hp, hinv, hheld, hsaved⟩

/-- Wherever a run ends, `apply` and `merge` report no change only when they have changed
nothing, and what every agent holds is what its file holds. -/
theorem skipped_saves_sound (json : Json WorkspaceDoc) (ws : WorkspaceId) (now : ℕ) (name : String)
    (founder : MachineRecord) (disk : MachineId → Dir)
    (hdisk : ∀ m, disk m workspaceFile = .file (json.render (.create ws now name founder)))
    (as : List Action) (w : World)
    (hrun : Run (step json) Any (start (.create ws now name founder) disk) as w)
    (hlt : w.edits < u64Size - 1) :
    (∀ m, ∀ u ∈ w.updates, ∀ s, (w.agent m).apply u = .ok (s, false) → s = w.agent m) ∧
      (∀ m, ∀ other ∈ w.documents, ∀ s, (w.agent m).merge other = .ok (s, false) →
        s = w.agent m) ∧
      ∀ m, ∃ d, (w.agent m).doc = some d ∧ w.disk m workspaceFile = .file (json.render d) := by
  have hstart : Holds (start (.create ws now name founder) disk)
      (Replicas.start (.create ws now name founder)) := ⟨fun _ => rfl, rfl, rfl, rfl⟩
  obtain ⟨r, -, hr, h, hsaved⟩ := run_holds hrun hlt hstart (inv_start ws now name founder)
    fun m d hd => Option.some.inj hd ▸ hdisk m
  refine ⟨fun m u _ s hs => apply_skipped h hr hs, fun m other ho s hs => merge_skipped h hr ho hs,
    fun m => ⟨r.doc m, h.doc m, hsaved m _ (h.doc m)⟩⟩

/-- Two machines rename the workspace at once, one takes the other's update and hands its whole
document back twice; the second time nothing is saved. -/
theorem skipped_saves_sound_renames :
    ∃ w, Run (step sampleJson) Any (start desk fun _ => dirOf (sampleText desk) .missing)
        (renames ++ [.merge 2 3]) w ∧
      (∃ s other, other ∈ w.documents ∧ (w.agent 2).merge other = .ok (s, false)) ∧
      ∀ m, ∃ d, (w.agent m).doc = some d ∧
        w.disk m workspaceFile = .file (sampleJson.render d) := by
  obtain ⟨w, hrun, hw⟩ := run_of_replay (step sampleJson) Any
    (start desk fun _ => dirOf (sampleText desk) .missing) (renames ++ [.merge 2 3])
    (fun w => (w.edits, (w.documents.map fun d =>
      match (w.agent 2).merge d with
      | .ok (_, c) => c
      | .error _ => true)))
    (b := (2, [false, false, false, false, false, false])) (by decide +kernel)
  simp only [Prod.mk.injEq] at hw
  obtain ⟨hedits, hflags⟩ := hw
  refine ⟨w, hrun, ?_, (skipped_saves_sound sampleJson 7 0 "Desk" studio _ (fun _ => rfl) _ w hrun
    (by rw [hedits]; decide)).2.2⟩
  have hmem : false ∈ w.documents.map _ := hflags ▸ List.mem_cons_self
  obtain ⟨d, hd, hflag⟩ := List.mem_map.mp hmem
  split at hflag
  · rename_i s c hs
    exact ⟨s, d, hd, by rw [hs, hflag]⟩
  · cases hflag

end Skipping
end InputShare

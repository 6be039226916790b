import InputShare.Agent.Saves
import InputShare.Core.Clock
import InputShare.Core.Underway

/-! The workspace file of a running agent. A change and its save hold the lock of the state; when
a configuration is given up the lock is held for the reset only, and the files are removed behind
it, whatever else happens in between. -/
namespace InputShare
open LastWriter

namespace WorkspaceDoc

def registers (d : WorkspaceDoc) : List Register :=
  .name :: .settings :: d.machines.toList.map fun p => .slot p.1

def BringsValue (d : WorkspaceDoc) : Incoming → Prop
  | .update u => u.stamp.lamport ≤ d.lamport ∨ Beats (d.held u.op.register) (some u.write)
  | .document other => (∀ n ∈ other.observed, n ≤ d.lamport) ∨
      ∃ r ∈ other.registers, Beats (d.held r) (other.held r)

theorem eq_of_unchanged {d e : WorkspaceDoc} (hh : ¬ ∃ r, e.held r ≠ d.held r)
    (hl : e.lamport = d.lamport) (hw : e.workspaceId = d.workspaceId)
    (hs : e.schemaVersion = d.schemaVersion) : e = d := by
  obtain ⟨hn, hset, hm⟩ := eq_of_held_eq fun r => not_not.mp fun h => hh ⟨r, h⟩
  exact eq_of_fields hw hs ⟨hn, hset, hm, hl⟩

theorem eq_of_apply_unchanged {d e : WorkspaceDoc} {u : WorkspaceUpdate}
    (h : d.apply u = .ok (e, false)) (hb : d.BringsValue (.update u)) : e = d := by
  have hno := (apply_changed_iff h).not.mp (by simp)
  refine eq_of_unchanged hno ?_ (apply_spec h).2.2 (apply_schemaVersion h)
  rw [apply_lamport h]
  obtain hle | hbeats := hb
  · exact max_eq_left hle
  · obtain ⟨r, hr⟩ := (Replica.take_changes_iff d.replica u.write).mpr hbeats
    rw [← (apply_spec h).2.1] at hr
    exact absurd ⟨r, hr⟩ hno

theorem eq_of_merge_unchanged {d other e : WorkspaceDoc} (h : d.merge other = .ok (e, false))
    (hb : d.BringsValue (.document other)) : e = d := by
  have hno := (merge_changed_iff h).not.mp (by simp)
  refine eq_of_unchanged hno ?_ (merge_workspaceId h) (merge_schemaVersion h)
  obtain hle | ⟨r, -, hbeats⟩ := hb
  · refine le_antisymm ?_ ((le_merge_lamport h _).mpr ⟨_, List.mem_cons_self, le_rfl⟩)
    obtain ⟨n, hn, hle'⟩ := (le_merge_lamport h _).mp le_rfl
    obtain rfl | hn := List.mem_cons.mp hn
    · exact hle'
    · exact hle'.trans (hle n hn)
  · refine absurd ⟨r, ?_⟩ hno
    rw [merge_held h]
    exact newer_ne_left_iff.mpr hbeats

end WorkspaceDoc

namespace Adoption
open Runs Files Store

structure World where
  state : State
  disk : Dir
  /-- How far the save is that holds the lock. -/
  saving : Option ℕ
  /-- How many files each adoption under way has removed. -/
  clearing : List ℕ

inductive Action where
  | edit (now : ℕ) (op : Op)
  | apply (u : WorkspaceUpdate)
  | merge (incoming : WorkspaceDoc)
  /-- A configuration is given up, in memory. -/
  | adoptConfigurationOf (id : MachineId) (theirKey : PubKey)
  /-- The save goes on. -/
  | save
  /-- An adoption goes on with the files. -/
  | clear (i : ℕ)

variable (json : Json WorkspaceDoc) (me : MachineId)

def start (s : State) (disk : Dir) : World := ⟨s, disk, none, []⟩

def persistIf (w : World) (s : State) (changed : Bool) : World :=
  { w with state := s, saving := if changed && s.doc.isSome then some 0 else none }

/-- Stage `k` of a program, the last one leading to `none`. -/
def runStage (stages : List Stage) (k : ℕ) (disk : Dir) : Option (Dir × Option ℕ) := do
  let st ← stages[k]?
  let e ← st.run disk
  return (e, if k + 1 < stages.length then some (k + 1) else none)

/-- The `i`th adoption goes on to `k`, or is through. -/
def goOn (clearing : List ℕ) (i : ℕ) : Option ℕ → List ℕ
  | some k => clearing.set i k
  | none => clearing.eraseIdx i

/-- Every file operation succeeds; what needs the lock waits for it. -/
def step (w : World) : Action → Option World
  | .edit now op =>
    if w.saving.isSome then none
    else
      match w.state.mutate me now op with
      | .ok (s, _) => some (persistIf w s true)
      | .error _ => some w
  | .apply u =>
    if w.saving.isSome then none
    else
      match w.state.apply u with
      | .ok (s, changed) => some (persistIf w s changed)
      | .error _ => some w
  | .merge incoming =>
    if w.saving.isSome then none
    else
      match w.state.merge incoming with
      | .ok (s, changed) => some (persistIf w s changed)
      | .error _ => some w
  | .adoptConfigurationOf id theirKey =>
    if w.saving.isSome then none
    else some { w with
      state := w.state.adoptConfigurationOf id theirKey
      clearing := w.clearing ++ [0] }
  | .save => do
    let k ← w.saving
    let doc ← w.state.doc
    let (e, k) ← runStage (saveWorkspace json doc) k w.disk
    return { w with disk := e, saving := k }
  | .clear i => do
    let k ← w.clearing[i]?
    let (e, k) ← runStage clearWorkspace k w.disk
    return { w with disk := e, clearing := goOn w.clearing i k }

/-- Whenever no operation is in progress, the file holds what the agent holds. -/
def FileCurrent (w : World) : Prop :=
  w.saving = none → w.clearing = [] → loadWorkspace json w.disk = .ok w.state.doc

/-- A document is taken whole only when every adoption under way has removed the file; what a peer
sends moves the clock only together with a value, and can be read back. -/
def KeepsUp (w : World) : Action → Prop
  | .edit _ op => ∀ r ∈ op.record, r.Finite
  | .apply u => ∀ d ∈ w.state.doc, u.workspaceId = d.workspaceId →
      d.BringsValue (.update u) ∧
      ∀ r ∈ u.op.record, Saves.EntersFinite d.machines[r.id]? ⟨u.stamp, .present r⟩
  | .merge incoming =>
    match w.state.doc with
    | none => 0 ∉ w.clearing ∧ Saves.Readable incoming
    | some d => incoming.workspaceId = d.workspaceId →
        d.BringsValue (.document incoming) ∧
        ∀ p ∈ incoming.machines.toList, Saves.EntersFinite d.machines[p.1]? p.2
  | _ => True

/-- What the temporary file holds when a save comes to stage `k`, unless it was removed. -/
def Drafted (b : Bytes) : ℕ → Node → Prop
  | 0, _ => True
  | 1, node => node = .missing ∨ node = .file []
  | _ + 2, node => node = .missing ∨ node = .file b

theorem Drafted.removed (b : Bytes) (k : ℕ) : Drafted b k .missing := by
  match k with
  | 0 => trivial
  | 1 | k + 2 => exact .inl rfl

variable {json me}

theorem Drafted.stage {doc : WorkspaceDoc} {k : ℕ} {disk e : Dir}
    (h : Drafted (json.render doc) k (disk (tmp workspaceFile)))
    (hs : Staged disk e (json.render doc) k) :
    k < 4 ∧ Drafted (json.render doc) (k + 1) (e (tmp workspaceFile)) ∨
      k = 4 ∧ e workspaceFile = .file (json.render doc) := by
  cases hs with
  | create ht hw => exact .inl ⟨by omega, .inr ht⟩
  | write hd ht hw =>
    obtain h | h := h
    · simp [h] at hd
    · obtain rfl := Node.file.inj (h.symm.trans hd)
      exact .inl ⟨by omega, .inr ht⟩
  | keep hk ht hw =>
    rw [← ht] at h
    obtain rfl | rfl := hk
    · exact .inl ⟨by omega, h⟩
    · exact .inl ⟨by omega, h⟩
  | rename hd hw => exact .inr ⟨rfl, hw.trans (Or.resolve_left h hd)⟩

theorem runStage_some {stages : List Stage} {k : ℕ} {disk e : Dir} {next : Option ℕ}
    (h : runStage stages k disk = some (e, next)) :
    ∃ st, stages[k]? = some st ∧ st.run disk = some e ∧
      next = if k + 1 < stages.length then some (k + 1) else none := by
  simp only [runStage, Option.bind_eq_bind, Option.bind_eq_some_iff, Option.pure_def,
    Option.some.injEq, Prod.mk.injEq] at h
  obtain ⟨st, hst, f, hf, rfl, rfl⟩ := h
  exact ⟨st, hst, hf, rfl⟩

theorem run_clear {k : ℕ} {st : Stage} {disk e : Dir} (hst : clearWorkspace[k]? = some st)
    (hr : st.run disk = some e) : (∀ path, e path = disk path ∨ e path = .missing) ∧
      (k = 0 → e workspaceFile = .missing) ∧ (k ≠ 0 → e workspaceFile = disk workspaceFile) := by
  have hbak := (bak_ne workspaceFile).symm
  have htmp := (tmp_ne workspaceFile).symm
  match k with
  | 0 =>
    obtain rfl := Option.some.inj hst
    obtain rfl := Option.some.inj ((Stage.run_remove _ disk).symm.trans hr)
    exact ⟨update_missing disk _, fun _ => Function.update_self .., fun h => absurd rfl h⟩
  | 1 =>
    obtain rfl := Option.some.inj hst
    obtain rfl := Option.some.inj ((Stage.run_remove _ disk).symm.trans hr)
    exact ⟨update_missing disk _, by simp, fun _ => Function.update_of_ne hbak ..⟩
  | 2 =>
    obtain rfl := Option.some.inj hst
    obtain rfl := Option.some.inj ((Stage.run_remove _ disk).symm.trans hr)
    exact ⟨update_missing disk _, by simp, fun _ => Function.update_of_ne htmp ..⟩
  | k + 3 => cases hst

theorem goOn_subset (clearing : List ℕ) (i k : ℕ) (c : Prop) [Decidable c] :
    goOn clearing i (if c then some k else none) ⊆ k :: clearing := by
  intro x hx
  split_ifs at hx
  · obtain hx | rfl := List.mem_or_eq_of_mem_set hx
    · exact List.mem_cons_of_mem _ hx
    · exact List.mem_cons_self
  · exact List.mem_cons_of_mem _ (List.mem_of_mem_eraseIdx hx)

theorem mem_goOn {clearing : List ℕ} {i k x : ℕ} (next : Option ℕ) (hi : clearing[i]? = some k)
    (hx : x ∈ clearing) (hne : k ≠ x) : x ∈ goOn clearing i next := by
  obtain ⟨j, hj⟩ := List.mem_iff_getElem?.mp hx
  have hij : i ≠ j := by
    rintro rfl
    exact hne (Option.some.inj (hi.symm.trans hj))
  cases next with
  | some n => exact List.mem_of_getElem? ((List.getElem?_set_ne hij).trans hj)
  | none => exact List.mem_eraseIdx_iff_getElem?.mpr ⟨j, hij.symm, hj⟩

/-- How memory and file stand to each other at every moment. -/
structure Inv (json : Json WorkspaceDoc) (w : World) : Prop where
  readable : ∀ d, w.state.doc = some d → Saves.Readable d
  started : ∀ k, w.saving = some k → ∃ d, w.state.doc = some d ∧
    Drafted (json.render d) k (w.disk (tmp workspaceFile))
  cleared : ∀ d, w.state.doc = some d → 0 ∉ w.clearing
  missing : w.state.doc = none → w.disk workspaceFile = .missing ∨ 0 ∈ w.clearing
  saved : w.saving = none → ∀ d, w.state.doc = some d →
    w.disk workspaceFile = .file (json.render d) ∨
      w.clearing = [] ∧ loadWorkspace json w.disk = .ok (some d)

theorem inv_start {s : State} {disk : Dir} (hload : loadWorkspace json disk = .ok s.doc)
    (hread : ∀ d, s.doc = some d → Saves.Readable d) : Inv json (start s disk) := by
  refine ⟨hread, fun k hk => (by cases hk), fun d hd => List.not_mem_nil, fun hnone => .inl ?_,
    fun _ d hd => .inr ⟨rfl, hload.trans (congrArg _ hd)⟩⟩
  exact missing_of_loadWorkspace (hload.trans (congrArg _ hnone))

theorem inv_changed {w : World} {s : State} {d : WorkspaceDoc} (hs : s.doc = some d)
    (hread : Saves.Readable d) (hclear : 0 ∉ w.clearing) : Inv json (persistIf w s true) := by
  have hsaving : (persistIf w s true).saving = some 0 := by simp [persistIf, hs]
  refine ⟨fun e he => ?_, fun k hk => ?_, fun _ _ => hclear, fun hnone => ?_, fun hnone => ?_⟩
  · obtain rfl := Option.some.inj (hs.symm.trans he)
    exact hread
  · obtain rfl := Option.some.inj (hsaving.symm.trans hk)
    exact ⟨d, hs, trivial⟩
  · exact absurd (hs.symm.trans hnone) (by simp)
  · rw [hsaving] at hnone
    cases hnone

theorem Inv.unchanged {w : World} (h : Inv json w) (hfree : w.saving = none) {s : State}
    (hs : s.doc = w.state.doc) : Inv json (persistIf w s false) :=
  ⟨fun d hd => h.readable d (hs ▸ hd), fun k hk => (by simp [persistIf] at hk),
    fun d hd => h.cleared d (hs ▸ hd), fun hnone => h.missing (hs ▸ hnone),
    fun _ d hd => h.saved hfree d (hs ▸ hd)⟩

theorem Inv.edit {w : World} (h : Inv json w) {now : ℕ} {op : Op} {s : State}
    {u : WorkspaceUpdate} (hok : KeepsUp w (.edit now op))
    (hm : w.state.mutate me now op = .ok (s, u)) : Inv json (persistIf w s true) := by
  obtain ⟨d, hd, hs, -⟩ := State.mutate_some hm
  have hdoc : s.doc = some (d.edit me now op).1 := by rw [hs]
  exact inv_changed hdoc (Saves.readable_edit hm hdoc h.readable hok) (h.cleared d hd)

theorem Inv.apply {w : World} (h : Inv json w) (hfree : w.saving = none) {u : WorkspaceUpdate}
    {s : State} {c : Bool} (hok : KeepsUp w (.apply u)) (hm : w.state.apply u = .ok (s, c)) :
    Inv json (persistIf w s c) := by
  cases hd : w.state.doc with
  | none =>
    obtain ⟨rfl, rfl⟩ := State.apply_none hd hm
    exact h.unchanged hfree rfl
  | some d =>
    obtain ⟨e, he, hs⟩ := State.apply_some hd hm
    obtain ⟨hbrings, -⟩ := hok d hd (WorkspaceDoc.apply_spec he).1
    cases c with
    | false =>
      obtain rfl := WorkspaceDoc.eq_of_apply_unchanged he hbrings
      exact h.unchanged hfree (by rw [hs, hd])
    | true =>
      have hdoc : s.doc = some e := by rw [hs]
      refine inv_changed hdoc (Saves.readable_apply hm hdoc h.readable ?_) (h.cleared d hd)
      exact fun d hd hw => (hok d hd hw).2

theorem Inv.merge {w : World} (h : Inv json w) (hfree : w.saving = none) {incoming : WorkspaceDoc}
    {s : State} {c : Bool} (hok : KeepsUp w (.merge incoming))
    (hm : w.state.merge incoming = .ok (s, c)) : Inv json (persistIf w s c) := by
  unfold KeepsUp at hok
  cases hd : w.state.doc with
  | none =>
    simp only [hd] at hok
    obtain ⟨hdoc, rfl⟩ := State.merge_none hd hm
    exact inv_changed hdoc hok.2 hok.1
  | some d =>
    simp only [hd] at hok
    obtain ⟨e, he, hdoc⟩ := State.merge_some hd hm
    obtain ⟨hbrings, hfinite⟩ := hok (WorkspaceDoc.merge_eq he).1
    cases c with
    | false =>
      obtain rfl := WorkspaceDoc.eq_of_merge_unchanged he hbrings
      exact h.unchanged hfree (hdoc.trans hd.symm)
    | true =>
      exact inv_changed hdoc (Saves.readable_merge hm hdoc hd (h.readable d hd) fun _ => hfinite)
        (h.cleared d hd)

theorem Inv.save {w : World} (h : Inv json w) {k : ℕ} {doc : WorkspaceDoc} {e : Dir}
    {next : Option ℕ} (hk : w.saving = some k) (hd : w.state.doc = some doc)
    (hr : runStage (saveWorkspace json doc) k w.disk = some (e, next)) :
    Inv json { w with disk := e, saving := next } := by
  obtain ⟨st, hst, hrun, rfl⟩ := runStage_some hr
  obtain ⟨d, hd', hdraft⟩ := h.started k hk
  obtain rfl := Option.some.inj (hd.symm.trans hd')
  have hsome : ∀ {P : Prop}, w.state.doc = none → P := fun hnone => by
    rw [hd] at hnone
    cases hnone
  obtain ⟨hlt, hnext⟩ | ⟨rfl, hfile⟩ := hdraft.stage (staged hst hrun)
  · have hlen : k + 1 < (saveWorkspace json doc).length := by
      change k + 1 < 5
      omega
    refine ⟨h.readable, fun j hj => ⟨doc, hd, ?_⟩, h.cleared, hsome, fun hnone => ?_⟩
    · simp only [hlen, if_true, Option.some.injEq] at hj
      exact hj ▸ hnext
    · simp only [hlen, if_true] at hnone
      cases hnone
  · refine ⟨h.readable, fun j hj => ?_, h.cleared, hsome, fun _ x hx => .inl ?_⟩
    · cases hj
    · obtain rfl := Option.some.inj (hd.symm.trans hx)
      exact hfile

theorem Inv.clear {w : World} (h : Inv json w) {i k : ℕ} {e : Dir} {next : Option ℕ}
    (hi : w.clearing[i]? = some k) (hr : runStage clearWorkspace k w.disk = some (e, next)) :
    Inv json { w with disk := e, clearing := goOn w.clearing i next } := by
  obtain ⟨st, hst, hrun, rfl⟩ := runStage_some hr
  obtain ⟨hpaths, hgone, hkeep⟩ := run_clear hst hrun
  have hmem : k ∈ w.clearing := List.mem_of_getElem? hi
  have hne : ∀ d, w.state.doc = some d → k ≠ 0 := by
    rintro d hd rfl
    exact h.cleared d hd hmem
  refine ⟨h.readable, fun j hj => ?_, fun d hd h0 => ?_, fun hnone => ?_, fun hfree d hd => .inl ?_⟩
  · obtain ⟨d, hd, hdraft⟩ := h.started j hj
    refine ⟨d, hd, ?_⟩
    change Drafted _ j (e (tmp workspaceFile))
    obtain hsame | hmiss := hpaths (tmp workspaceFile)
    · rwa [hsame]
    · rw [hmiss]
      exact .removed _ _
  · obtain h0 | h0 := List.mem_cons.mp (goOn_subset _ _ _ _ h0)
    · cases h0
    · exact h.cleared d hd h0
  · by_cases hk : k = 0
    · exact .inl (hgone hk)
    · exact (h.missing hnone).imp (fun hm => (hkeep hk).trans hm) (mem_goOn _ hi · hk)
  · obtain hfile | ⟨hnil, -⟩ := h.saved hfree d hd
    · exact (hkeep (hne d hd)).trans hfile
    · rw [hnil] at hmem
      cases hmem

theorem Inv.step {w v : World} {a : Action} (h : Inv json w) (hok : KeepsUp w a)
    (hs : Adoption.step json me w a = some v) : Inv json v := by
  have hlock : ∀ {x : Option World}, (if w.saving.isSome then none else x) = some v →
      w.saving = none ∧ x = some v := by
    intro x hx
    obtain ⟨hfree, hx⟩ := Option.ite_none_left_eq_some.mp hx
    exact ⟨Option.not_isSome_iff_eq_none.mp hfree, hx⟩
  cases a with
  | edit now op =>
    obtain ⟨-, hs⟩ := hlock hs
    split at hs
    next s u hu =>
      obtain rfl := Option.some.inj hs
      exact h.edit hok hu
    next =>
      obtain rfl := Option.some.inj hs
      exact h
  | apply u =>
    obtain ⟨hfree, hs⟩ := hlock hs
    split at hs
    next s c hu =>
      obtain rfl := Option.some.inj hs
      exact h.apply hfree hok hu
    next =>
      obtain rfl := Option.some.inj hs
      exact h
  | merge incoming =>
    obtain ⟨hfree, hs⟩ := hlock hs
    split at hs
    next s c hu =>
      obtain rfl := Option.some.inj hs
      exact h.merge hfree hok hu
    next =>
      obtain rfl := Option.some.inj hs
      exact h
  | adoptConfigurationOf id theirKey =>
    obtain ⟨hfree, hs⟩ := hlock hs
    obtain rfl := Option.some.inj hs
    refine ⟨fun d hd => (by cases hd), fun k hk => ?_, fun d hd => (by cases hd),
      fun _ => .inr (by simp), fun _ d hd => (by cases hd)⟩
    exact absurd (hfree.symm.trans hk) (by simp)
  | save =>
    simp only [Adoption.step, Option.bind_eq_bind, Option.bind_eq_some_iff, Option.pure_def,
      Option.some.injEq] at hs
    obtain ⟨k, hk, doc, hd, ⟨e, next⟩, hr, rfl⟩ := hs
    exact h.save hk hd hr
  | clear i =>
    simp only [Adoption.step, Option.bind_eq_bind, Option.bind_eq_some_iff, Option.pure_def,
      Option.some.injEq] at hs
    obtain ⟨k, hi, ⟨e, next⟩, hr, rfl⟩ := hs
    exact h.clear hi hr

/-- As long as no document is taken whole while an adoption has still to remove the file, and what
peers send brings a value with its clock and can be read back, the file is never behind. -/
theorem fileCurrent_of_keepsUp {s : State} {disk : Dir} {as : List Action} {w : World}
    (hload : loadWorkspace json disk = .ok s.doc)
    (hread : ∀ d, s.doc = some d → Saves.Readable d)
    (h : Run (step json me) KeepsUp (start s disk) as w)
    (hjson : ∀ d, w.state.doc = some d → d.Finite → json.parse (json.render d) = some d) :
    FileCurrent json w := by
  have hw : Inv json w := h.invariant (fun _ _ _ hw hok hs => hw.step hok hs)
    (inv_start hload hread)
  intro hfree hclear
  cases hd : w.state.doc with
  | none =>
    obtain hm | hm := hw.missing hd
    · exact loadWorkspace_of_missing hm
    · rw [hclear] at hm
      cases hm
  | some d =>
    obtain ⟨hschema, hfinite⟩ := hw.readable d hd
    obtain hfile | ⟨-, hl⟩ := hw.saved hfree d hd
    · exact loadWorkspace_of_reads ⟨_, hfile, hjson d hd hfinite⟩ hschema
    · exact hl

instance (d : WorkspaceDoc) : (i : Incoming) → Decidable (d.BringsValue i)
  | .update u => inferInstanceAs (Decidable (u.stamp.lamport ≤ d.lamport ∨
      Beats (d.held u.op.register) (some u.write)))
  | .document other => inferInstanceAs (Decidable ((∀ n ∈ other.observed, n ≤ d.lamport) ∨
      ∃ r ∈ other.registers, Beats (d.held r) (other.held r)))

instance (w : World) (a : Action) : Decidable (KeepsUp w a) :=
  match a with
  | .edit _ op => inferInstanceAs (Decidable (∀ r ∈ op.record, r.Finite))
  | .apply u => inferInstanceAs (Decidable (∀ d ∈ w.state.doc, u.workspaceId = d.workspaceId →
      d.BringsValue (.update u) ∧
      ∀ r ∈ u.op.record, Saves.EntersFinite d.machines[r.id]? ⟨u.stamp, .present r⟩))
  | .merge incoming =>
    match h : w.state.doc with
    | none => decidable_of_iff (0 ∉ w.clearing ∧ Saves.Readable incoming) (by simp [KeepsUp, h])
    | some d => decidable_of_iff (incoming.workspaceId = d.workspaceId →
        d.BringsValue (.document incoming) ∧
        ∀ p ∈ incoming.machines.toList, Saves.EntersFinite d.machines[p.1]? p.2)
        (by simp [KeepsUp, h])
  | .adoptConfigurationOf .. | .save | .clear _ => .isTrue trivial

/-- A save, or the removal of the files, from beginning to end. -/
def saved : List Action := List.replicate 5 .save

def cleared : List Action := List.replicate 3 (.clear 0)

/-- A rename, and then another configuration in its place. -/
theorem fileCurrent_of_keepsUp_adopted : ∃ w, Run (step sampleJson 1) KeepsUp
      (start (.ofDoc desk) (dirOf (sampleText desk) .missing))
      (.edit 0 (.setName "Home") :: saved ++ .adoptConfigurationOf 2 12 :: cleared ++
        .merge loft :: saved) w ∧
    w.state.doc = some loft ∧ w.saving = none ∧ w.clearing = [] ∧ FileCurrent sampleJson w := by
  obtain ⟨w, hrun, hw⟩ := run_of_replay (step sampleJson 1) KeepsUp
    (start (.ofDoc desk) (dirOf (sampleText desk) .missing))
    (.edit 0 (.setName "Home") :: saved ++ .adoptConfigurationOf 2 12 :: cleared ++
      .merge loft :: saved)
    (fun w => (w.state.doc, w.saving, w.clearing)) (b := (some loft, none, []))
    (by decide +kernel)
  simp only [Prod.mk.injEq] at hw
  refine ⟨w, hrun, hw.1, hw.2.1, hw.2.2, fileCurrent_of_keepsUp ?_ (fun d hd => ?_) hrun
    fun d hd _ => ?_⟩
  · exact loadWorkspace_of_reads ⟨_, rfl, sampleJson_render (by simp)⟩ (by decide)
  · obtain rfl := Option.some.inj hd
    decide +kernel
  · obtain rfl := Option.some.inj (hw.1.symm.trans hd)
    exact sampleJson_render (by simp)

/-- A document that another peer sends between the reset and the removal of the files is taken
over and saved, and then its file is removed. -/
theorem adopted_file_vanishes : ∃ w, Run (step sampleJson 1) Any
      (start (.ofDoc desk) (dirOf (sampleText desk) .missing))
      (.adoptConfigurationOf 2 12 :: .merge loft :: saved ++ cleared) w ∧
    w.state.doc = some loft ∧ loadWorkspace sampleJson w.disk = .ok none ∧
      ¬ FileCurrent sampleJson w := by
  obtain ⟨w, hrun, hw⟩ := run_of_replay (step sampleJson 1) Any
    (start (.ofDoc desk) (dirOf (sampleText desk) .missing))
    (.adoptConfigurationOf 2 12 :: .merge loft :: saved ++ cleared)
    (fun w => (w.state.doc, w.saving, w.clearing, w.disk workspaceFile))
    (b := (some loft, none, [], .missing)) (by decide +kernel)
  simp only [Prod.mk.injEq] at hw
  obtain ⟨hdoc, hfree, hclear, hmiss⟩ := hw
  have hload : loadWorkspace sampleJson w.disk = .ok none :=
    loadWorkspace_of_missing hmiss
  refine ⟨w, hrun, hdoc, hload, fun h => ?_⟩
  have hdisk := h hfree hclear
  rw [hload, hdoc] at hdisk
  cases hdisk

/-- A document whose clock is ahead of everything in it moves the clock in memory only. -/
theorem clock_ahead_unsaved : ∃ w, Run (step sampleJson 1) Any
      (start (.ofDoc desk) (dirOf (sampleText desk) .missing))
      [.merge { desk with lamport := 9 }] w ∧ ¬ FileCurrent sampleJson w := by
  obtain ⟨w, hrun, hw⟩ := run_of_replay (step sampleJson 1) Any
    (start (.ofDoc desk) (dirOf (sampleText desk) .missing)) [.merge { desk with lamport := 9 }]
    (fun w => (w.state.doc.map WorkspaceDoc.lamport, w.saving, w.clearing,
      w.disk workspaceFile))
    (b := (some 9, none, [], .file (sampleText desk))) (by decide +kernel)
  simp only [Prod.mk.injEq, Option.map_eq_some_iff] at hw
  obtain ⟨⟨d, hdoc, hnine⟩, hfree, hclear, hfile⟩ := hw
  refine ⟨w, hrun, fun h => ?_⟩
  have hdesk : loadWorkspace sampleJson w.disk = .ok (some desk) :=
    loadWorkspace_of_reads ⟨_, hfile, sampleJson_render (by simp)⟩ (by decide)
  have hdisk := h hfree hclear
  rw [hdesk, hdoc, Except.ok.injEq, Option.some.injEq] at hdisk
  subst hdisk
  exact absurd hnine (by decide)

end Adoption
end InputShare

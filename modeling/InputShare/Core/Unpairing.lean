import InputShare.Core.Replicas

/-! Unpairing while other replicas edit: what of a removal is left once the writes of replicas that
had not received it arrive. The runs are those of the replicas, with a record of what every edit was
made in knowledge of. -/
namespace InputShare.Unpairing
open LastWriter Runs

structure World where
  replicas : Replicas.World
  /-- The edits that have gone into the document of a replica, by themselves or with a document. -/
  seen : MachineId → List DocWrite
  /-- The edits, each with what had been seen where it was made. -/
  log : List (WorkspaceUpdate × List DocWrite)
  /-- What has gone into each document that a replica has held. -/
  sources : List (List DocWrite)

abbrev Action := Replicas.Action

def start (d : WorkspaceDoc) : World := ⟨Replicas.start d, fun _ => [], [], [[]]⟩

def World.doc (w : World) (m : MachineId) : WorkspaceDoc := w.replicas.doc m

def World.see (w : World) (m : MachineId) (r : Replicas.World) (S : List DocWrite) : World :=
  { w with
    replicas := r
    seen := Function.update w.seen m (w.seen m ++ S)
    sources := w.sources ++ [w.seen m ++ S] }

def step (w : World) (a : Action) : Option World := do
  let r ← Replicas.step w.replicas a
  match a with
  | .edit m now op =>
    let u := ((w.doc m).edit m now op).2
    some { w.see m r [u.write] with log := w.log ++ [(u, w.seen m)] }
  | .deliver m i => w.replicas.updates[i]?.map fun u => w.see m r [u.write]
  | .merge m i => w.sources[i]?.map fun S => w.see m r S

def upserts (id : MachineId) : Op → Bool
  | .upsertMachine record => record.id = id
  | _ => false

/-- Once a replica has seen the removal of a machine, the machine has a record there only if that
was put in where the removal had been seen. -/
def Sticks (id : MachineId) (w : World) : Prop :=
  ∀ s k, (s, k) ∈ w.log → s.op = .removeMachine id →
    ∀ m record, s.write ∈ w.seen m → (w.doc m).machine id = some record →
      ∃ u l, (u, l) ∈ w.log ∧ u.op = .upsertMachine record ∧ s.write ∈ l

/-- Of a record of the machine that is put in and a removal of it, one made where the other had not
been seen, the removal has the greater stamp. -/
def Outlives (id : MachineId) (w : World) : Action → Prop
  | .edit m now op => ∀ p ∈ w.log, p.1.write ∈ w.seen m ∨
      (upserts id op = true → p.1.op = .removeMachine id →
        ((w.doc m).tick m now).2.key < p.1.stamp.key) ∧
      (op = .removeMachine id → upserts id p.1.op = true →
        p.1.stamp.key < ((w.doc m).tick m now).2.key)
  | _ => True

def among (base : WorkspaceDoc) (S : List DocWrite) : Set DocWrite :=
  base.replica.writes ∪ {x | x ∈ S}

theorem among_append (base : WorkspaceDoc) (S T : List DocWrite) :
    among base (S ++ T) = among base S ∪ {x | x ∈ T} := by
  ext x
  simp [among, or_assoc]

def Logged (log : List (WorkspaceUpdate × List DocWrite)) (S : List DocWrite) : Prop :=
  ∀ x ∈ S, ∃ p ∈ log, p.1.write = x

theorem Logged.append {log : List (WorkspaceUpdate × List DocWrite)} {S T : List DocWrite}
    (hS : Logged log S) (hT : Logged log T) : Logged log (S ++ T) :=
  fun x hx => (List.mem_append.mp hx).elim (hS x) (hT x)

theorem Logged.mono {log more : List (WorkspaceUpdate × List DocWrite)} {S : List DocWrite}
    (h : Logged log S) (hsub : log ⊆ more) : Logged more S := by
  intro x hx
  obtain ⟨p, hp, rfl⟩ := h x hx
  exact ⟨p, hsub hp, rfl⟩

/-- What has been seen accounts for the documents. -/
structure Accounted (base : WorkspaceDoc) (w : World) : Prop where
  knows : ∀ m, (w.doc m).replica.Knows (among base (w.seen m))
  logged : ∀ m, Logged w.log (w.seen m)
  aligned : w.sources.length = w.replicas.documents.length
  sources : ∀ (i : ℕ) (d : WorkspaceDoc) (S : List DocWrite),
    w.replicas.documents[i]? = some d → w.sources[i]? = some S →
    d.replica.Knows (among base S) ∧ Logged w.log S

theorem Accounted.see {base : WorkspaceDoc} {w : World} (h : Accounted base w) {m : MachineId}
    {d : WorkspaceDoc} {W : Set DocWrite} {S : List DocWrite} {us : List WorkspaceUpdate} {n : ℕ}
    {log : List (WorkspaceUpdate × List DocWrite)}
    (hk : d.replica.Knows (among base (w.seen m ++ S))) (hsub : w.log ⊆ log) (hS : Logged log S) :
    Accounted base { w.see m { w.replicas.hold m d W with updates := us, edits := n } S with
      log := log } := by
  have hall : Logged log (w.seen m ++ S) := ((h.logged m).mono hsub).append hS
  refine ⟨fun k => ?_, fun k => ?_, ?_, fun i e T he hT => ?_⟩
  · by_cases hkm : k = m
    · subst hkm
      simpa [World.doc, World.see, Replicas.World.hold] using hk
    · simpa [World.doc, World.see, Replicas.World.hold, hkm] using h.knows k
  · by_cases hkm : k = m
    · subst hkm
      simpa [World.see] using hall
    · simpa [World.see, hkm] using (h.logged k).mono hsub
  · simp [World.see, Replicas.World.hold, h.aligned]
  · simp only [World.see, Replicas.World.hold] at he hT
    obtain hlt | hge := Nat.lt_or_ge i w.replicas.documents.length
    · rw [List.getElem?_append_left hlt] at he
      rw [List.getElem?_append_left (by rw [h.aligned]; exact hlt)] at hT
      obtain ⟨hd, hl⟩ := h.sources i e T he hT
      exact ⟨hd, hl.mono hsub⟩
    · rw [List.getElem?_append_right hge, List.getElem?_singleton] at he
      rw [List.getElem?_append_right (by rw [h.aligned]; exact hge), List.getElem?_singleton,
        h.aligned] at hT
      split at he
      · rename_i hz
        rw [if_pos hz] at hT
        obtain rfl := Option.some.inj he
        obtain rfl := Option.some.inj hT
        exact ⟨hk, hall⟩
      · cases he

structure Past (id : MachineId) (base : WorkspaceDoc) (w : World) : Prop where
  founded : ∀ x ∈ base.replica.writes, x.time = 1
  inv : Replicas.Inv base w.replicas
  accounted : Accounted base w
  updates : w.replicas.updates = w.log.map Prod.fst
  /-- Every edit is later than the founding. -/
  late : ∀ p ∈ w.log, 1 < p.1.stamp.lamport
  outlives : ∀ p ∈ w.log, ∀ q ∈ w.log, p.1.op = .removeMachine id → upserts id q.1.op = true →
    p.1.write ∈ q.2 ∨ q.1.stamp.key < p.1.stamp.key

theorem Past.next_key {id : MachineId} {base : WorkspaceDoc} {w : World} (h : Past id base w)
    (hlt : w.replicas.edits + 1 < u64Size - 1) (m : MachineId) (now : ℕ) :
    ((w.doc m).tick m now).2.lamport = (w.doc m).lamport + 1 ∧
      ∀ x ∈ w.seen m, x.key < ((w.doc m).tick m now).2.key := by
  have hclock : (w.doc m).lamport ≤ w.replicas.edits + 1 := h.inv.clock m
  have htick : ((w.doc m).tick m now).2.lamport = (w.doc m).lamport + 1 :=
    Nat.mod_eq_of_lt (by unfold u64Size at *; omega)
  refine ⟨htick, fun x hx => Prod.Lex.toLex_lt_toLex.mpr (.inl ?_)⟩
  rw [htick]
  exact Nat.lt_succ_of_le ((h.accounted.knows m).time_le (.inr hx))

theorem Past.edit {id : MachineId} {base : WorkspaceDoc} {w v : World} (h : Past id base w)
    {m : MachineId} {now : ℕ} {op : Op} (hok : Outlives id w (.edit m now op))
    (hs : step w (.edit m now op) = some v) (hlt : w.replicas.edits + 1 < u64Size - 1) :
    Past id base v := by
  obtain ⟨hnext, hpast⟩ := h.next_key hlt m now
  have hr : Replicas.step w.replicas (.edit m now op) = some _ := rfl
  have hinv := h.inv.edit hlt hr
  simp only [step, Replicas.step, Option.bind_eq_bind, Option.bind_some, Option.some.injEq] at hs
  have hu : ((w.doc m).edit m now op).2 =
      ⟨(w.doc m).workspaceId, (w.doc m).lamport, ((w.doc m).tick m now).2, op⟩ :=
    WorkspaceDoc.edit_update ..
  set u := ((w.doc m).edit m now op).2 with hudef
  have hstamp : u.stamp = ((w.doc m).tick m now).2 := by rw [hu]
  have hop : u.op = op := by rw [hu]
  have htime : u.write.time = (w.doc m).lamport + 1 := by
    rw [← hnext, ← hstamp]
    rfl
  have hk : ((w.doc m).edit m now op).1.replica.Knows (among base (w.seen m ++ [u.write])) := by
    rw [WorkspaceDoc.edit_replica, ← hudef, among_append]
    have := (h.accounted.knows m).edit (w := u.write) (by
      rw [htime, WorkspaceDoc.replica_clock]
      exact Nat.lt_succ_self _)
    simpa using this
  subst hs
  refine ⟨h.founded, hinv, ?_, ?_, fun p hp => ?_, fun p hp q hq hpop hqop => ?_⟩
  · refine h.accounted.see hk (List.subset_append_left _ _) fun x hx =>
      ⟨_, List.mem_append_right _ List.mem_cons_self, ?_⟩
    exact (List.mem_singleton.mp hx).symm
  · exact (congrArg (· ++ [u]) h.updates).trans (by simp)
  · obtain hp | hp := List.mem_append.mp hp
    · exact h.late p hp
    · obtain rfl := List.mem_singleton.mp hp
      -- the clock is never behind the founding document
      have hname : writeOf base.name.stamp .name (.name base.name.value) ∈ base.replica.writes :=
        rfl
      have hle := (h.accounted.knows m).time_le (.inl hname)
      rw [h.founded _ hname, WorkspaceDoc.replica_clock] at hle
      rw [hstamp, hnext]
      exact Nat.lt_succ_of_le hle
  · obtain hp | hp := List.mem_append.mp hp
    · obtain hq | hq := List.mem_append.mp hq
      · exact h.outlives p hp q hq hpop hqop
      · obtain rfl := List.mem_singleton.mp hq
        simp only [hop] at hqop
        obtain hsaw | ⟨hlt, -⟩ := hok p hp
        · exact .inl hsaw
        · exact .inr (by rw [hstamp]; exact hlt hqop hpop)
    · obtain rfl := List.mem_singleton.mp hp
      simp only [hop] at hpop
      obtain hq | hq := List.mem_append.mp hq
      · obtain hsaw | ⟨-, hlt⟩ := hok q hq
        · exact .inr (by rw [hstamp]; exact hpast _ hsaw)
        · exact .inr (by rw [hstamp]; exact hlt hpop hqop)
      · obtain rfl := List.mem_singleton.mp hq
        simp only [hop, hpop, upserts, Bool.false_eq_true] at hqop

theorem Past.step {id : MachineId} {base : WorkspaceDoc} {w v : World} {a : Action}
    (h : Past id base w) (hok : Outlives id w a) (hs : Unpairing.step w a = some v)
    (hlt : v.replicas.edits < u64Size - 1) : Past id base v := by
  cases a with
  | edit m now op =>
    refine h.edit hok hs ?_
    simp only [Unpairing.step, Replicas.step, Option.bind_eq_bind, Option.bind_some,
      Option.some.injEq] at hs
    rw [← hs] at hlt
    exact hlt
  | deliver m i =>
    simp only [Unpairing.step, Option.bind_eq_bind, Option.bind_eq_some_iff,
      Option.map_eq_some_iff] at hs
    obtain ⟨r, hr, u, hu, rfl⟩ := hs
    have hinv := h.inv.deliver hr
    obtain ⟨x, d, hx, hrep, -, rfl⟩ := h.inv.deliver_eq hr
    obtain rfl := Option.some.inj (hu.symm.trans hx)
    have hk : d.replica.Knows (among base (w.seen m ++ [u.write])) := by
      have := (h.accounted.knows m).take u.write
      rw [World.doc, ← hrep] at this
      simpa [among_append] using this
    have hlogged : ∃ p ∈ w.log, p.1 = u := by
      simpa [h.updates] using List.mem_of_getElem? hu
    obtain ⟨p, hp, hpu⟩ := hlogged
    refine ⟨h.founded, hinv, h.accounted.see hk (List.Subset.refl _) fun x hx => ⟨p, hp, ?_⟩,
      h.updates, h.late, h.outlives⟩
    rw [hpu, List.mem_singleton.mp hx]
  | merge m i =>
    simp only [Unpairing.step, Option.bind_eq_bind, Option.bind_eq_some_iff,
      Option.map_eq_some_iff] at hs
    obtain ⟨r, hr, S, hS, rfl⟩ := hs
    have hinv := h.inv.merge hr
    obtain ⟨other, d, ho, hrep, -, rfl⟩ := h.inv.merge_eq hr
    obtain ⟨hother, hlogged⟩ := h.accounted.sources i other S ho hS
    have hunion : among base (w.seen m) ∪ among base S = among base (w.seen m ++ S) := by
      ext x
      simp only [among, Set.mem_union, Set.mem_ofPred_eq, List.mem_append]
      tauto
    have hk : d.replica.Knows (among base (w.seen m ++ S)) := by
      rw [hrep, ← hunion]
      exact (h.accounted.knows m).join hother
    exact ⟨h.founded, hinv, h.accounted.see hk (List.Subset.refl _) hlogged, h.updates, h.late,
      h.outlives⟩

theorem edits_mono {w v : World} {a : Action} (h : step w a = some v) :
    w.replicas.edits ≤ v.replicas.edits := by
  simp only [step, Option.bind_eq_bind, Option.bind_eq_some_iff] at h
  obtain ⟨r, hr, h⟩ := h
  have hle := Replicas.edits_mono hr
  cases a with
  | edit m now op =>
    obtain rfl := Option.some.inj h
    exact hle
  | deliver m i | merge m i =>
    obtain ⟨x, -, rfl⟩ := Option.map_eq_some_iff.mp h
    exact hle

/-- What a run that ends before the clock can wrap keeps. -/
theorem past_run {id : MachineId} {base : WorkspaceDoc} {w v : World} {as : List Action}
    (h : Run step (Outlives id) w as v) (hw : Past id base w)
    (hlt : v.replicas.edits < u64Size - 1) : Past id base v := by
  induction h with
  | nil => exact hw
  | cons hok hs hrest ih =>
    refine ih (hw.step hok hs ?_) hlt
    exact lt_of_le_of_lt (hrest.related (R := fun a b => a.replicas.edits ≤ b.replicas.edits)
      (fun _ => le_rfl) (fun _ _ _ => le_trans) fun _ _ _ _ => edits_mono) hlt

/-- A record that a replica has, although it has seen the removal, was put in with a greater
stamp. -/
theorem Past.sticks {id : MachineId} {base : WorkspaceDoc} {w : World} (h : Past id base w) :
    Sticks id w := by
  intro s k hs hop m record hseen hrec
  have hknows := h.accounted.knows m
  obtain ⟨slot, hslot, hstate⟩ : ∃ slot, (w.doc m).machines[id]? = some slot ∧
      slot.state = .present record := by
    unfold WorkspaceDoc.machine at hrec
    split at hrec
    · rename_i stamp r hm
      obtain rfl := Option.some.inj hrec
      exact ⟨_, hm, rfl⟩
    · cases hrec
  have hheld : (w.doc m).replica.held (.slot id) = some (slot.write id) := by
    simp [WorkspaceDoc.held, hslot]
  have hregister : s.write.register = .slot id := by simp [WorkspaceUpdate.write, hop, Op.register]
  -- the record was written after the removal
  have hle : s.write.key ≤ (slot.write id).key := by
    obtain ⟨a, ha, hle⟩ := (hknows.latest (.slot id)).2 s.write ⟨.inr hseen, hregister⟩
    rw [hheld] at ha
    obtain rfl := Option.some.inj ha
    exact hle
  obtain hbase | hin := hknows.mem hheld
  · have htime : 1 < s.write.time := h.late _ hs
    have := Write.time_le_of_key_le hle
    rw [h.founded _ hbase] at this
    omega
  · obtain ⟨⟨u, l⟩, hu, hwrite⟩ := h.accounted.logged m _ hin
    obtain ⟨hstamp, hreg, hcontent⟩ := writeOf_inj.mp hwrite
    rw [hstate] at hcontent
    have huop : u.op = .upsertMachine record := by
      cases hop : u.op <;> simp [hop, Op.content] at hcontent
      rw [hcontent]
    have hup : upserts id u.op = true := by simpa [huop, upserts, Op.register] using hreg
    obtain hsaw | hlt := h.outlives _ hs _ hu hop hup
    · exact ⟨u, l, hu, huop, hsaw⟩
    · rw [show u.stamp = slot.stamp from hstamp] at hlt
      exact absurd hlt (not_lt.mpr hle)

theorem past_start (id : MachineId) (ws : WorkspaceId) (now : ℕ) (name : String)
    (founder : MachineRecord) :
    Past id (.create ws now name founder) (start (.create ws now name founder)) := by
  set base := WorkspaceDoc.create ws now name founder with hbase
  have hinv : Replicas.Inv base (Replicas.start base) := Replicas.inv_start ws now name founder
  have hknows : base.replica.Knows (among base []) := by
    have : among base [] = base.replica.writes := by simp [among]
    rw [this]
    exact hinv.knows 0
  have hfounded : ∀ x ∈ base.replica.writes, x.time = 1 :=
    fun x hx => (Replicas.stamp_create hx).1
  refine ⟨hfounded, hinv, ⟨fun _ => hknows, fun m => by simp [Logged, start], rfl, ?_⟩, rfl,
    by simp [start], by simp [start]⟩
  intro i d S hd hS
  obtain rfl := List.mem_singleton.mp (List.mem_of_getElem? hd)
  obtain rfl := List.mem_singleton.mp (List.mem_of_getElem? hS)
  exact ⟨hknows, by simp [Logged]⟩

/-- Where every removal has a greater stamp than the records put in without knowledge of it, and
those it was made without knowledge of, unpairing sticks. -/
theorem sticks_of_outlives {id : MachineId} {ws : WorkspaceId} {now : ℕ} {name : String}
    {founder : MachineRecord} {as : List Action} {w : World}
    (h : Run step (Outlives id) (start (.create ws now name founder)) as w)
    (hlt : w.replicas.edits < u64Size - 1) : Sticks id w :=
  (past_run h (past_start id ws now name founder) hlt).sticks

instance (id : MachineId) (w : World) (a : Action) : Decidable (Outlives id w a) :=
  match a with
  | .edit .. => inferInstanceAs (Decidable (∀ p ∈ w.log, _ ∨ (_ → _ → _) ∧ (_ → _ → _)))
  | .deliver .. | .merge .. => .isTrue trivial

/-- The studio admits the laptop, which takes over the document, and unpairs it again. -/
def unpairing : List Action :=
  [.edit 1 5 (.upsertMachine laptop), .merge 2 1, .edit 1 8 (.removeMachine 2)]

/-- The laptop learns that it was removed. -/
theorem sticks_of_outlives_told : ∃ w,
    Run step (Outlives 2) (start (.create 7 0 "Workspace" studio))
      (unpairing ++ [.edit 2 6 (.setName "Desk"), .merge 2 3]) w ∧
      (w.doc 2).machine 2 = none ∧ Sticks 2 w := by
  obtain ⟨w, hrun, hw⟩ := run_of_replay step (Outlives 2) (start (.create 7 0 "Workspace" studio))
    (unpairing ++ [.edit 2 6 (.setName "Desk"), .merge 2 3])
    (fun w => ((w.doc 2).machine 2, w.replicas.edits)) (b := (none, 3)) (by decide +kernel)
  simp only [Prod.mk.injEq] at hw
  exact ⟨w, hrun, hw.1, sticks_of_outlives hrun (by rw [hw.2]; decide)⟩

def published : MachineRecord := { laptop with platform := .linux }

/-- The laptop edits its record before it has received its removal: the same clock and a greater
id, so the studio has a record of it again. -/
theorem published_record_returns : ∃ as w,
    Run step Any (start (.create 7 0 "Workspace" studio)) as w ∧ ¬ Sticks 2 w := by
  obtain ⟨w, hrun, hw⟩ := run_of_replay step Any (start (.create 7 0 "Workspace" studio))
    (unpairing ++ [.edit 2 9 (.upsertMachine published), .deliver 1 2])
    (fun w => (decide (∃ p ∈ w.log, p.1.op = .removeMachine 2 ∧ p.1.write ∈ w.seen 1 ∧
      ∀ q ∈ w.log, q.1.op = .upsertMachine published → p.1.write ∉ q.2), (w.doc 1).machine 2))
    (b := (true, some published)) (by decide +kernel)
  simp only [Prod.mk.injEq, decide_eq_true_eq] at hw
  obtain ⟨⟨⟨s, k⟩, hs, hop, hseen, hno⟩, hrec⟩ := hw
  refine ⟨_, w, hrun, fun h => ?_⟩
  obtain ⟨u, l, hu, huop, hsaw⟩ := h s k hs hop 1 published hseen hrec
  exact hno _ hu huop hsaw

end InputShare.Unpairing

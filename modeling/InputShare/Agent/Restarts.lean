import InputShare.Agent.Core
import InputShare.Core.Replicas

/-! Agents of one workspace that crash and start again from their files: saves that fail or are
cut short, files that lose their end, and edits made before the machine has met anyone. -/
namespace InputShare.Restarts
open LastWriter Runs Files Store Replicas

structure Machine where
  /-- `none` while the machine is off. -/
  state : Option State
  disk : Dir

structure World where
  machine : MachineId → Machine
  updates : List WorkspaceUpdate
  /-- Every document a machine has held in memory. -/
  documents : List WorkspaceDoc

inductive Action where
  | edit (m : MachineId) (now : ℕ) (op : Op) (save : Stop)
  | deliver (m : MachineId) (i : ℕ) (save : Stop)
  | merge (m : MachineId) (i : ℕ) (save : Stop)
  | crash (m : MachineId)
  | damage (m : MachineId) (path : String) (n : ℕ)
  | restart (m : MachineId)

variable (json : Json WorkspaceDoc)

/-- Every machine has the founding document in memory and on disk. -/
def start (d : WorkspaceDoc) : World where
  machine _ := ⟨some (.ofDoc d), dirOf (json.render d) .missing⟩
  updates := []
  documents := [d]

/-- Saves the document; a failure is logged and the agent goes on. -/
def persist (disk : Dir) (s : State) (save : Stop) : Option Dir :=
  match s.doc with
  | some doc => interrupt (saveWorkspace json doc) disk save
  | none => some disk

def persistIf (changed : Bool) (disk : Dir) (s : State) (save : Stop) : Option Dir :=
  if changed then persist json disk s save else some disk

def World.put (w : World) (m : MachineId) (s : State) (disk : Dir) : World :=
  { w with
    machine := Function.update w.machine m ⟨some s, disk⟩
    documents := w.documents ++ s.doc.toList }

@[simp] theorem World.put_machine (w : World) (m : MachineId) (s : State) (disk : Dir) :
    (w.put m s disk).machine = Function.update w.machine m ⟨some s, disk⟩ := rfl
@[simp] theorem World.put_documents (w : World) (m : MachineId) (s : State) (disk : Dir) :
    (w.put m s disk).documents = w.documents ++ s.doc.toList := rfl
@[simp] theorem World.put_updates (w : World) (m : MachineId) (s : State) (disk : Dir) :
    (w.put m s disk).updates = w.updates := rfl

def step (w : World) : Action → Option World
  | .edit m now op save => do
    let s ← (w.machine m).state
    match s.mutate m now op with
    | .ok (t, u) =>
      let disk ← persist json (w.machine m).disk t save
      return { w.put m t disk with updates := w.updates ++ [u] }
    | .error _ => return w
  | .deliver m i save => do
    let s ← (w.machine m).state
    let u ← w.updates[i]?
    match s.apply u with
    | .ok (t, changed) =>
      let disk ← persistIf json changed (w.machine m).disk t save
      return w.put m t disk
    | .error _ => return w
  | .merge m i save => do
    let s ← (w.machine m).state
    let doc ← w.documents[i]?
    match s.merge doc with
    | .ok (t, changed) =>
      let disk ← persistIf json changed (w.machine m).disk t save
      return w.put m t disk
    | .error _ => return w
  | .crash m =>
    some { w with machine := Function.update w.machine m { w.machine m with state := none } }
  | .damage m path n =>
    match (w.machine m).disk path with
    | .file bytes =>
      let disk := Function.update (w.machine m).disk path (.file (bytes.take n))
      some { w with machine := Function.update w.machine m { w.machine m with disk := disk } }
    | _ => none
  | .restart m =>
    match (w.machine m).state with
    | some _ => none
    | none =>
      match loadWorkspace json (w.machine m).disk with
      | .ok (some doc) => some (w.put m (.ofDoc doc) (w.machine m).disk)
      -- it founds another workspace, and holds no document of this one until it joins again
      | .ok none => some (w.put m ⟨none, ∅, ∅, ∅⟩ (w.machine m).disk)
      | .error _ => some w

def World.doc (w : World) (m : MachineId) : Option WorkspaceDoc :=
  (w.machine m).state.bind State.doc

/-- The clock a machine edits with is past every stamp it has ever given, and can still advance. -/
def ClockKept (w : World) : Action → Prop
  | .edit m _ _ _ => ∀ doc ∈ w.doc m, doc.lamport < u64Size - 1 ∧
      ∀ u ∈ w.updates, u.stamp.origin = m → u.stamp.lamport ≤ doc.lamport
  | _ => True

instance (w : World) : (a : Action) → Decidable (ClockKept w a)
  | .edit m _ _ _ => inferInstanceAs (Decidable (∀ doc ∈ w.doc m, doc.lamport < u64Size - 1 ∧
      ∀ u ∈ w.updates, u.stamp.origin = m → u.stamp.lamport ≤ doc.lamport))
  | .deliver _ _ _ => .isTrue trivial
  | .merge _ _ _ => .isTrue trivial
  | .crash _ => .isTrue trivial
  | .damage _ _ _ => .isTrue trivial
  | .restart _ => .isTrue trivial

theorem World.doc_of_state {w : World} {m : MachineId} {s : State} {doc : WorkspaceDoc}
    (hs : (w.machine m).state = some s) (hd : s.doc = some doc) : doc ∈ w.doc m := by
  simp [World.doc, hs, hd]

/-- A document some machine of the workspace may hold. -/
structure Sound (base : WorkspaceDoc) (us : List WorkspaceUpdate) (d : WorkspaceDoc) : Prop where
  workspace : d.workspaceId = base.workspaceId
  knows : d.replica.Knows d.replica.writes
  made : d.replica.writes ⊆ made base us
  clock : 1 ≤ d.lamport

def Stored (documents : List WorkspaceDoc) (node : Node) : Prop :=
  ∀ b, node = .file b → ∃ d ∈ documents, b <+: json.render d

structure Inv (base : WorkspaceDoc) (w : World) : Prop where
  distinct : Distinct (made base w.updates)
  updates : ∀ u ∈ w.updates, u.workspaceId = base.workspaceId
  documents : ∀ d ∈ w.documents, Sound base w.updates d
  held : ∀ m, ∀ doc ∈ w.doc m, doc ∈ w.documents
  primary : ∀ m, Stored json w.documents ((w.machine m).disk workspaceFile)
  backup : ∀ m, Stored json w.documents ((w.machine m).disk (bak workspaceFile))

variable {json}

theorem Stored.mono {ds es : List WorkspaceDoc} {node : Node} (h : Stored json ds node)
    (hs : ds ⊆ es) : Stored json es node := by
  intro b hb
  obtain ⟨d, hd, hp⟩ := h b hb
  exact ⟨d, hs hd, hp⟩

theorem Stored.take {ds : List WorkspaceDoc} {b : Bytes} (h : Stored json ds (.file b)) (n : ℕ) :
    Stored json ds (.file (b.take n)) := by
  rintro _ ⟨⟩
  obtain ⟨d, hd, hp⟩ := h b rfl
  exact ⟨d, hd, (List.take_prefix n b).trans hp⟩

theorem Stored.copyOf {ds : List WorkspaceDoc} {src dst : Node} (h : Stored json ds src)
    (hc : CopyOf src dst) {d : WorkspaceDoc} (hd : d ∈ ds) : Stored json ds dst := by
  cases hc with
  | part a n => exact h.take n
  | unreadable =>
    rintro _ ⟨⟩
    exact ⟨d, hd, List.nil_prefix⟩

theorem Stored.render {ds : List WorkspaceDoc} {d : WorkspaceDoc} (hd : d ∈ ds) :
    Stored json ds (.file (json.render d)) := by
  rintro _ ⟨⟩
  exact ⟨d, hd, List.prefix_rfl⟩

theorem stored_persist {ds : List WorkspaceDoc} {disk e : Dir} {s : State} {save : Stop}
    (h : persist json disk s save = some e) (hs : ∀ doc, s.doc = some doc → doc ∈ ds)
    (hp : Stored json ds (disk workspaceFile)) (hb : Stored json ds (disk (bak workspaceFile))) :
    Stored json ds (e workspaceFile) ∧ Stored json ds (e (bak workspaceFile)) := by
  unfold persist at h
  cases hd : s.doc with
  | none =>
    simp only [hd, Option.some.injEq] at h
    subst h
    exact ⟨hp, hb⟩
  | some doc =>
    simp only [hd] at h
    have hmem := hs doc hd
    obtain ⟨h₁, h₂⟩ := interrupt_writeAtomic h
    refine ⟨?_, ?_⟩
    · obtain h₁ | h₁ := h₁ <;> rw [h₁]
      · exact hp
      · exact Stored.render hmem
    · obtain h₂ | h₂ := h₂
      · rw [h₂]
        exact hb
      · exact hp.copyOf h₂ hmem

theorem Sound.mono {base d : WorkspaceDoc} {us vs : List WorkspaceUpdate} (h : Sound base us d)
    (hs : Replicas.made base us ⊆ Replicas.made base vs) : Sound base vs d :=
  ⟨h.workspace, h.knows, h.made.trans hs, h.clock⟩

theorem Inv.put {base : WorkspaceDoc} {w : World} (h : Inv json base w) {m : MachineId}
    {s : State} {disk : Dir} {us : List WorkspaceUpdate} (hdist : Distinct (made base us))
    (hmono : made base w.updates ⊆ made base us) (hus : ∀ u ∈ us, u.workspaceId = base.workspaceId)
    (hs : ∀ doc, s.doc = some doc → Sound base us doc)
    (hdisk : disk = (w.machine m).disk ∨
      ∃ save, persist json (w.machine m).disk s save = some disk) :
    Inv json base { w.put m s disk with updates := us } := by
  have hsub : w.documents ⊆ w.documents ++ s.doc.toList := List.subset_append_left _ _
  have hmem (doc : WorkspaceDoc) (hd : s.doc = some doc) : doc ∈ w.documents ++ s.doc.toList :=
    List.mem_append_right _ (by simp [hd])
  have hfiles : Stored json (w.documents ++ s.doc.toList) (disk workspaceFile) ∧
      Stored json (w.documents ++ s.doc.toList) (disk (bak workspaceFile)) := by
    have hp := (h.primary m).mono hsub
    have hb := (h.backup m).mono hsub
    obtain rfl | ⟨save, hsave⟩ := hdisk
    · exact ⟨hp, hb⟩
    · exact stored_persist hsave hmem hp hb
  refine ⟨hdist, hus, fun d hd => ?_, fun k doc hdoc => ?_, fun k => ?_, fun k => ?_⟩
  · obtain hd | hd := List.mem_append.mp hd
    · exact (h.documents d hd).mono hmono
    · exact hs d (by simpa using hd)
  · by_cases hk : k = m
    · subst hk
      exact hmem doc (by simpa [World.doc] using hdoc)
    · exact hsub (h.held k doc (by simpa [World.doc, hk] using hdoc))
  · by_cases hk : k = m
    · subst hk; simpa using hfiles.1
    · simpa [hk] using (h.primary k).mono hsub
  · by_cases hk : k = m
    · subst hk; simpa using hfiles.2
    · simpa [hk] using (h.backup k).mono hsub

theorem Inv.machine {base : WorkspaceDoc} {w : World} (h : Inv json base w) {m : MachineId}
    {k : Machine} (hk : ∀ s, k.state = some s → (w.machine m).state = some s)
    (hp : Stored json w.documents (k.disk workspaceFile))
    (hb : Stored json w.documents (k.disk (bak workspaceFile))) :
    Inv json base { w with machine := Function.update w.machine m k } := by
  refine ⟨h.distinct, h.updates, h.documents, fun n doc hd => ?_, fun n => ?_, fun n => ?_⟩
  · by_cases hn : n = m
    · subst hn
      obtain ⟨s, hs, hd⟩ := Option.bind_eq_some_iff.mp hd
      exact h.held n doc (World.doc_of_state (hk s (by simpa using hs)) hd)
    · exact h.held n doc (by simpa [World.doc, hn] using hd)
  · by_cases hn : n = m
    · subst hn; simpa using hp
    · simpa [hn] using h.primary n
  · by_cases hn : n = m
    · subst hn; simpa using hb
    · simpa [hn] using h.backup n

theorem Sound.edit {base doc : WorkspaceDoc} {us : List WorkspaceUpdate} (h : Sound base us doc)
    (hlt : doc.lamport < u64Size - 1) (m : MachineId) (now : ℕ) (op : Op) :
    Sound base (us ++ [(doc.edit m now op).2]) (doc.edit m now op).1 ∧
      (doc.edit m now op).2.write.time = doc.lamport + 1 := by
  have hu := doc.edit_update m now op
  have htime : (doc.edit m now op).2.write.time = doc.lamport + 1 := by
    rw [hu]
    exact Nat.mod_eq_of_lt (by omega)
  have hk := h.knows.edit (w := (doc.edit m now op).2.write) (by
    rw [htime, WorkspaceDoc.replica_clock]
    omega)
  rw [← WorkspaceDoc.edit_replica] at hk
  refine ⟨⟨?_, hk.writes, ?_, ?_⟩, htime⟩
  · rw [WorkspaceDoc.edit_workspaceId]
    exact h.workspace
  · rw [made_append]
    exact (writes_subset hk subset_rfl).trans (Set.union_subset_union_left _ h.made)
  · have : (doc.edit m now op).1.lamport = (doc.edit m now op).2.write.time :=
      congrArg Replica.clock (doc.edit_replica m now op)
    omega

theorem Inv.edit {base : WorkspaceDoc} {w t : World} (h : Inv json base w)
    (hbase : ∀ x ∈ base.replica.writes, x.time = 1) {m : MachineId} {now : ℕ} {op : Op}
    {save : Stop} (hok : ClockKept w (.edit m now op save))
    (hs : step json w (.edit m now op save) = some t) : Inv json base t := by
  simp only [step, Option.bind_eq_bind, Option.bind_eq_some_iff] at hs
  obtain ⟨s, hst, hs⟩ := hs
  cases hm : s.mutate m now op with
  | error err =>
    simp only [hm, pure, Option.some.injEq] at hs
    rwa [← hs]
  | ok p =>
    obtain ⟨s', u⟩ := p
    obtain ⟨doc, hdoc, rfl, rfl⟩ := State.mutate_some hm
    simp only [hm, Option.bind_eq_some_iff, pure, Option.some.injEq] at hs
    obtain ⟨disk, hdisk, rfl⟩ := hs
    obtain ⟨hlt, hown⟩ := hok doc (World.doc_of_state hst hdoc)
    have hsound := h.documents doc (h.held m doc (World.doc_of_state hst hdoc))
    obtain ⟨hsound', htime⟩ := hsound.edit hlt m now op
    have horigin : (doc.edit m now op).2.write.origin = m := by
      rw [doc.edit_update m now op]
      rfl
    refine h.put ?_ ?_ ?_ ?_ (.inr ⟨save, hdisk⟩)
    · rw [made_append]
      refine h.distinct.insert fun v hv ho => ?_
      obtain hv | ⟨u, hu, rfl⟩ := hv
      · have := hbase v hv
        have := hsound.clock
        omega
      · have := hown u hu (ho.trans horigin)
        have htu : u.write.time = u.stamp.lamport := rfl
        omega
    · rw [made_append]
      exact Set.subset_union_left
    · intro v hv
      obtain hv | hv := List.mem_append.mp hv
      · exact h.updates v hv
      · rw [List.mem_singleton.mp hv, doc.edit_update m now op]
        exact hsound.workspace
    · rintro d hd
      obtain rfl := Option.some.inj hd
      exact hsound'

theorem Sound.apply {base doc d : WorkspaceDoc} {us : List WorkspaceUpdate} {u : WorkspaceUpdate}
    {c : Bool} (h : Sound base us doc) (hu : u ∈ us) (ha : doc.apply u = .ok (d, c)) :
    Sound base us d := by
  obtain ⟨-, hrep, hws⟩ := WorkspaceDoc.apply_spec ha
  have hk := h.knows.take u.write
  rw [← hrep] at hk
  have hclock : d.lamport = max doc.lamport u.write.time := congrArg Replica.clock hrep
  refine ⟨hws.trans h.workspace, hk.writes, writes_subset hk ?_, ?_⟩
  · refine Set.union_subset h.made ?_
    rintro x rfl
    exact mem_made hu
  · have := h.clock
    omega

theorem Sound.merge {base doc other d : WorkspaceDoc} {us : List WorkspaceUpdate} {c : Bool}
    (h : Sound base us doc) (ho : Sound base us other) (hm : doc.merge other = .ok (d, c)) :
    Sound base us d := by
  obtain ⟨-, hrep, hws⟩ :=
    WorkspaceDoc.merge_spec hm (WorkspaceDoc.clockBounds_of_knows ho.knows)
  have hk := h.knows.join ho.knows
  rw [← hrep] at hk
  have hclock : d.lamport = max doc.lamport other.lamport := congrArg Replica.clock hrep
  refine ⟨hws.trans h.workspace, hk.writes, writes_subset hk (Set.union_subset h.made ho.made), ?_⟩
  have := h.clock
  omega

theorem Inv.receive {base : WorkspaceDoc} {w : World} (h : Inv json base w) {m : MachineId}
    {s : State} {disk : Dir} (hs : ∀ doc, s.doc = some doc → Sound base w.updates doc)
    (hdisk : disk = (w.machine m).disk ∨
      ∃ save, persist json (w.machine m).disk s save = some disk) :
    Inv json base (w.put m s disk) :=
  h.put h.distinct subset_rfl h.updates hs hdisk

theorem persistIf_some {c : Bool} {disk e : Dir} {s : State} {save : Stop}
    (h : persistIf json c disk s save = some e) :
    e = disk ∨ ∃ save, persist json disk s save = some e := by
  cases c with
  | false => exact .inl (Option.some.inj h).symm
  | true => exact .inr ⟨save, h⟩

theorem Inv.deliver {base : WorkspaceDoc} {w t : World} (h : Inv json base w) {m : MachineId}
    {i : ℕ} {save : Stop} (hs : step json w (.deliver m i save) = some t) : Inv json base t := by
  simp only [step, Option.bind_eq_bind, Option.bind_eq_some_iff] at hs
  obtain ⟨s, hst, u, hu, hs⟩ := hs
  cases ha : s.apply u with
  | error err =>
    simp only [ha, pure, Option.some.injEq] at hs
    rwa [← hs]
  | ok p =>
    obtain ⟨s', c⟩ := p
    simp only [ha, Option.bind_eq_some_iff, pure, Option.some.injEq] at hs
    obtain ⟨disk, hdisk, rfl⟩ := hs
    refine h.receive (fun d hd => ?_) (persistIf_some hdisk)
    cases hdoc : s.doc with
    | none =>
      obtain ⟨rfl, -⟩ := State.apply_none hdoc ha
      rw [hdoc] at hd
      cases hd
    | some doc =>
      obtain ⟨e, he, rfl⟩ := State.apply_some hdoc ha
      obtain rfl := Option.some.inj hd
      exact (h.documents doc (h.held m doc (World.doc_of_state hst hdoc))).apply
        (List.mem_of_getElem? hu) he

theorem Inv.merge {base : WorkspaceDoc} {w t : World} (h : Inv json base w) {m : MachineId}
    {i : ℕ} {save : Stop} (hs : step json w (.merge m i save) = some t) : Inv json base t := by
  simp only [step, Option.bind_eq_bind, Option.bind_eq_some_iff] at hs
  obtain ⟨s, hst, other, ho, hs⟩ := hs
  have hother := h.documents other (List.mem_of_getElem? ho)
  cases hm : s.merge other with
  | error err =>
    simp only [hm, pure, Option.some.injEq] at hs
    rwa [← hs]
  | ok p =>
    obtain ⟨s', c⟩ := p
    simp only [hm, Option.bind_eq_some_iff, pure, Option.some.injEq] at hs
    obtain ⟨disk, hdisk, rfl⟩ := hs
    refine h.receive (fun d hd => ?_) (persistIf_some hdisk)
    cases hdoc : s.doc with
    | none =>
      rw [(State.merge_none hdoc hm).1] at hd
      obtain rfl := Option.some.inj hd
      exact hother
    | some doc =>
      obtain ⟨e, he, hd'⟩ := State.merge_some hdoc hm
      rw [hd'] at hd
      obtain rfl := Option.some.inj hd
      exact (h.documents doc (h.held m doc (World.doc_of_state hst hdoc))).merge hother he

/-- What a machine loads is a document that was held, since no proper beginning of a text
parses. -/
theorem Inv.load {base : WorkspaceDoc} {w : World} (h : Inv json base w)
    (hjson : ∀ d ∈ w.documents, ∀ n e, json.parse ((json.render d).take n) = some e → e = d)
    {m : MachineId} {doc : WorkspaceDoc}
    (hl : loadWorkspace json (w.machine m).disk = .ok (some doc)) : doc ∈ w.documents := by
  have hfile {node : Node} (hn : Stored json w.documents node) (hr : Reads json node doc) :
      doc ∈ w.documents := by
    obtain ⟨b, rfl, hb⟩ := hr
    obtain ⟨d, hd, hp⟩ := hn b rfl
    rw [List.prefix_iff_eq_take.mp hp] at hb
    rwa [hjson d hd _ _ hb]
  obtain hr | ⟨_, hr⟩ := readWithFallback_some.mp (loadWorkspace_some.mp hl).1
  · exact hfile (h.primary m) hr
  · exact hfile (h.backup m) hr

theorem Inv.restart {base : WorkspaceDoc} {w t : World} (h : Inv json base w)
    (hjson : ∀ d ∈ w.documents, ∀ n e, json.parse ((json.render d).take n) = some e → e = d)
    {m : MachineId} (hs : step json w (.restart m) = some t) : Inv json base t := by
  simp only [step] at hs
  cases hst : (w.machine m).state with
  | some s => simp [hst] at hs
  | none =>
    simp only [hst] at hs
    cases hl : loadWorkspace json (w.machine m).disk with
    | error err =>
      simp only [hl, Option.some.injEq] at hs
      rwa [← hs]
    | ok o =>
      cases o with
      | none =>
        simp only [hl, Option.some.injEq] at hs
        subst hs
        exact h.receive (by simp) (.inl rfl)
      | some doc =>
        simp only [hl, Option.some.injEq] at hs
        subst hs
        refine h.receive (fun d hd => ?_) (.inl rfl)
        obtain rfl := Option.some.inj hd
        exact h.documents _ (h.load hjson hl)

theorem Inv.damage {base : WorkspaceDoc} {w t : World} (h : Inv json base w) {m : MachineId}
    {path : String} {n : ℕ} (hs : step json w (.damage m path n) = some t) : Inv json base t := by
  simp only [step] at hs
  cases hf : (w.machine m).disk path with
  | missing => simp [hf] at hs
  | unreadable => simp [hf] at hs
  | file b =>
    simp only [hf, Option.some.injEq] at hs
    subst hs
    have hcut {q : String} (hq : Stored json w.documents ((w.machine m).disk q)) :
        Stored json w.documents
          (Function.update (w.machine m).disk path (.file (b.take n)) q) := by
      by_cases hqp : q = path
      · subst hqp
        rw [hf] at hq
        simpa using hq.take n
      · simpa [hqp] using hq
    exact h.machine (fun s hs => hs) (hcut (h.primary m)) (hcut (h.backup m))

theorem Inv.step {base : WorkspaceDoc} {w t : World} (h : Inv json base w)
    (hbase : ∀ x ∈ base.replica.writes, x.time = 1)
    (hjson : ∀ d ∈ w.documents, ∀ n e, json.parse ((json.render d).take n) = some e → e = d)
    {a : Action} (hok : ClockKept w a) (hs : step json w a = some t) : Inv json base t := by
  cases a with
  | edit m now op save => exact h.edit hbase hok hs
  | deliver m i save => exact h.deliver hs
  | merge m i save => exact h.merge hs
  | crash m =>
    obtain rfl := Option.some.inj hs
    exact h.machine (by simp) (h.primary m) (h.backup m)
  | damage m path n => exact h.damage hs
  | restart m => exact h.restart hjson hs

theorem documents_mono {w t : World} {a : Action} (hs : step json w a = some t) :
    w.documents ⊆ t.documents := by
  have hput (m : MachineId) (s : State) (disk : Dir) :
      w.documents ⊆ (w.put m s disk).documents := List.subset_append_left _ _
  cases a with
  | edit m now op save =>
    simp only [step, Option.bind_eq_bind, Option.bind_eq_some_iff] at hs
    obtain ⟨s, -, hs⟩ := hs
    split at hs
    · simp only [Option.bind_eq_some_iff, pure, Option.some.injEq] at hs
      obtain ⟨disk, -, rfl⟩ := hs
      exact hput m _ disk
    · obtain rfl := Option.some.inj hs
      exact List.Subset.refl _
  | deliver m i save =>
    simp only [step, Option.bind_eq_bind, Option.bind_eq_some_iff] at hs
    obtain ⟨s, -, u, -, hs⟩ := hs
    split at hs
    · simp only [Option.bind_eq_some_iff, pure, Option.some.injEq] at hs
      obtain ⟨disk, -, rfl⟩ := hs
      exact hput m _ disk
    · obtain rfl := Option.some.inj hs
      exact List.Subset.refl _
  | merge m i save =>
    simp only [step, Option.bind_eq_bind, Option.bind_eq_some_iff] at hs
    obtain ⟨s, -, other, -, hs⟩ := hs
    split at hs
    · simp only [Option.bind_eq_some_iff, pure, Option.some.injEq] at hs
      obtain ⟨disk, -, rfl⟩ := hs
      exact hput m _ disk
    · obtain rfl := Option.some.inj hs
      exact List.Subset.refl _
  | crash m =>
    obtain rfl := Option.some.inj hs
    exact List.Subset.refl _
  | damage m path n =>
    simp only [step] at hs
    split at hs
    · obtain rfl := Option.some.inj hs
      exact List.Subset.refl _
    · cases hs
  | restart m =>
    simp only [step] at hs
    split at hs
    · cases hs
    · split at hs
      · obtain rfl := Option.some.inj hs
        exact hput m _ _
      · obtain rfl := Option.some.inj hs
        exact hput m _ _
      · obtain rfl := Option.some.inj hs
        exact List.Subset.refl _

/-- What a run keeps in which no machine edits with a clock behind its own stamps. -/
theorem inv_run {base : WorkspaceDoc} {w t : World} {as : List Action}
    (h : Run (step json) ClockKept w as t) (hw : Inv json base w)
    (hbase : ∀ x ∈ base.replica.writes, x.time = 1)
    (hjson : ∀ d ∈ t.documents, ∀ n e, json.parse ((json.render d).take n) = some e → e = d) :
    Inv json base t := by
  induction h with
  | nil => exact hw
  | cons hok hs hrest ih =>
    refine ih (hw.step hbase (fun d hd => hjson d ?_) hok hs) hjson
    refine hrest.related (R := fun a b => a.documents ⊆ b.documents) (fun _ => List.Subset.refl _)
      (fun _ _ _ => List.Subset.trans) (fun _ _ _ _ => documents_mono) (documents_mono hs hd)

theorem inv_start (ws : WorkspaceId) (now : ℕ) (name : String) (founder : MachineRecord) :
    Inv json (.create ws now name founder) (start json (.create ws now name founder)) := by
  have h := Replicas.inv_start ws now name founder
  set base := WorkspaceDoc.create ws now name founder
  have hmade : made base (start json base).updates = base.replica.writes := by
    simp [made, start]
  obtain ⟨-, hk, -⟩ := h.documents base List.mem_cons_self
  refine ⟨h.distinct, by simp [start], ?_, ?_, fun m => ?_, fun m => ?_⟩
  · intro d hd
    obtain rfl := List.mem_singleton.mp hd
    exact ⟨rfl, hk, hmade.ge, le_rfl⟩
  · intro m doc hd
    obtain rfl := Option.some.inj hd
    exact List.mem_cons_self
  · exact Stored.render List.mem_cons_self
  · rintro b hb
    cases hb

/-- Documents built from distinct stamps agree once each has merged the other. -/
theorem merge_both_agree {base d e : WorkspaceDoc} {us : List WorkspaceUpdate}
    (hdist : Distinct (made base us)) (hd : Sound base us d) (he : Sound base us e) :
    ∃ d' e' b c, d.merge e = .ok (d', b) ∧ e.merge d = .ok (e', c) ∧
      d'.name = e'.name ∧ d'.settings = e'.settings ∧ d'.machines = e'.machines := by
  obtain ⟨d', b, hd'⟩ := WorkspaceDoc.merge_ok_of_workspace (he.workspace.trans hd.workspace.symm)
  obtain ⟨e', c, he'⟩ := WorkspaceDoc.merge_ok_of_workspace (hd.workspace.trans he.workspace.symm)
  refine ⟨d', e', b, c, hd', he', WorkspaceDoc.eq_of_held_eq fun r => ?_⟩
  rw [WorkspaceDoc.merge_held hd', WorkspaceDoc.merge_held he']
  refine newer_comm (hdist r) (fun x hx => ?_) fun x hx => ?_
  · exact ⟨hd.made (d.filed.mem_writes hx), d.filed r x hx⟩
  · exact ⟨he.made (e.filed.mem_writes hx), e.filed r x hx⟩

/-- While no machine edits with a clock behind a stamp it has given, whatever was lost in
between, stamps stay unique and full documents merge to the same workspace. -/
theorem stamps_unique_of_clock_kept (json : Json WorkspaceDoc) (ws : WorkspaceId) (now : ℕ)
    (name : String) (founder : MachineRecord) (as : List Action) (w : World)
    (hrun : Run (step json) ClockKept (start json (.create ws now name founder)) as w)
    (hjson : ∀ d ∈ w.documents, ∀ n e, json.parse ((json.render d).take n) = some e → e = d) :
    Distinct (made (.create ws now name founder) w.updates) ∧
      ∀ m n, ∀ d ∈ w.doc m, ∀ e ∈ w.doc n,
        ∃ d' e' b c, d.merge e = .ok (d', b) ∧ e.merge d = .ok (e', c) ∧
          d'.name = e'.name ∧ d'.settings = e'.settings ∧ d'.machines = e'.machines := by
  have h := inv_run hrun (inv_start ws now name founder) (fun x hx => (stamp_create hx).1) hjson
  exact ⟨h.distinct, fun m n d hd e he => merge_both_agree h.distinct
    (h.documents d (h.held m d hd)) (h.documents e (h.held n e he))⟩

/-- The edit is saved and delivered, and the machine finds it again after a restart. -/
def savedRun : List Action :=
  [.edit 1 0 (.setName "Home") ⟨5, none⟩, .deliver 2 0 ⟨5, none⟩, .crash 1, .restart 1]

theorem stamps_unique_of_clock_kept_saved :
    ∃ w, Run (step sampleJson) ClockKept (start sampleJson desk) savedRun w ∧
      w.doc 1 = some home ∧ Distinct (made desk w.updates) := by
  obtain ⟨w, hrun, hw⟩ := run_of_replay (step sampleJson) ClockKept
    (start sampleJson desk) savedRun (fun w => (w.doc 1, w.documents))
    (b := (some home, [desk, home, home, home])) (by decide +kernel)
  obtain ⟨hdoc, hdocs⟩ := Prod.mk.injEq .. ▸ hw
  refine ⟨w, hrun, hdoc, ?_⟩
  refine (stamps_unique_of_clock_kept sampleJson 7 0 "Desk" studio savedRun w hrun ?_).1
  rw [hdocs]
  intro d hd n e
  exact sampleJson_take (by simp only [List.mem_cons] at hd ⊢; tauto)

/-- The edit is delivered but its save fails, and the machine edits again after a restart. -/
def lostRun : List Action :=
  [.edit 1 0 (.setName "Home") ⟨0, none⟩, .deliver 2 0 ⟨5, none⟩, .crash 1, .restart 1,
    .edit 1 0 (.setName "Loft") ⟨5, none⟩]

/-- The restarted machine gives the same stamp to another name, and neither full document then
changes the other machine. -/
theorem lost_save_reuses_stamp :
    ∃ w, Run (step sampleJson) Any (start sampleJson desk) lostRun w ∧
      (∀ d ∈ w.documents, ∀ n e,
        sampleJson.parse ((sampleJson.render d).take n) = some e → e = d) ∧
      ¬ Distinct (made desk w.updates) ∧ w.doc 1 = some loft ∧ w.doc 2 = some home ∧
      loft.merge home = .ok (loft, false) ∧ home.merge loft = .ok (home, false) ∧
      loft.name.value ≠ home.name.value := by
  obtain ⟨w, hrun, hw⟩ := run_of_replay (step sampleJson) Any
    (start sampleJson desk) lostRun (fun w => (w.doc 1, w.doc 2, w.documents, w.updates))
    (b := (some loft, some home, [desk, home, home, desk, loft],
      [(desk.setName 1 0 "Home").2, (desk.setName 1 0 "Loft").2])) (by decide +kernel)
  simp only [Prod.mk.injEq] at hw
  obtain ⟨h₁, h₂, hdocs, hupdates⟩ := hw
  refine ⟨w, hrun, ?_, fun hd => ?_, h₁, h₂, by decide +kernel, by decide +kernel, by decide⟩
  · rw [hdocs]
    intro d hd n e
    exact sampleJson_take (by simp only [List.mem_cons] at hd ⊢; tauto)
  · rw [hupdates] at hd
    have hsame := hd.eq (a := (desk.setName 1 0 "Home").2.write)
      (b := (desk.setName 1 0 "Loft").2.write) (mem_made (by simp)) (mem_made (by simp)) rfl rfl
    exact absurd hsame (by decide +kernel)

end InputShare.Restarts

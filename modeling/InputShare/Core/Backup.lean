import InputShare.Core.Abandoned

/-! Exporting a machine's configuration to a file, and restoring it over that of another machine:
the identity is written first, then the workspace, each by a write that may fail anywhere. -/
namespace InputShare.Store
open Files

/-- What makes an installation the machine it is. -/
structure Identity where
  machineId : MachineId
  createdAtMs : ℕ
  secretKey : BitVec 256
deriving DecidableEq, Repr

/-- Everything needed to restore a machine into its workspace. -/
structure Backup where
  identity : Identity
  workspace : Option WorkspaceDoc
deriving DecidableEq

def identityFile : String := "identity.json"

/-- Reads this machine's identity; without one the freshly minted one is written. -/
def loadOrCreateIdentity (json : Json Identity) (d : Dir) (minted : Identity) :
    Except CoreError Identity × Dir :=
  match readWithFallback json d identityFile with
  | .ok (some identity) => (.ok identity, d)
  | .ok none =>
    match complete (writeAtomic json identityFile minted) d with
    | some e => (.ok minted, e)
    | none => (.error (.io identityFile), d)
  | .error err => (.error err, d)

/-- The serializers of the three kinds of file. -/
structure Jsons where
  identity : Json Identity
  workspace : Json WorkspaceDoc
  backup : Json Backup

variable (js : Jsons)

/-- What `export_backup` writes, and the directory it leaves. -/
def exportBackup (d : Dir) (minted : Identity) : Except CoreError Backup × Dir :=
  match loadOrCreateIdentity js.identity d minted with
  | (.error err, d) => (.error err, d)
  | (.ok identity, d) =>
    match loadWorkspace js.workspace d with
    | .error err => (.error err, d)
    | .ok workspace => (.ok ⟨identity, workspace⟩, d)

def restore (backup : Backup) : List Stage :=
  writeAtomic js.identity identityFile backup.identity ++
    match backup.workspace with
    | some doc => writeAtomic js.workspace workspaceFile doc
    | none => []

def failedAt (name : String) : ℕ → CoreError
  | 0 | 1 | 2 => .io (tmp name)
  | 3 => .io (bak name)
  | _ => .io name

def importBackup (file : Node) (d : Dir) (failure : Option Stop) :
    Option (Except CoreError Identity × Dir) :=
  match file with
  | .missing | .unreadable => some (.error (.io "backup"), d)
  | .file bytes =>
    match js.backup.parse bytes with
    | none => some (.error (.parse "backup"), d)
    | some backup =>
      match failure with
      | none => (complete (restore js backup) d).map fun e => (.ok backup.identity, e)
      | some stop =>
        if stop.stages < (restore js backup).length then
          (interrupt (restore js backup) d stop).map fun e =>
            (.error (if stop.stages < 5 then failedAt identityFile stop.stages
              else failedAt workspaceFile (stop.stages - 5)), e)
        else none

/-! What a write that fails leaves. -/

variable {α : Type*} {json : Json α} {name : String} {v : α} {d e : Dir}

theorem complete_draft (h : d name ≠ .unreadable) :
    ∃ f, complete (draft json name v) d = some f ∧ f (tmp name) = .file (json.render v) := by
  have h₂ := tmp_ne name
  have h₃ := tmp_ne_bak name
  cases hd : d name with
  | missing =>
    exact ⟨_, by simp [draft, complete, Stage.run, FileOp.complete, hd, h₂.symm]; rfl, by simp⟩
  | unreadable => exact absurd hd h
  | file a =>
    exact ⟨_, by simp [draft, complete, Stage.run, FileOp.complete, hd, h₂.symm]; rfl,
      by simp [h₃]⟩

theorem exists_complete (h : d name ≠ .unreadable) :
    ∃ e, complete (writeAtomic json name v) d = some e := by
  obtain ⟨f, hf, htmp⟩ : ∃ f, complete (draft json name v) d = some f ∧
    f (tmp name) = .file (json.render v) := complete_draft h
  rw [writeAtomic_eq, complete_append, hf]
  exact ⟨_, by simp [complete, Stage.run, FileOp.complete, htmp]; rfl⟩

theorem copied_of_complete (h : complete (writeAtomic json name v) d = some e) :
    d name ≠ .unreadable := by
  intro hu
  have h₂ := tmp_ne name
  simp [writeAtomic, complete, Stage.run, FileOp.complete, hu, h₂.symm] at h

theorem interrupt_frame {path : String} (h₀ : path ≠ name) (h₁ : path ≠ tmp name)
    (h₂ : path ≠ bak name) {s : Stop} (h : interrupt (writeAtomic json name v) d s = some e) :
    e path = d path := by
  rw [writeAtomic_eq, interrupt_append] at h
  split at h
  · exact interrupt_draft h₁ h₂ h
  · obtain ⟨f, hf, he⟩ := Option.bind_eq_some_iff.mp h
    rw [complete_eq] at hf
    have hfd := interrupt_draft h₁ h₂ hf
    obtain rfl | ⟨op, n, hop, ht⟩ | ⟨g, t, hg, he⟩ := interrupt_cons he
    · exact hfd
    · obtain rfl := Option.some.inj hop
      cases ht
    · obtain rfl := interrupt_nil he
      simp only [Stage.run, FileOp.complete] at hg
      split at hg
      · cases hg
      · obtain rfl := Option.some.inj hg
        rw [Function.update_of_ne h₀, Function.update_of_ne h₁, hfd]

theorem interrupt_early {s : Stop} (hs : s.stages < 5)
    (h : interrupt (writeAtomic json name v) d s = some e) :
    e name = d name ∧ (e (bak name) = d (bak name) ∨ CopyOf (d name) (e (bak name))) := by
  refine ⟨?_, (interrupt_writeAtomic h).2⟩
  have hown : name ≠ tmp name ∧ name ≠ bak name := ⟨(tmp_ne name).symm, (bak_ne name).symm⟩
  rw [writeAtomic_eq, interrupt_append] at h
  split at h
  · exact interrupt_draft hown.1 hown.2 h
  · rename_i hlate
    obtain ⟨f, hf, he⟩ := Option.bind_eq_some_iff.mp h
    rw [complete_eq] at hf
    have hfd := interrupt_draft hown.1 hown.2 hf
    have hzero : s.stages - (draft json name v).length = 0 := by
      simp only [draft, List.length_cons, List.length_nil] at hlate ⊢
      omega
    rw [hzero] at he
    -- only the rename is left, and it fails without a trace
    cases hb : s.bytes with
    | none =>
      rw [hb] at he
      obtain rfl := Option.some.inj he
      exact hfd
    | some n =>
      rw [hb] at he
      cases he

theorem exists_interrupt_copy (json : Json α) (v : α) {node : Node} (h : CopyOf (d name) node) :
    ∃ n e, interrupt (writeAtomic json name v) d ⟨3, some n⟩ = some e ∧ e name = d name ∧
      e (bak name) = node := by
  have h₁ := bak_ne name
  have h₂ := tmp_ne name
  have hcopy : ∀ n f, (FileOp.copy name (bak name)).tear
      (Function.update d (tmp name) (.file (json.render v))) n = some f →
      interrupt (writeAtomic json name v) d ⟨3, some n⟩ = some f := by
    intro n f hf
    have hm : d name ≠ .missing := by
      intro hm
      rw [hm] at h
      cases h
    simpa [writeAtomic, interrupt, Stage.run, FileOp.complete, h₂.symm, hm] using hf
  generalize hd : d name = primary at h
  cases h with
  | part a n =>
    refine ⟨n, _, hcopy n _ (by simp only [FileOp.tear, Function.update_of_ne h₂.symm, hd]; rfl),
      ?_, ?_⟩
    · simp [h₁.symm, h₂.symm, hd]
    · simp
  | unreadable =>
    refine ⟨0, _, hcopy 0 _ (by simp only [FileOp.tear, Function.update_of_ne h₂.symm, hd]; rfl),
      ?_, ?_⟩
    · simp [h₁.symm, h₂.symm, hd]
    · simp

/-! What is read after it. -/

/-- If the primary is broken, neither the backup nor any part of the primary reads. -/
def CopySafe (json : Json α) (d : Dir) (name : String) : Prop :=
  Broken json (d name) → ∀ node, node = d (bak name) ∨ CopyOf (d name) node →
    ∀ value, ¬ Reads json node value

theorem readWithFallback_congr (hname : e name = d name) (hbak : e (bak name) = d (bak name)) :
    readWithFallback json e name = readWithFallback json d name := by
  simp only [readWithFallback, readJson, hname, hbak]

theorem readWithFallback_broken (h : Broken json (d name))
    (hbak : ∀ value, ¬ Reads json (d (bak name)) value) :
    readWithFallback json d name = (readJson json d name).map fun _ => none := by
  obtain ⟨err, herr⟩ := readJson_error.mpr h
  simp only [readWithFallback, herr, Except.map]
  cases hb : readJson json d (bak name) with
  | error err => rfl
  | ok o =>
    cases o with
    | none => rfl
    | some value => exact absurd ((readJson_some _).mp hb) (hbak value)

theorem readWithFallback_intact (h : ¬ Broken json (d name)) :
    readWithFallback json d name = readJson json d name := by
  unfold readWithFallback
  cases hr : readJson json d name with
  | ok o => rfl
  | error err => exact absurd (readJson_error.mp ⟨err, hr⟩) h

theorem read_of_early (hsafe : CopySafe json d name) (hname : e name = d name)
    (hbak : e (bak name) = d (bak name) ∨ CopyOf (d name) (e (bak name))) :
    readWithFallback json e name = readWithFallback json d name := by
  have hjson : readJson json e name = readJson json d name := by simp only [readJson, hname]
  by_cases hb : Broken json (d name)
  · rw [readWithFallback_broken (hname ▸ hb) (hsafe hb _ hbak),
      readWithFallback_broken hb (hsafe hb _ (.inl rfl)), hjson]
  · rw [readWithFallback_intact (by rwa [hname]), readWithFallback_intact hb, hjson]

def Found (json : Json α) (d : Dir) (name : String) : Prop :=
  ∃ value, readWithFallback json d name = .ok (some value)

theorem copySafe_of_found (hempty : json.parse [] = none)
    (h : Broken json (d name) → ∀ node, CopyOf (d name) node → ∃ e : Dir, e name = d name ∧
      e (bak name) = node ∧ (Found json e name ↔ Found json d name)) : CopySafe json d name := by
  intro hb
  have hnone : CopyOf (d name) (.file []) := by
    obtain hu | ⟨bytes, hf, -⟩ := hb
    · rw [hu]
      exact .unreadable
    · rw [hf]
      exact .part bytes 0
  -- an empty copy reads as nothing, so the backup does not read
  have hbak : ¬ Found json d name := by
    intro hfound
    obtain ⟨e, hname, hcopy, hiff⟩ := h hb _ hnone
    obtain ⟨value, hv⟩ := hiff.mpr hfound
    rw [readWithFallback_some, hname, hcopy] at hv
    obtain hr | ⟨-, bytes, hbytes, hparse⟩ := hv
    · exact hb.not_reads hr
    · obtain rfl := Node.file.inj hbytes
      rw [hempty] at hparse
      cases hparse
  rintro node (rfl | hcopy) value hr
  · exact hbak ⟨value, readWithFallback_some.mpr (.inr ⟨hb, hr⟩)⟩
  · obtain ⟨e, hname, rfl, hiff⟩ := h hb node hcopy
    exact hbak (hiff.mp ⟨value, readWithFallback_some.mpr (.inr ⟨hname ▸ hb, hr⟩)⟩)

theorem missing_of_readWithFallback (h : readWithFallback json d name = .ok none) :
    d name = .missing := by
  by_cases hb : Broken json (d name)
  · obtain ⟨err, herr⟩ := readJson_error.mpr hb
    simp only [readWithFallback, herr] at h
    split at h <;> cases h
  · exact missing_of_readJson ((readWithFallback_intact hb).symm.trans h)

theorem loadOrCreateIdentity_fst (json : Json Identity) (d : Dir) (minted : Identity) :
    (loadOrCreateIdentity json d minted).1 =
      (readWithFallback json d identityFile).map fun o => o.getD minted := by
  unfold loadOrCreateIdentity
  cases hr : readWithFallback json d identityFile with
  | error err => rfl
  | ok o =>
    cases o with
    | some identity => rfl
    | none =>
      have hmissing := missing_of_readWithFallback hr
      obtain ⟨e, he⟩ : ∃ e, complete (writeAtomic json identityFile minted) d = some e :=
        exists_complete (by simp [hmissing])
      simp only [he]
      rfl

theorem loadWorkspace_congr {json : Json WorkspaceDoc}
    (h : readWithFallback json e workspaceFile = readWithFallback json d workspaceFile) :
    loadWorkspace json e = loadWorkspace json d := by
  simp only [loadWorkspace, h]

theorem found_iff_loadWorkspace {json : Json WorkspaceDoc} :
    Found json d workspaceFile ↔ (∃ doc, loadWorkspace json d = .ok (some doc)) ∨
      ∃ a b, loadWorkspace json d = .error (.schemaVersion a b) := by
  have hjson : ∀ a b path, readJson json d path ≠ .error (.schemaVersion a b) := by
    intro a b path
    unfold readJson
    cases d path with
    | missing | unreadable => simp
    | file bytes => cases hp : json.parse bytes <;> simp [hp]
  unfold Found loadWorkspace
  cases hr : readWithFallback json d workspaceFile with
  | ok o =>
    cases o with
    | none => simp
    | some doc => by_cases hs : doc.schemaVersion > WorkspaceDoc.supportedSchema <;> simp [hs]
  | error err =>
    simp only [reduceCtorEq, exists_false, Except.error.injEq, false_or, false_iff, not_exists]
    rintro a b rfl
    unfold readWithFallback at hr
    split at hr
    · cases hr
    · rename_i primary hprimary
      split at hr
      · cases hr
      · obtain rfl := Except.error.inj hr
        exact hjson _ _ _ hprimary

theorem found_iff_loadOrCreateIdentity {json : Json Identity} (minted : Identity)
    (h : d identityFile ≠ .missing) :
    Found json d identityFile ↔ ∃ id, (loadOrCreateIdentity json d minted).1 = .ok id := by
  rw [loadOrCreateIdentity_fst, Found]
  cases hr : readWithFallback json d identityFile with
  | error err => simp [Except.map]
  | ok o =>
    cases o with
    | none => exact absurd (missing_of_readWithFallback hr) h
    | some id => simp [Except.map]

theorem Broken.ne_missing {node : Node} (h : Broken json node) : node ≠ .missing := by
  rintro rfl
  obtain h | ⟨bytes, h, -⟩ := h
  · cases h
  · cases h

/-! The restore. -/

/-- What was exported can be written and read back, and no empty file can. -/
structure Jsons.ReadsBack (js : Jsons) (backup : Backup) : Prop where
  file : js.backup.parse (js.backup.render backup) = some backup
  identity : js.identity.parse (js.identity.render backup.identity) = some backup.identity
  workspace : ∀ doc ∈ backup.workspace, js.workspace.parse (js.workspace.render doc) = some doc
  noIdentity : js.identity.parse [] = none
  noWorkspace : js.workspace.parse [] = none

def SameLoads (js : Jsons) (minted : Identity) (d e : Dir) : Prop :=
  (loadOrCreateIdentity js.identity d minted).1 = (loadOrCreateIdentity js.identity e minted).1 ∧
    loadWorkspace js.workspace d = loadWorkspace js.workspace e

/-- A restore that returns has brought back what was exported; and one that fails, be it in reading
the backup, has changed nothing. -/
def Restores (js : Jsons) (minted : Identity) (s t : Dir) (file : Node) : Prop :=
  (∀ failure identity e, importBackup js file t failure = some (.ok identity, e) →
      SameLoads js minted e s) ∧
    ∀ node failure err e, node = file ∨ node = .missing ∨ node = .unreadable →
      importBackup js node t failure = some (.error err, e) → SameLoads js minted e t

/-- The identity's files are safe to copy; and unless its file cannot be copied at all, a backup
without a workspace meets none, and one with a workspace meets the identity it holds and a
workspace whose files are safe to copy. -/
def Restorable (js : Jsons) (minted : Identity) (t : Dir) (backup : Backup) : Prop :=
  CopySafe js.identity t identityFile ∧
    (t identityFile ≠ .unreadable →
      match backup.workspace with
      | none => t workspaceFile = .missing
      | some _ =>
        (loadOrCreateIdentity js.identity t minted).1 = .ok backup.identity ∧
          CopySafe js.workspace t workspaceFile)

variable {js} {s s' t : Dir} {minted minted' : Identity} {backup : Backup}

theorem loadOrCreateIdentity_of_reads {json : Json Identity} {id : Identity}
    (h : Reads json (d identityFile) id) (minted : Identity) :
    (loadOrCreateIdentity json d minted).1 = .ok id := by
  rw [loadOrCreateIdentity_fst, readWithFallback_some.mpr (.inl h)]
  rfl

theorem exported (h : exportBackup js s minted = (.ok backup, s')) (hjson : js.ReadsBack backup)
    (minted' : Identity) :
    (loadOrCreateIdentity js.identity s' minted').1 = .ok backup.identity ∧
      loadWorkspace js.workspace s' = .ok backup.workspace := by
  unfold exportBackup at h
  split at h
  · cases (Prod.mk.inj h).1
  rename_i id d hid
  split at h
  · cases (Prod.mk.inj h).1
  rename_i workspace hws
  obtain ⟨hb, rfl⟩ := Prod.mk.inj h
  obtain rfl := Except.ok.inj hb
  refine ⟨?_, hws⟩
  unfold loadOrCreateIdentity at hid
  split at hid
  · rename_i identity hr
    obtain ⟨hi, rfl⟩ := Prod.mk.inj hid
    obtain rfl := Except.ok.inj hi
    rw [loadOrCreateIdentity_fst, hr]
    rfl
  · split at hid
    · rename_i e he
      obtain ⟨hi, rfl⟩ := Prod.mk.inj hid
      obtain rfl := Except.ok.inj hi
      exact loadOrCreateIdentity_of_reads ⟨_, complete_writeAtomic he, hjson.identity⟩ _
    · cases (Prod.mk.inj hid).1
  · cases (Prod.mk.inj hid).1

theorem exportBackup_of_reads {id : Identity} {workspace : Option WorkspaceDoc}
    (hid : Reads js.identity (d identityFile) id)
    (hws : loadWorkspace js.workspace d = .ok workspace) (minted : Identity) :
    exportBackup js d minted = (.ok ⟨id, workspace⟩, d) := by
  simp only [exportBackup, loadOrCreateIdentity, readWithFallback_some.mpr (.inl hid), hws]

theorem copySafe_of_reads {v : α} (h : Reads json (d name) v) : CopySafe json d name :=
  fun hb => absurd h hb.not_reads

/-! A backup of one machine over another. -/

def deskIdentity : Identity := ⟨1, 0, 11⟩
def reinstalled : Identity := ⟨2, 0, 12⟩

/-- The text of one of the two identities, as the pretty printer lays it out. -/
def identityText (id : Identity) : Bytes :=
  let digit := if id = deskIdentity then "1" else "2"
  let zeros := "0000000000000000000000000000000000000000000000000000000000000"
  ("\x7b\n  \"machine_id\": \"00000000-0000-0000-0000-00000000000" ++ digit ++ "\",\n" ++
    "  \"created_at_ms\": 0,\n  \"secret_key\": \"" ++ zeros ++ "00" ++
    (if id = deskIdentity then "b" else "c") ++ "\"\n\x7d").toUTF8.data.toList

def indent (text : Bytes) : Bytes :=
  text.flatMap fun byte => if byte = 10 then [10, 32, 32] else [byte]

def backupText (backup : Backup) : Bytes :=
  "\x7b\n  \"identity\": ".toUTF8.data.toList ++ indent (identityText backup.identity) ++
    ",\n  \"workspace\": ".toUTF8.data.toList ++
    (match backup.workspace with
      | some doc => indent (sampleText doc)
      | none => "null".toUTF8.data.toList) ++
    "\n\x7d".toUTF8.data.toList

/-- The serializers on the samples and their texts. -/
def sampleJsons : Jsons where
  identity :=
    { render := identityText
      parse := fun bytes => [deskIdentity, reinstalled].find? fun id => identityText id = bytes }
  workspace := sampleJson
  backup :=
    { render := backupText
      parse := fun bytes =>
        [⟨deskIdentity, some desk⟩, ⟨deskIdentity, none⟩].find? fun backup =>
          backupText backup = bytes }

/-- The directory of a machine with that identity and that workspace. -/
def machineDir (id : Identity) (doc : Option WorkspaceDoc) : Dir := fun path =>
  if path = identityFile then .file (identityText id)
  else if path = workspaceFile then
    match doc with
    | some doc => .file (sampleText doc)
    | none => .missing
  else .missing

theorem sampleJsons_readsBack : sampleJsons.ReadsBack ⟨deskIdentity, some desk⟩ ∧
    sampleJsons.ReadsBack ⟨deskIdentity, none⟩ := by
  have hidentity : sampleJsons.identity.parse (identityText deskIdentity) = some deskIdentity ∧
      sampleJsons.identity.parse [] = none := by decide +kernel
  have hbackup : backupText ⟨deskIdentity, some desk⟩ ≠ backupText ⟨deskIdentity, none⟩ := by
    decide +kernel
  have hempty : sampleJson.parse [] = none := sampleJson_short short_texts.1
  have hdesk : ∀ doc ∈ some desk, sampleJson.parse (sampleJson.render doc) = some doc :=
    fun doc hdoc => Option.mem_some_iff.mp hdoc ▸ sampleJson_render (by simp)
  exact ⟨⟨by simp [sampleJsons], hidentity.1, hdesk, hidentity.2, hempty⟩,
    ⟨by simp [sampleJsons, hbackup], hidentity.1, by simp, hidentity.2, hempty⟩⟩

theorem machineDir_identity {id : Identity} (h : id ∈ [deskIdentity, reinstalled])
    (doc : Option WorkspaceDoc) :
    Reads sampleJsons.identity (machineDir id doc identityFile) id := by
  have htexts : ∀ id ∈ [deskIdentity, reinstalled],
      sampleJsons.identity.parse (identityText id) = some id := by decide +kernel
  exact ⟨_, rfl, htexts id h⟩

theorem machineDir_workspace {doc : WorkspaceDoc} (h : doc ∈ [desk, home, loft]) (id : Identity) :
    Reads sampleJson (machineDir id (some doc) workspaceFile) doc :=
  ⟨_, rfl, sampleJson_render h⟩

theorem export_desk : exportBackup sampleJsons (machineDir deskIdentity (some desk)) reinstalled =
    (.ok ⟨deskIdentity, some desk⟩, machineDir deskIdentity (some desk)) :=
  exportBackup_of_reads (machineDir_identity (by simp) _)
    (loadWorkspace_of_reads (machineDir_workspace (by simp) _) (by decide)) _

/-! When it is exact. -/

theorem files_apart : (workspaceFile ≠ identityFile ∧ workspaceFile ≠ tmp identityFile ∧
      workspaceFile ≠ bak identityFile) ∧
    (bak workspaceFile ≠ identityFile ∧ bak workspaceFile ≠ tmp identityFile ∧
      bak workspaceFile ≠ bak identityFile) ∧
    identityFile ≠ workspaceFile ∧ identityFile ≠ tmp workspaceFile ∧
      identityFile ≠ bak workspaceFile := by
  decide

theorem workspace_kept {json : Json Identity} {id : Identity} {stop : Stop}
    (h : interrupt (writeAtomic json identityFile id) d stop = some e) :
    e workspaceFile = d workspaceFile ∧ e (bak workspaceFile) = d (bak workspaceFile) := by
  obtain ⟨⟨h₀, h₁, h₂⟩, ⟨k₀, k₁, k₂⟩, -⟩ := files_apart
  exact ⟨interrupt_frame h₀ h₁ h₂ h, interrupt_frame k₀ k₁ k₂ h⟩

theorem workspace_kept_of_complete {json : Json Identity} {id : Identity}
    (h : complete (writeAtomic json identityFile id) d = some e) :
    e workspaceFile = d workspaceFile ∧ e (bak workspaceFile) = d (bak workspaceFile) := by
  rw [complete_eq] at h
  exact workspace_kept h

theorem identity_kept {json : Json WorkspaceDoc} {doc : WorkspaceDoc} {stop : Stop}
    (h : interrupt (writeAtomic json workspaceFile doc) d stop = some e) :
    e identityFile = d identityFile :=
  have ⟨_, _, h₀, h₁, h₂⟩ := files_apart
  interrupt_frame h₀ h₁ h₂ h

theorem importBackup_ok (hjson : js.ReadsBack backup) {failure : Option Stop} {id : Identity} :
    importBackup js (.file (js.backup.render backup)) t failure = some (.ok id, e) ↔
      failure = none ∧ id = backup.identity ∧ complete (restore js backup) t = some e := by
  simp only [importBackup, hjson.file]
  cases failure with
  | none =>
    simp only [Option.map_eq_some_iff, Prod.mk.injEq, Except.ok.injEq, true_and]
    constructor
    · rintro ⟨f, hf, rfl, rfl⟩
      exact ⟨rfl, hf⟩
    · rintro ⟨rfl, hf⟩
      exact ⟨e, hf, rfl, rfl⟩
  | some stop => by_cases hs : stop.stages < (restore js backup).length <;> simp [hs]

theorem importBackup_error (hjson : js.ReadsBack backup) {failure : Option Stop} :
    (∃ err, importBackup js (.file (js.backup.render backup)) t failure = some (.error err, e)) ↔
      ∃ stop, failure = some stop ∧ stop.stages < (restore js backup).length ∧
        interrupt (restore js backup) t stop = some e := by
  simp only [importBackup, hjson.file]
  cases failure with
  | none => simp
  | some stop => by_cases hs : stop.stages < (restore js backup).length <;> simp [hs]

theorem restores_file (hjson : js.ReadsBack backup) (minted : Identity) (s t : Dir) :
    Restores js minted s t (.file (js.backup.render backup)) ↔
      (∀ e, complete (restore js backup) t = some e → SameLoads js minted e s) ∧
        ∀ stop e, stop.stages < (restore js backup).length →
          interrupt (restore js backup) t stop = some e → SameLoads js minted e t := by
  constructor
  · intro ⟨hok, herr⟩
    refine ⟨fun e he => ?_, fun stop e hs he => ?_⟩
    · exact hok none _ e ((importBackup_ok hjson).mpr ⟨rfl, rfl, he⟩)
    · obtain ⟨err, h⟩ := (importBackup_error hjson).mpr ⟨stop, rfl, hs, he⟩
      exact herr _ _ err e (.inl rfl) h
  · intro ⟨hok, herr⟩
    refine ⟨fun failure id e h => ?_, fun node failure err e hnode h => ?_⟩
    · exact hok e ((importBackup_ok hjson).mp h).2.2
    · obtain rfl | rfl | rfl := hnode
      · obtain ⟨stop, -, hs, he⟩ := (importBackup_error hjson).mp ⟨err, h⟩
        exact herr stop e hs he
      -- a backup that is not read leaves the directory
      · obtain ⟨-, rfl⟩ := Prod.mk.inj (Option.some.inj h)
        exact ⟨rfl, rfl⟩
      · obtain ⟨-, rfl⟩ := Prod.mk.inj (Option.some.inj h)
        exact ⟨rfl, rfl⟩

theorem interrupt_restore_early {stop : Stop} (hs : stop.stages < 5) :
    interrupt (restore js backup) t stop =
      interrupt (writeAtomic js.identity identityFile backup.identity) t stop := by
  rw [restore, interrupt_append, if_pos (by simpa [writeAtomic] using hs)]

theorem interrupt_restore_late {doc : WorkspaceDoc} (hdoc : backup.workspace = some doc) (k : ℕ)
    (n : Option ℕ) :
    interrupt (restore js backup) t ⟨5 + k, n⟩ =
      (complete (writeAtomic js.identity identityFile backup.identity) t).bind fun e =>
        interrupt (writeAtomic js.workspace workspaceFile doc) e ⟨k, n⟩ := by
  have hlen : (writeAtomic js.identity identityFile backup.identity).length = 5 := rfl
  simp [restore, interrupt_append, hdoc, hlen]

theorem length_restore (js : Jsons) (backup : Backup) :
    (restore js backup).length = if backup.workspace.isSome then 10 else 5 := by
  cases hdoc : backup.workspace <;> simp [restore, writeAtomic, hdoc]

theorem copySafe_identity (hjson : js.ReadsBack backup)
    (herr : ∀ stop e, stop.stages < (restore js backup).length →
      interrupt (restore js backup) t stop = some e → SameLoads js minted e t) :
    CopySafe js.identity t identityFile := by
  refine copySafe_of_found hjson.noIdentity fun hb node hcopy => ?_
  obtain ⟨n, e, he, hname, hbak⟩ :=
    exists_interrupt_copy js.identity backup.identity hcopy
  have hsame := herr ⟨3, some n⟩ e (by rw [length_restore]; split <;> simp)
    (by rw [interrupt_restore_early (by simp), he])
  refine ⟨e, hname, hbak, ?_⟩
  rw [found_iff_loadOrCreateIdentity minted hb.ne_missing,
    found_iff_loadOrCreateIdentity minted (hname ▸ hb.ne_missing), hsame.1]

theorem copySafe_workspace {f : Dir} {doc : WorkspaceDoc} (hjson : js.ReadsBack backup)
    (hdoc : backup.workspace = some doc)
    (hf : complete (writeAtomic js.identity identityFile backup.identity) t = some f)
    (herr : ∀ stop e, stop.stages < (restore js backup).length →
      interrupt (restore js backup) t stop = some e → SameLoads js minted e t) :
    CopySafe js.workspace t workspaceFile := by
  obtain ⟨hname, -⟩ := workspace_kept_of_complete hf
  refine copySafe_of_found hjson.noWorkspace fun hb node hcopy => ?_
  rw [← hname] at hcopy
  obtain ⟨n, e, he, hkept, hbak⟩ := exists_interrupt_copy js.workspace doc hcopy
  have hsame := herr ⟨5 + 3, some n⟩ e (by simp [length_restore, hdoc])
    (by rw [interrupt_restore_late hdoc, hf]; exact he)
  refine ⟨e, hkept.trans hname, hbak, ?_⟩
  rw [found_iff_loadWorkspace, found_iff_loadWorkspace, hsame.2]

theorem identity_reads (hjson : js.ReadsBack backup) {f : Dir}
    (hf : complete (writeAtomic js.identity identityFile backup.identity) t = some f) :
    Reads js.identity (f identityFile) backup.identity :=
  ⟨_, complete_writeAtomic hf, hjson.identity⟩

/-- A restore that returns over a restorable machine has brought back what was exported. -/
theorem sameLoads_of_complete (hjson : js.ReadsBack backup)
    (hid : (loadOrCreateIdentity js.identity s' minted).1 = .ok backup.identity)
    (hws : loadWorkspace js.workspace s' = .ok backup.workspace)
    (h : Restorable js minted t backup) (he : complete (restore js backup) t = some e) :
    SameLoads js minted e s' := by
  rw [restore, complete_append] at he
  obtain ⟨f, hf, he⟩ := Option.bind_eq_some_iff.mp he
  have hrest := h.2 (copied_of_complete hf)
  have hwritten := identity_reads hjson hf
  obtain ⟨hname, -⟩ := workspace_kept_of_complete hf
  unfold SameLoads
  rw [hid, hws]
  cases hdoc : backup.workspace with
  | none =>
    rw [hdoc] at hrest he
    obtain rfl := Option.some.inj he
    exact ⟨loadOrCreateIdentity_of_reads hwritten minted,
      loadWorkspace_of_missing (hname.trans hrest)⟩
  | some doc =>
    rw [hdoc] at he hws
    have hkept := identity_kept ((complete_eq _ _).symm.trans he)
    refine ⟨loadOrCreateIdentity_of_reads (by rwa [hkept]) minted, ?_⟩
    exact loadWorkspace_of_reads ⟨_, complete_writeAtomic he, hjson.workspace doc hdoc⟩
      (loadWorkspace_some.mp hws).2

theorem sameLoads_of_early {stop : Stop} (h : CopySafe js.identity t identityFile)
    (hearly : stop.stages < 5) (he : interrupt (restore js backup) t stop = some e) :
    SameLoads js minted e t := by
  rw [interrupt_restore_early hearly] at he
  obtain ⟨hname, hbak⟩ := interrupt_early hearly he
  obtain ⟨hws, hwsbak⟩ := workspace_kept he
  refine ⟨?_, loadWorkspace_congr (readWithFallback_congr hws hwsbak)⟩
  rw [loadOrCreateIdentity_fst, loadOrCreateIdentity_fst, read_of_early h hname hbak]

theorem sameLoads_of_late {doc : WorkspaceDoc} {k : ℕ} {n : Option ℕ}
    (hjson : js.ReadsBack backup) (h : Restorable js minted t backup)
    (hdoc : backup.workspace = some doc) (hlate : k < 5)
    (he : interrupt (restore js backup) t ⟨5 + k, n⟩ = some e) : SameLoads js minted e t := by
  rw [interrupt_restore_late hdoc] at he
  obtain ⟨f, hf, he⟩ := Option.bind_eq_some_iff.mp he
  have hrest := h.2 (copied_of_complete hf)
  rw [hdoc] at hrest
  obtain ⟨hname, hbak⟩ := workspace_kept_of_complete hf
  obtain ⟨hws, hwsbak⟩ := interrupt_early hlate he
  rw [hname] at hws hwsbak
  rw [hbak] at hwsbak
  refine ⟨?_, loadWorkspace_congr (read_of_early hrest.2 hws hwsbak)⟩
  rw [hrest.1]
  have hwritten := identity_reads hjson hf
  exact loadOrCreateIdentity_of_reads (by rwa [identity_kept he]) minted

/-- Where the restore is exact and all-or-nothing, the machine is restorable. -/
theorem restorable_of_restores (hjson : js.ReadsBack backup)
    (hws : loadWorkspace js.workspace s' = .ok backup.workspace)
    (hok : ∀ e, complete (restore js backup) t = some e → SameLoads js minted e s')
    (herr : ∀ stop e, stop.stages < (restore js backup).length →
      interrupt (restore js backup) t stop = some e → SameLoads js minted e t) :
    Restorable js minted t backup := by
  refine ⟨copySafe_identity hjson herr, fun hcopied => ?_⟩
  obtain ⟨f, hf⟩ : ∃ f, complete (writeAtomic js.identity identityFile backup.identity) t =
    some f := exists_complete hcopied
  obtain ⟨hname, -⟩ := workspace_kept_of_complete hf
  cases hdoc : backup.workspace with
  | none =>
    have hsame := hok f (by simp [restore, hdoc, hf])
    rw [← hname]
    exact missing_of_loadWorkspace (hsame.2.trans (hws.trans (by rw [hdoc])))
  | some doc =>
    have hsame := herr ⟨5 + 0, none⟩ f (by simp [length_restore, hdoc])
      (by rw [interrupt_restore_late hdoc, hf]; rfl)
    refine ⟨?_, copySafe_workspace hjson hdoc hf herr⟩
    rw [← hsame.1]
    exact loadOrCreateIdentity_of_reads (identity_reads hjson hf) minted

/-- Restoring a backup over a machine is exact and all-or-nothing exactly where that machine is
`Restorable`. -/
theorem restores_iff (h : exportBackup js s minted = (.ok backup, s'))
    (hjson : js.ReadsBack backup) :
    Restores js minted' s' t (.file (js.backup.render backup)) ↔
      Restorable js minted' t backup := by
  obtain ⟨hid, hws⟩ := exported h hjson minted'
  rw [restores_file hjson]
  constructor
  · intro ⟨hok, herr⟩
    exact restorable_of_restores hjson hws hok herr
  · intro hrest
    refine ⟨fun e he => sameLoads_of_complete hjson hid hws hrest he, fun stop e hs he => ?_⟩
    by_cases hearly : stop.stages < 5
    · exact sameLoads_of_early hrest.1 hearly he
    · cases hdoc : backup.workspace with
      | none => simp [length_restore, hdoc, hearly] at hs
      | some doc =>
        obtain ⟨k, hk⟩ := Nat.exists_eq_add_of_le (not_lt.mp hearly)
        have hstop : stop = ⟨5 + k, stop.bytes⟩ := by rw [← hk]
        have hlate : k < 5 := by
          simp only [length_restore, hdoc, Option.isSome_some, if_true] at hs
          omega
        rw [hstop] at he
        exact sameLoads_of_late hjson hrest hdoc hlate he

/-- The machine the backup was taken on, with another workspace by now. -/
theorem restores_desk :
    exportBackup sampleJsons (machineDir deskIdentity (some desk)) reinstalled =
      (.ok ⟨deskIdentity, some desk⟩, machineDir deskIdentity (some desk)) ∧
    Restores sampleJsons reinstalled (machineDir deskIdentity (some desk))
      (machineDir deskIdentity (some home)) (.file (backupText ⟨deskIdentity, some desk⟩)) := by
  have hid (doc : Option WorkspaceDoc) :
      Reads sampleJsons.identity (machineDir deskIdentity doc identityFile) deskIdentity :=
    machineDir_identity (by simp) doc
  have hhome : Reads sampleJson (machineDir deskIdentity (some home) workspaceFile) home :=
    machineDir_workspace (by simp) deskIdentity
  refine ⟨export_desk, (restores_iff export_desk sampleJsons_readsBack.1).mpr ?_⟩
  refine ⟨copySafe_of_reads (hid _), fun _ => ⟨?_, copySafe_of_reads hhome⟩⟩
  exact loadOrCreateIdentity_of_reads (hid _) reinstalled

/-- Over a reinstalled machine with a workspace, a backup without one leaves that workspace to the
backup's identity, and so does one with another workspace whose write fails at once. -/
theorem restore_mixes_machines :
    exportBackup sampleJsons (machineDir deskIdentity none) reinstalled =
      (.ok ⟨deskIdentity, none⟩, machineDir deskIdentity none) ∧
    exportBackup sampleJsons (machineDir deskIdentity (some desk)) reinstalled =
      (.ok ⟨deskIdentity, some desk⟩, machineDir deskIdentity (some desk)) ∧
    ¬ Restores sampleJsons reinstalled (machineDir deskIdentity none)
      (machineDir reinstalled (some home)) (.file (backupText ⟨deskIdentity, none⟩)) ∧
    ¬ Restores sampleJsons reinstalled (machineDir deskIdentity (some desk))
      (machineDir reinstalled (some home)) (.file (backupText ⟨deskIdentity, some desk⟩)) := by
  have hnone : exportBackup sampleJsons (machineDir deskIdentity none) reinstalled =
      (.ok ⟨deskIdentity, none⟩, machineDir deskIdentity none) :=
    exportBackup_of_reads (machineDir_identity (by simp) _) (loadWorkspace_of_missing (by decide)) _
  refine ⟨hnone, export_desk, fun h => ?_, fun h => ?_⟩
  · have hok : (importBackup sampleJsons (.file (backupText ⟨deskIdentity, none⟩))
        (machineDir reinstalled (some home)) none).map
          (fun r => (r.1, loadWorkspace sampleJson r.2)) =
        some (.ok deskIdentity, .ok (some home)) := by decide +kernel
    obtain ⟨⟨r, e⟩, he, hload⟩ := Option.map_eq_some_iff.mp hok
    obtain ⟨rfl, hload⟩ := Prod.mk.inj hload
    have hsame : loadWorkspace sampleJson e = _ := (h.1 none _ e he).2
    rw [hload, loadWorkspace_of_missing (by decide)] at hsame
    cases hsame
  · have herr : (importBackup sampleJsons (.file (backupText ⟨deskIdentity, some desk⟩))
        (machineDir reinstalled (some home)) (some ⟨5, none⟩)).map
          (fun r => (r.1, (loadOrCreateIdentity sampleJsons.identity r.2 reinstalled).1)) =
        some (.error (.io (tmp workspaceFile)), .ok deskIdentity) := by decide +kernel
    obtain ⟨⟨r, e⟩, he, hload⟩ := Option.map_eq_some_iff.mp herr
    obtain ⟨rfl, hload⟩ := Prod.mk.inj hload
    have hsame := (h.2 _ _ _ e (.inl rfl) he).1
    rw [hload, loadOrCreateIdentity_of_reads (machineDir_identity (by simp) _)] at hsame
    exact absurd (Except.ok.inj hsame) (by decide)

end InputShare.Store

import InputShare.Core.Model
import InputShare.Lib.Files

/-! Local persistence of the workspace: a temporary file, a copy of the previous one, a rename,
and a reader that falls back to the copy. The serializer is a parameter. -/
namespace InputShare
open Files

/-- What `serde_json` does with a type: the bytes written for a value and the value read back. -/
structure Json (α : Type*) where
  render : α → Bytes
  parse : Bytes → Option α

namespace Store

def workspaceFile : String := "workspace.json"
def bak (name : String) : String := name ++ ".bak"
def tmp (name : String) : String := name ++ ".tmp"

variable {α : Type*}

def readJson (json : Json α) (d : Dir) (path : String) : Except CoreError (Option α) :=
  match d path with
  | .file bytes =>
    match json.parse bytes with
    | some value => .ok (some value)
    | none => .error (.parse path)
  | .missing => .ok none
  | .unreadable => .error (.io path)

/-- Reads `name`, falling back to the `.bak` copy if the primary file is unreadable. -/
def readWithFallback (json : Json α) (d : Dir) (name : String) : Except CoreError (Option α) :=
  match readJson json d name with
  | .ok value => .ok value
  | .error primary =>
    match readJson json d (bak name) with
    | .ok (some value) => .ok (some value)
    | _ => .error primary

/-- Temp file, fsync, keep a `.bak`, then rename into place. -/
def writeAtomic (json : Json α) (name : String) (value : α) : List Stage :=
  [fun _ => some (.create (tmp name)),
   fun _ => some (.write (tmp name) (json.render value)),
   fun _ => some (.sync (tmp name)),
   fun d => if d name = .missing then none else some (.copy name (bak name)),
   fun _ => some (.rename (tmp name) name)]

def loadWorkspace (json : Json WorkspaceDoc) (d : Dir) : Except CoreError (Option WorkspaceDoc) :=
  match readWithFallback json d workspaceFile with
  | .ok (some doc) =>
    if doc.schemaVersion > WorkspaceDoc.supportedSchema then
      .error (.schemaVersion doc.schemaVersion WorkspaceDoc.supportedSchema)
    else .ok (some doc)
  | other => other

def saveWorkspace (json : Json WorkspaceDoc) (doc : WorkspaceDoc) : List Stage :=
  writeAtomic json workspaceFile doc

/-- Forgets the workspace; a file that is not there is none to remove. -/
def clearWorkspace : List Stage :=
  [workspaceFile, bak workspaceFile, tmp workspaceFile].map fun name d =>
    if d name = .missing then none else some (.remove name)

/-- A directory that holds just a primary and, when given, its backup. -/
def dirOf (primary : Bytes) (backup : Node) : Dir := fun path =>
  if path = workspaceFile then .file primary
  else if path = bak workspaceFile then backup
  else .missing

/-! What the steps of a save can leave behind. -/

theorem bak_ne (name : String) : bak name ≠ name := by
  intro h
  have := congrArg String.length h
  simp [bak, String.length_append] at this

theorem tmp_ne (name : String) : tmp name ≠ name := by
  intro h
  have := congrArg String.length h
  simp [tmp, String.length_append] at this

theorem tmp_ne_bak (name : String) : tmp name ≠ bak name := by
  simp [tmp, bak]

/-- The node a copy of `src` can leave, finished or not. -/
inductive CopyOf : Node → Node → Prop where
  | part (a : Bytes) (n : ℕ) : CopyOf (.file a) (.file (a.take n))
  | unreadable : CopyOf .unreadable (.file [])

theorem copy_complete {d e : Dir} {src dst : String}
    (h : (FileOp.copy src dst).complete d = some e) :
    ∃ node, CopyOf (d src) node ∧ e = Function.update d dst node := by
  unfold FileOp.complete at h
  cases hs : d src with
  | file a =>
    simp only [hs, Option.some.injEq] at h
    exact ⟨.file a, by simpa using CopyOf.part a a.length, h.symm⟩
  | missing => simp [hs] at h
  | unreadable => simp [hs] at h

theorem copy_tear {d e : Dir} {src dst : String} {n : ℕ}
    (h : (FileOp.copy src dst).tear d n = some e) :
    ∃ node, CopyOf (d src) node ∧ e = Function.update d dst node := by
  unfold FileOp.tear at h
  cases hs : d src with
  | file a =>
    simp only [hs, Option.some.injEq] at h
    exact ⟨_, .part a n, h.symm⟩
  | missing => simp [hs] at h
  | unreadable =>
    simp only [hs, Option.some.injEq] at h
    exact ⟨_, .unreadable, h.symm⟩

/-- Everything an interrupted write can do to the two files a reader looks at: the primary is
the old one or the new one, and the backup is the old one or a copy of the old primary. -/
theorem interrupt_writeAtomic {json : Json α} {name : String} {v : α} {d e : Dir} {s : Stop}
    (h : interrupt (writeAtomic json name v) d s = some e) :
    (e name = d name ∨ e name = .file (json.render v)) ∧
      (e (bak name) = d (bak name) ∨ CopyOf (d name) (e (bak name))) := by
  have h₁ := bak_ne name
  have h₂ := tmp_ne name
  have h₃ := tmp_ne_bak name
  unfold writeAtomic at h
  -- the temporary file
  obtain rfl | ⟨op, n, hop, he⟩ | ⟨f₁, t, hf, h⟩ := interrupt_cons h
  · simp
  · obtain rfl := Option.some.inj hop
    simp [FileOp.tear] at he
  simp only [Stage.run, FileOp.complete, Option.some.injEq] at hf
  subst hf
  obtain rfl | ⟨op, n, hop, he⟩ | ⟨f₂, t, hf, h⟩ := interrupt_cons h
  · simp [h₂.symm, h₃.symm]
  · obtain rfl := Option.some.inj hop
    simp only [FileOp.tear, Function.update_self, Option.some.injEq] at he
    simp [← he, h₂.symm, h₃.symm]
  simp only [Stage.run, FileOp.complete, Function.update_self, Option.some.injEq,
    Function.update_idem, List.nil_append] at hf
  subst hf
  obtain rfl | ⟨op, n, hop, he⟩ | ⟨f₃, t, hf, h⟩ := interrupt_cons h
  · simp [h₂.symm, h₃.symm]
  · obtain rfl := Option.some.inj hop
    simp [FileOp.tear] at he
  simp only [Stage.run, FileOp.complete, Option.some.injEq] at hf
  subst hf
  set f := Function.update d (tmp name) (Node.file (json.render v)) with hfdef
  have hname : f name = d name := by simp [f, h₂.symm]
  have hbak : f (bak name) = d (bak name) := by simp [f, h₃.symm]
  have htmp : f (tmp name) = .file (json.render v) := by simp [f]
  -- the copy, then the rename
  obtain rfl | ⟨op, n, hop, he⟩ | ⟨g, t, hg, h⟩ := interrupt_cons h
  · exact ⟨.inl hname, .inl hbak⟩
  · split at hop
    · cases hop
    obtain rfl := Option.some.inj hop
    obtain ⟨node, hc, rfl⟩ := copy_tear he
    rw [hname] at hc
    exact ⟨.inl (by simp [h₁.symm, hname]), .inr (by simpa using hc)⟩
  have hgspec : g name = d name ∧ g (tmp name) = .file (json.render v) ∧
      (g (bak name) = d (bak name) ∨ CopyOf (d name) (g (bak name))) := by
    by_cases hm : d name = .missing
    · simp only [Stage.run, hname, hm, if_true, Option.some.injEq] at hg
      subst hg
      exact ⟨hname, htmp, .inl hbak⟩
    · simp only [Stage.run, hname, hm, if_false] at hg
      obtain ⟨node, hc, rfl⟩ := copy_complete hg
      rw [hname] at hc
      exact ⟨by simp [h₁.symm, hname], by simp [h₃, htmp], .inr (by simpa using hc)⟩
  obtain ⟨hgn, hgt, hgb⟩ := hgspec
  obtain rfl | ⟨op, n, hop, he⟩ | ⟨k, t, hk, h⟩ := interrupt_cons h
  · exact ⟨.inl hgn, hgb⟩
  · obtain rfl := Option.some.inj hop
    simp [FileOp.tear] at he
  · obtain rfl := interrupt_nil h
    simp only [Stage.run, FileOp.complete, hgt, Option.some.injEq] at hk
    subst hk
    exact ⟨.inr (by simp), by simpa [h₁, h₃.symm] using hgb⟩

theorem complete_writeAtomic {json : Json α} {name : String} {v : α} {d e : Dir}
    (h : complete (writeAtomic json name v) d = some e) : e name = .file (json.render v) := by
  have h₂ := tmp_ne name
  have h₃ := tmp_ne_bak name
  simp only [writeAtomic, complete, Stage.run, FileOp.complete, Function.update_self,
    Option.bind_some, Function.update_idem, List.nil_append, Option.bind_eq_some_iff] at h
  obtain ⟨g, hg, f, hf, he⟩ := h
  obtain rfl := Option.some.inj he
  -- the copy leaves the temporary file alone
  have htmp : g (tmp name) = .file (json.render v) := by
    split at hg
    · obtain rfl := Option.some.inj hg
      simp
    · rename_i op hop
      split at hop
      · cases hop
      · obtain rfl := Option.some.inj hop
        obtain ⟨node, -, rfl⟩ := copy_complete hg
        simp [h₃]
  rw [htmp] at hf
  obtain rfl := Option.some.inj hf
  simp

/-! Which saves never lose the workspace. -/

def Reads (json : Json α) (node : Node) (value : α) : Prop :=
  ∃ bytes, node = .file bytes ∧ json.parse bytes = some value

def Broken (json : Json α) (node : Node) : Prop :=
  node = .unreadable ∨ ∃ bytes, node = .file bytes ∧ json.parse bytes = none

theorem readJson_some {json : Json α} {d : Dir} (path : String) {v : α} :
    readJson json d path = .ok (some v) ↔ Reads json (d path) v := by
  unfold readJson Reads
  cases hd : d path with
  | missing => simp
  | unreadable => simp
  | file a => cases hp : json.parse a <;> simp [hp]

theorem readJson_error {json : Json α} {d : Dir} {path : String} :
    (∃ err, readJson json d path = .error err) ↔ Broken json (d path) := by
  unfold readJson Broken
  cases hd : d path with
  | missing => simp
  | unreadable => simp
  | file a => cases hp : json.parse a <;> simp [hp]

theorem Broken.not_reads {json : Json α} {node : Node} {v : α} (h : Broken json node) :
    ¬ Reads json node v := by
  rintro ⟨b, rfl, hb⟩
  obtain h | ⟨c, h, hc⟩ := h
  · cases h
  · cases h
    rw [hb] at hc
    cases hc

theorem readWithFallback_some {json : Json α} {d : Dir} {name : String} {v : α} :
    readWithFallback json d name = .ok (some v) ↔
      Reads json (d name) v ∨ Broken json (d name) ∧ Reads json (d (bak name)) v := by
  cases hr : readJson json d name with
  | ok o =>
    have hnb : ¬ Broken json (d name) := by
      rw [← readJson_error, hr]
      simp
    simp [readWithFallback, hr, hnb, ← readJson_some name]
  | error err =>
    have hb : Broken json (d name) := readJson_error.mp ⟨err, hr⟩
    simp only [readWithFallback, hr, hb, hb.not_reads, ← readJson_some (bak name),
      true_and, false_or]
    obtain e | _ | x := readJson json d (bak name) <;> simp

theorem loadWorkspace_some {json : Json WorkspaceDoc} {d : Dir} {doc : WorkspaceDoc} :
    loadWorkspace json d = .ok (some doc) ↔
      readWithFallback json d workspaceFile = .ok (some doc) ∧
        doc.schemaVersion ≤ WorkspaceDoc.supportedSchema := by
  unfold loadWorkspace
  obtain e | _ | x := readWithFallback json d workspaceFile
  · simp
  · simp
  · by_cases hx : x.schemaVersion > WorkspaceDoc.supportedSchema
    · simp only [hx, if_true, reduceCtorEq, Except.ok.injEq, Option.some.injEq, false_iff]
      rintro ⟨rfl, h⟩
      omega
    · simp only [hx, if_false, Except.ok.injEq, Option.some.injEq]
      constructor
      · rintro rfl
        exact ⟨rfl, not_lt.mp hx⟩
      · exact And.left

theorem loadWorkspace_of_reads {json : Json WorkspaceDoc} {d : Dir} {doc : WorkspaceDoc}
    (h : Reads json (d workspaceFile) doc)
    (hs : doc.schemaVersion ≤ WorkspaceDoc.supportedSchema) :
    loadWorkspace json d = .ok (some doc) :=
  loadWorkspace_some.mpr ⟨readWithFallback_some.mpr (.inl h), hs⟩

theorem loadWorkspace_of_missing {json : Json WorkspaceDoc} {d : Dir}
    (h : d workspaceFile = .missing) : loadWorkspace json d = .ok none := by
  simp [loadWorkspace, readWithFallback, readJson, h]

theorem missing_of_readJson {json : Json α} {d : Dir} {path : String}
    (h : readJson json d path = .ok none) : d path = .missing := by
  unfold readJson at h
  cases hd : d path with
  | missing => rfl
  | unreadable => simp [hd] at h
  | file b => cases hp : json.parse b <;> simp [hd, hp] at h

theorem missing_of_loadWorkspace {json : Json WorkspaceDoc} {d : Dir}
    (h : loadWorkspace json d = .ok none) : d workspaceFile = .missing := by
  suffices hread : readJson json d workspaceFile = .ok none from missing_of_readJson hread
  unfold loadWorkspace readWithFallback at h
  cases hr : readJson json d workspaceFile with
  | ok value =>
    cases value with
    | none => rfl
    | some doc =>
      simp only [hr] at h
      split at h <;> cases h
  | error err =>
    simp only [hr] at h
    rcases hb : readJson json d (bak workspaceFile) with e | _ | x
    · simp [hb] at h
    · simp [hb] at h
    · simp only [hb] at h
      split at h <;> cases h

theorem not_loadWorkspace_of_broken {json : Json WorkspaceDoc} {d : Dir} {doc : WorkspaceDoc}
    (h : Broken json (d workspaceFile)) (hb : Broken json (d (bak workspaceFile))) :
    loadWorkspace json d ≠ .ok (some doc) := by
  intro hl
  obtain h' | ⟨_, h'⟩ := readWithFallback_some.mp (loadWorkspace_some.mp hl).1
  · exact h.not_reads h'
  · exact hb.not_reads h'

/-- A save over a broken primary copies it over the backup before anything else is in place. -/
theorem exists_interrupt_broken {json : Json α} (hempty : json.parse [] = none) {name : String}
    {v : α} {d : Dir} (h : Broken json (d name)) :
    ∃ s e, interrupt (writeAtomic json name v) d s = some e ∧ Broken json (e name) ∧
      Broken json (e (bak name)) := by
  have h₁ := bak_ne name
  have h₂ := tmp_ne name
  set f := Function.update d (tmp name) (Node.file (json.render v))
  obtain h | ⟨b, h, hb⟩ := h
  · refine ⟨⟨3, some 0⟩, Function.update f (bak name) (.file []), ?_, ?_⟩
    · simp [writeAtomic, interrupt, Stage.run, FileOp.complete, FileOp.tear, h₂.symm, h, f]
    · simp [h₁.symm, h₂.symm, h, Broken, hempty, f]
  · refine ⟨⟨4, none⟩, Function.update f (bak name) (.file b), ?_, ?_⟩
    · simp [writeAtomic, interrupt, Stage.run, FileOp.complete, h₂.symm, h, f]
    · simp [h₁.symm, h₂.symm, h, Broken, hb, f]

/-- Every way a save can be interrupted leaves the old or the new workspace exactly when the
primary file itself still parses: over a recovered one the save first destroys the backup. -/
theorem interrupted_save_keeps_workspace_iff (json : Json WorkspaceDoc)
    (hempty : json.parse [] = none) (d : Dir) (old new : WorkspaceDoc)
    (hold : loadWorkspace json d = .ok (some old))
    (hnew : new.schemaVersion ≤ WorkspaceDoc.supportedSchema)
    (hround : json.parse (json.render new) = some new) :
    (∀ s e, interrupt (saveWorkspace json new) d s = some e →
      loadWorkspace json e = .ok (some old) ∨ loadWorkspace json e = .ok (some new)) ↔
      ∃ doc, Reads json (d workspaceFile) doc := by
  obtain ⟨hread, hschema⟩ := loadWorkspace_some.mp hold
  constructor
  · intro hall
    obtain h | ⟨hb, _⟩ := readWithFallback_some.mp hread
    · exact ⟨old, h⟩
    · obtain ⟨s, e, he, hn, hk⟩ := exists_interrupt_broken hempty (v := new) hb
      obtain hl | hl := hall s e he
      · exact absurd hl (not_loadWorkspace_of_broken hn hk)
      · exact absurd hl (not_loadWorkspace_of_broken hn hk)
  · rintro ⟨doc, hdoc⟩ s e he
    have hprimary : Reads json (d workspaceFile) old := by
      obtain h | ⟨hb, _⟩ := readWithFallback_some.mp hread
      · exact h
      · exact absurd hdoc hb.not_reads
    obtain h | h := (interrupt_writeAtomic he).1
    · left
      exact loadWorkspace_of_reads (by rwa [h]) hschema
    · right
      exact loadWorkspace_of_reads ⟨_, h, hround⟩ hnew

/-! The run that loses a workspace: recover it from the backup, then save. -/

def desk : WorkspaceDoc := .create 7 0 "Desk" studio
def home : WorkspaceDoc := (desk.setName 1 0 "Home").1
def loft : WorkspaceDoc := (desk.setName 1 0 "Loft").1

/-- The text of one of the documents above, as the pretty printer lays it out. -/
def sampleText (doc : WorkspaceDoc) : Bytes :=
  let id := "\"00000000-0000-0000-0000-000000000001\""
  let clock := if doc.lamport = 1 then "1" else "2"
  let stamp (indent lamport : String) := "\"stamp\": \x7b\n" ++ indent ++ "  \"lamport\": " ++
    lamport ++ ",\n" ++ indent ++ "  \"origin\": " ++ id ++ ",\n" ++ indent ++
    "  \"wall_clock_ms\": 0\n" ++ indent ++ "\x7d"
  ("\x7b\n  \"workspace_id\": \"00000000-0000-0000-0000-000000000007\",\n" ++
    "  \"schema_version\": " ++ toString doc.schemaVersion ++ ",\n" ++
    "  \"name\": \x7b\n    \"value\": \"" ++ doc.name.value ++ "\",\n    " ++
    stamp "    " clock ++ "\n  \x7d,\n  \"lamport\": " ++ clock ++ ",\n" ++
    "  \"machines\": \x7b\n    " ++ id ++ ": \x7b\n      " ++ stamp "      " "1" ++ ",\n" ++
    "      \"state\": \x7b\n        \"present\": \x7b\n          \"id\": " ++ id ++ ",\n" ++
    "          \"display_name\": \"Studio\",\n          \"platform\": \"mac_os\",\n" ++
    "          \"public_key\": \"00000000000000000000000000000000" ++
    "0000000000000000000000000000000b\",\n          \"position\": \x7b\n" ++
    "            \"x\": 0,\n            \"y\": 0\n          \x7d,\n" ++
    "          \"displays\": [],\n          \"input\": \x7b\n" ++
    "            \"provides_keyboard\": true,\n            \"provides_mouse\": true\n" ++
    "          \x7d,\n          \"paired_at_ms\": 0\n        \x7d\n      \x7d\n    \x7d\n  \x7d,\n" ++
    "  \"settings\": \x7b\n    \"value\": \x7b\n      \"clipboard_sync\": true,\n" ++
    "      \"offline_edge\": \"block\",\n      \"discovery_port\": 47451,\n" ++
    "      \"transport_port\": 47452,\n      \"preferred_interfaces\": [],\n" ++
    "      \"autostart\": true\n    \x7d,\n    " ++ stamp "    " "1" ++
    "\n  \x7d\n\x7d").toUTF8.data.toList

/-- The serializer on those documents and their texts. -/
def sampleJson : Json WorkspaceDoc where
  render := sampleText
  parse bytes := [desk, home, loft].find? fun doc => sampleText doc = bytes

def tornText : Bytes := "\x7b\"workspace_id\":".toUTF8.data.toList

theorem sampleText_ne : sampleText desk ≠ sampleText home ∧ sampleText desk ≠ sampleText loft ∧
    sampleText home ≠ sampleText loft := by
  decide +kernel

theorem length_sampleText : (sampleText home).length = (sampleText desk).length ∧
    (sampleText loft).length = (sampleText desk).length := by
  decide +kernel

theorem sampleJson_render {doc : WorkspaceDoc} (h : doc ∈ [desk, home, loft]) :
    sampleJson.parse (sampleJson.render doc) = some doc := by
  obtain ⟨h₁, h₂, h₃⟩ := sampleText_ne
  simp only [List.mem_cons, List.not_mem_nil, or_false] at h
  obtain rfl | rfl | rfl := h <;> simp [sampleJson, h₁, h₂, h₃]

theorem sampleJson_short {bytes : Bytes} (h : bytes.length < (sampleText desk).length) :
    sampleJson.parse bytes = none := by
  obtain ⟨h₁, h₂⟩ := length_sampleText
  simp only [sampleJson, List.find?_eq_none, List.mem_cons, List.not_mem_nil, or_false,
    decide_eq_true_eq]
  rintro doc (rfl | rfl | rfl) rfl <;> omega

theorem sampleJson_take {doc e : WorkspaceDoc} (h : doc ∈ [desk, home, loft]) {n : ℕ}
    (hp : sampleJson.parse ((sampleJson.render doc).take n) = some e) : e = doc := by
  by_cases hn : ((sampleJson.render doc).take n).length < (sampleText desk).length
  · rw [sampleJson_short hn] at hp
    cases hp
  · have hlen : (sampleJson.render doc).length = (sampleText desk).length := by
      obtain ⟨h₁, h₂⟩ := length_sampleText
      simp only [List.mem_cons, List.not_mem_nil, or_false] at h
      obtain rfl | rfl | rfl := h
      · rfl
      · exact h₁
      · exact h₂
    rw [List.length_take] at hn
    rw [List.take_of_length_le (by omega), sampleJson_render h] at hp
    exact (Option.some.inj hp).symm

theorem short_texts : ([] : Bytes).length < (sampleText desk).length ∧
    tornText.length < (sampleText desk).length := by
  decide +kernel

theorem save_over_intact_keeps_workspace :
    loadWorkspace sampleJson (dirOf (sampleText desk) .missing) = .ok (some desk) ∧
      ∀ s e, interrupt (saveWorkspace sampleJson home) (dirOf (sampleText desk) .missing) s =
        some e → loadWorkspace sampleJson e = .ok (some desk) ∨
          loadWorkspace sampleJson e = .ok (some home) := by
  have hdesk : Reads sampleJson (dirOf (sampleText desk) .missing workspaceFile) desk :=
    ⟨_, rfl, sampleJson_render (by simp)⟩
  have hload := loadWorkspace_of_reads hdesk (by decide)
  exact ⟨hload, (interrupted_save_keeps_workspace_iff sampleJson
    (sampleJson_short short_texts.1) _ desk home hload (by decide)
    (sampleJson_render (by simp))).mpr ⟨desk, hdesk⟩⟩

/-- The primary is torn, the backup intact: stopped after its copy, the save leaves no file that
parses. -/
theorem save_after_recovery_loses_workspace :
    home.schemaVersion ≤ WorkspaceDoc.supportedSchema ∧
      sampleJson.parse (sampleJson.render home) = some home ∧
      loadWorkspace sampleJson (dirOf tornText (.file (sampleText desk))) = .ok (some desk) ∧
      ∃ e, interrupt (saveWorkspace sampleJson home)
          (dirOf tornText (.file (sampleText desk))) ⟨4, none⟩ = some e ∧
        loadWorkspace sampleJson e = .error (.parse "workspace.json") := by
  have htorn := sampleJson_short short_texts.2
  refine ⟨by decide, sampleJson_render (by simp), ?_, _, rfl, ?_⟩
  · refine loadWorkspace_some.mpr ⟨readWithFallback_some.mpr (.inr ⟨.inr ⟨_, rfl, htorn⟩, ?_⟩),
      by decide⟩
    exact ⟨sampleText desk, rfl, sampleJson_render (by simp)⟩
  · simp [loadWorkspace, readWithFallback, readJson, htorn, dirOf, workspaceFile, bak, tmp]

end Store
end InputShare

import InputShare.Core.Backup
import InputShare.Lib.Cells

/-! The configuration of one computer over its whole life: launches, changes, exports and restores,
each of which may be cut short at any byte, and what the next launch finds. -/
namespace InputShare.Store
open Files Runs Cells

/-- Choices that belong to this computer and travel with nothing. -/
structure LocalPrefs where
  /-- Whether sharing was on when this machine was last used. -/
  sharing : Bool := false
deriving DecidableEq, Repr

def prefsFile : String := "local-prefs.json"

def loadPrefs (json : Json LocalPrefs) (d : Dir) : LocalPrefs :=
  match readWithFallback json d prefsFile with
  | .ok (some prefs) => prefs
  | .ok none => {}
  | .error _ => {}

def savePrefs (json : Json LocalPrefs) (prefs : LocalPrefs) : List Stage :=
  writeAtomic json prefsFile prefs

def rememberSharing (json : Json LocalPrefs) (d : Dir) (enabled : Bool) : List Stage :=
  let prefs := loadPrefs json d
  if prefs.sharing = enabled then [] else savePrefs json { prefs with sharing := enabled }

/-- What `fs::write` does to a file. -/
def writeFile (path : String) (bytes : Bytes) : List Stage :=
  [fun _ => some (.create path), fun _ => some (.write path bytes)]

def rescueFile (nowMs : ℕ) : String := "workspace-replaced-" ++ toString nowMs ++ ".json"

/-- What a launch on an empty directory makes up. -/
structure Fresh where
  identity : Identity
  workspaceId : WorkspaceId
  now : ℕ
  computerName : String
  localRecord : Identity → MachineRecord

def Fresh.doc (f : Fresh) (identity : Identity) : WorkspaceDoc :=
  .create f.workspaceId f.now f.computerName (f.localRecord identity)

/-- The file part of `Agent::load`: the identity, and the workspace or a new one. -/
def load (js : Jsons) (d : Dir) (f : Fresh) :
    Except CoreError (Identity × WorkspaceDoc) × Dir :=
  match loadOrCreateIdentity js.identity d f.identity with
  | (.error err, d) => (.error err, d)
  | (.ok identity, d) =>
    match loadWorkspace js.workspace d with
    | .error err => (.error err, d)
    | .ok (some doc) => (.ok (identity, doc), d)
    | .ok none =>
      match complete (saveWorkspace js.workspace (f.doc identity)) d with
      | some e => (.ok (identity, f.doc identity), e)
      | none => (.error (.io workspaceFile), d)

def ownFiles : List String :=
  [identityFile, workspaceFile, prefsFile].flatMap fun name => [name, tmp name, bak name]

theorem rescueFile_apart (nowMs : ℕ) : rescueFile nowMs ∉ ownFiles := by
  have hown : ∀ name ∈ ownFiles, ¬ "workspace-replaced-".toList <+: name.toList := by
    decide +kernel
  intro h
  refine hown _ h ?_
  unfold rescueFile
  rw [String.toList_append, String.toList_append, List.append_assoc]
  exact List.prefix_append _ _

/-! What one file holds. -/

variable {α : Type*} {json : Json α} {name : String} {d e : Dir} {u v : Option α}

def Stores (json : Json α) (node : Node) : Option α → Prop
  | none => node = .missing
  | some v => Reads json node v

def RoundTrips (json : Json α) (v : α) : Prop := json.parse (json.render v) = some v

theorem Stores.read (h : Stores json (d name) v) : readWithFallback json d name = .ok v := by
  cases v with
  | none =>
    have hmissing : d name = .missing := h
    simp [readWithFallback, readJson, hmissing]
  | some v => exact readWithFallback_some.mpr (.inl h)

/-- The files a write of `name` may touch. -/
def own (name : String) : List String := [name, tmp name, bak name]

/-- A program of the store, to the end or cut short. -/
def finish (stages : List Stage) (d : Dir) : Option Stop → Option Dir
  | none => complete stages d
  | some stop => interrupt stages d stop

theorem finish_eq (stages : List Stage) (d : Dir) (cut : Option Stop) :
    finish stages d cut = interrupt stages d (cut.getD ⟨stages.length, none⟩) := by
  cases cut with
  | none => exact complete_eq stages d
  | some stop => rfl

theorem finish_append {a b : List Stage} {cut : Option Stop}
    (h : finish (a ++ b) d cut = some e) :
    (∃ stop, cut = some stop ∧ interrupt a d stop = some e) ∨
      ∃ f rest, complete a d = some f ∧ finish b f rest = some e ∧ rest.isNone = cut.isNone := by
  cases cut with
  | none =>
    rw [finish, complete_append] at h
    obtain ⟨f, hf, he⟩ := Option.bind_eq_some_iff.mp h
    exact .inr ⟨f, none, hf, he, rfl⟩
  | some stop =>
    rw [finish, interrupt_append] at h
    split at h
    · exact .inl ⟨stop, rfl, h⟩
    · obtain ⟨f, hf, he⟩ := Option.bind_eq_some_iff.mp h
      exact .inr ⟨f, some _, hf, he, rfl⟩

theorem frame_of_finish {v : α} {cut : Option Stop}
    (h : finish (writeAtomic json name v) d cut = some e) :
    ∀ path ∉ own name, e path = d path := by
  intro path hpath
  simp only [own, List.mem_cons, List.not_mem_nil, or_false, not_or] at hpath
  rw [finish_eq] at h
  exact interrupt_frame hpath.1 hpath.2.1 hpath.2.2 h

theorem stores_of_finish {v : α} {cut : Option Stop} (hv : RoundTrips json v)
    (h : finish (writeAtomic json name v) d cut = some e) (hu : Stores json (d name) u) :
    ∃ x, (x = some v ∨ cut.isNone = false ∧ x = u) ∧ Stores json (e name) x := by
  cases cut with
  | none => exact ⟨some v, .inl rfl, _, complete_writeAtomic h, hv⟩
  | some stop =>
    obtain hsame | hnew := (interrupt_writeAtomic h).1
    · exact ⟨u, .inr ⟨rfl, rfl⟩, hsame ▸ hu⟩
    · exact ⟨some v, .inl rfl, _, hnew, hv⟩

theorem kept_or_cleared {cut : Option Stop} (h : finish clearWorkspace d cut = some e)
    (path : String) : e path = d path ∨ path ∈ own workspaceFile ∧ e path = .missing := by
  rw [finish_eq] at h
  refine interrupt_keeps
    (P := fun f => f path = d path ∨ path ∈ own workspaceFile ∧ f path = .missing)
    ?_ ?_ h (.inl rfl)
  · intro st hst f g op hf hop hg
    obtain ⟨name, hname, rfl⟩ := List.mem_map.mp hst
    dsimp only at hop
    split at hop
    · cases hop
    rename_i hthere
    obtain rfl := Option.some.inj hop
    simp only [FileOp.complete, Option.some.injEq] at hg
    subst hg
    by_cases hp : path = name
    · subst hp
      simp only [List.mem_cons, List.not_mem_nil, or_false] at hname
      exact .inr ⟨by simp only [own, List.mem_cons, List.not_mem_nil, or_false]; tauto,
        Function.update_self ..⟩
    · rwa [Function.update_of_ne hp]
  · intro st hst f g op n hf hop hg
    obtain ⟨name, -, rfl⟩ := List.mem_map.mp hst
    dsimp only at hop
    split at hop
    · cases hop
    · obtain rfl := Option.some.inj hop
      cases hg

/-- The primary goes first: a clear that returned has removed it, and one that was cut short has,
or has done nothing. -/
theorem stores_of_clear {json : Json WorkspaceDoc} {u : Option WorkspaceDoc} {cut : Option Stop}
    (h : finish clearWorkspace d cut = some e) (hu : Stores json (d workspaceFile) u) :
    ∃ x, (x = none ∨ cut.isNone = false ∧ x = u) ∧ Stores json (e workspaceFile) x := by
  cases cut with
  | none =>
    rw [finish, complete_eq] at h
    obtain ⟨hk, -⟩ | ⟨-, hgone, -⟩ := stop_clearWorkspace h
    · cases hk
    · exact ⟨none, .inl rfl, hgone⟩
  | some stop =>
    obtain hkept | ⟨-, hgone⟩ := kept_or_cleared h workspaceFile
    · exact ⟨u, .inr ⟨rfl, rfl⟩, hkept ▸ hu⟩
    · exact ⟨none, .inl rfl, hgone⟩

theorem file_of_writeFile {path : String} {bytes : Bytes}
    (h : complete (writeFile path bytes) d = some e) : e path = .file bytes := by
  simp only [writeFile, complete, Stage.run, FileOp.complete, Option.bind_some,
    Function.update_self, List.nil_append, Function.update_idem, Option.some.injEq] at h
  rw [← h, Function.update_self]

theorem frame_of_writeFile {path : String} {bytes : Bytes} {cut : Option Stop}
    (h : finish (writeFile path bytes) d cut = some e) : ∀ p ≠ path, e p = d p := by
  intro p hp
  rw [finish_eq] at h
  refine interrupt_keeps (P := fun f => f p = d p) ?_ ?_ h rfl
  · intro st hst f g op hf hop hg
    simp only [writeFile, List.mem_cons, List.not_mem_nil, or_false] at hst
    obtain rfl | rfl := hst
    · obtain rfl := Option.some.inj hop
      obtain rfl := Option.some.inj hg
      rwa [Function.update_of_ne hp]
    · obtain rfl := Option.some.inj hop
      simp only [FileOp.complete] at hg
      split at hg
      · obtain rfl := Option.some.inj hg
        rwa [Function.update_of_ne hp]
      · cases hg
  · intro st hst f g op n hf hop hg
    simp only [writeFile, List.mem_cons, List.not_mem_nil, or_false] at hst
    obtain rfl | rfl := hst
    · obtain rfl := Option.some.inj hop
      cases hg
    · obtain rfl := Option.some.inj hop
      simp only [FileOp.tear] at hg
      split at hg
      · obtain rfl := Option.some.inj hg
        rwa [Function.update_of_ne hp]
      · cases hg

theorem loadOrCreateIdentity_spec {json : Json Identity} {d : Dir} {v : Option Identity}
    {minted : Identity} (hm : RoundTrips json minted) (hv : Stores json (d identityFile) v) :
    ∃ e, loadOrCreateIdentity json d minted = (.ok (v.getD minted), e) ∧
      (∀ path ∉ own identityFile, e path = d path) ∧
      Stores json (e identityFile) (some (v.getD minted)) := by
  cases v with
  | some id => exact ⟨d, by simp only [loadOrCreateIdentity, hv.read]; rfl, fun _ _ => rfl, hv⟩
  | none =>
    have hmissing : d identityFile = .missing := hv
    obtain ⟨e, he⟩ : ∃ e, complete (writeAtomic json identityFile minted) d = some e :=
      exists_complete (by simp [hmissing])
    have hfinish : finish (writeAtomic json identityFile minted) d none = some e := he
    exact ⟨e, by simp only [loadOrCreateIdentity, hv.read, he]; rfl, frame_of_finish hfinish,
      _, complete_writeAtomic he, hm⟩

def supported : Option WorkspaceDoc → Except CoreError (Option WorkspaceDoc)
  | some doc =>
    if doc.schemaVersion > WorkspaceDoc.supportedSchema then
      .error (.schemaVersion doc.schemaVersion WorkspaceDoc.supportedSchema)
    else .ok (some doc)
  | none => .ok none

theorem Stores.loadWorkspace {json : Json WorkspaceDoc} {d : Dir} {v : Option WorkspaceDoc}
    (h : Stores json (d workspaceFile) v) : loadWorkspace json d = supported v := by
  unfold Store.loadWorkspace
  rw [h.read]
  cases v <;> rfl

/-! The runs. -/

namespace Launches

/-- What the program does with its configuration, to the end or cut short. -/
inductive Action where
  | load (fresh : Fresh)
  | identity (minted : Identity) (cut : Option Stop)
  | saveWorkspace (doc : WorkspaceDoc) (cut : Option Stop)
  | clearWorkspace (cut : Option Stop)
  | rememberSharing (enabled : Bool) (cut : Option Stop)
  | exportBackup (path : String) (minted : Identity) (cut : Option Stop)
  | importBackup (file : Node) (cut : Option Stop)

structure World where
  disk : Dir
  /-- The identities that were returned since a restore last touched the files. -/
  identities : List Identity
  /-- What was written of the identity, the workspace and the choices, the newest first. -/
  identity : List (Write Identity)
  workspace : List (Write WorkspaceDoc)
  sharing : List (Write Bool)
  /-- The backups that were written to a path to the end, and not written over. -/
  exports : List (String × Backup)

variable (js : Jsons) (prefs : Json LocalPrefs)

def backupOf : Node → Option Backup
  | .file bytes => js.backup.parse bytes
  | _ => none

def mint (w : World) (minted : Identity) (returned : Bool) : List (Write Identity) :=
  match readWithFallback js.identity w.disk identityFile with
  | .ok none => ⟨some minted, returned⟩ :: w.identity
  | _ => w.identity

def step (w : World) : Action → Option World
  | .load fresh =>
    match load js w.disk fresh with
    | (.ok (identity, doc), e) =>
      some { w with
        disk := e
        identities := identity :: w.identities
        identity := mint js w fresh.identity true
        workspace :=
          match loadWorkspace js.workspace w.disk with
          | .ok none => ⟨some doc, true⟩ :: w.workspace
          | _ => w.workspace }
    | (.error _, e) => some { w with disk := e, identity := mint js w fresh.identity true }
  | .identity minted none =>
    match loadOrCreateIdentity js.identity w.disk minted with
    | (.ok identity, e) =>
      some { w with
        disk := e
        identities := identity :: w.identities
        identity := mint js w minted true }
    | (.error _, e) => some { w with disk := e }
  | .identity minted (some stop) =>
    match readWithFallback js.identity w.disk identityFile with
    | .ok none => (interrupt (writeAtomic js.identity identityFile minted) w.disk stop).map
        fun e => { w with disk := e, identity := mint js w minted false }
    | _ => some w
  | .saveWorkspace doc cut => (finish (Store.saveWorkspace js.workspace doc) w.disk cut).map
      fun e => { w with disk := e, workspace := ⟨some doc, cut.isNone⟩ :: w.workspace }
  | .clearWorkspace cut => (finish Store.clearWorkspace w.disk cut).map
      fun e => { w with disk := e, workspace := ⟨none, cut.isNone⟩ :: w.workspace }
  | .rememberSharing enabled cut =>
    (finish (Store.rememberSharing prefs w.disk enabled) w.disk cut).map
      fun e => { w with disk := e, sharing := ⟨some enabled, cut.isNone⟩ :: w.sharing }
  | .exportBackup path minted cut =>
    match Store.exportBackup js w.disk minted with
    | (.ok backup, d) => (finish (writeFile path (js.backup.render backup)) d cut).map fun e =>
        let others := w.exports.filter fun x => x.1 ≠ path
        { w with
          disk := e
          identities := backup.identity :: w.identities
          identity := mint js w minted true
          exports := if cut.isNone then (path, backup) :: others else others }
    | (.error _, d) => some { w with disk := d, identity := mint js w minted true }
  | .importBackup file cut => (Store.importBackup js file w.disk cut).map fun (result, e) =>
      match backupOf js file with
      | none => { w with disk := e }
      | some backup =>
        { w with
          disk := e
          identities := result.toOption.toList
          identity := ⟨some backup.identity, cut.isNone⟩ :: w.identity
          workspace := (backup.workspace.toList.map fun doc => ⟨some doc, cut.isNone⟩) ++
            w.workspace }

/-- What is written reads back, and an export is not written over the store's own files. -/
def Sound (_ : World) : Action → Prop
  | .load fresh => RoundTrips js.identity fresh.identity ∧
      ∀ identity, RoundTrips js.workspace (fresh.doc identity)
  | .identity minted _ => RoundTrips js.identity minted
  | .saveWorkspace doc _ => RoundTrips js.workspace doc
  | .clearWorkspace _ => True
  | .rememberSharing enabled _ => RoundTrips prefs ⟨enabled⟩
  | .exportBackup path minted _ => RoundTrips js.identity minted ∧ path ∉ ownFiles
  | .importBackup file _ => ∀ backup ∈ backupOf js file, RoundTrips js.identity backup.identity ∧
      ∀ doc ∈ backup.workspace, RoundTrips js.workspace doc

/-- A launch finds what was there before it: the identity, the workspace and the sharing switch as
the latest write that returned has left them, or one that was cut short since; the identity, too,
that was returned since a restore last touched the files. And the backups hold what was
exported. -/
structure Kept (identity : Option Identity) (workspace : Option WorkspaceDoc)
    (sharing : Option Bool) (w : World) : Prop where
  identity : ∃ v, Holds identity w.identity v ∧ (∀ id ∈ w.identities, v = some id) ∧
    readWithFallback js.identity w.disk identityFile = .ok v ∧
    ∀ id ∈ v, ∀ minted, loadOrCreateIdentity js.identity w.disk minted = (.ok id, w.disk)
  workspace : ∃ v, Holds workspace w.workspace v ∧
    loadWorkspace js.workspace w.disk = supported v
  sharing : ∃ v, Holds sharing w.sharing v ∧ (loadPrefs prefs w.disk).sharing = v.getD false
  exports : ∀ x ∈ w.exports, w.disk x.1 = .file (js.backup.render x.2)

def IdentityHeld (start : Option Identity) (node : Node) (log : List (Write Identity))
    (identities : List Identity) : Prop :=
  ∃ v, Holds start log v ∧ Stores js.identity node v ∧ ∀ id ∈ identities, v = some id

def WorkspaceHeld (start : Option WorkspaceDoc) (node : Node) (log : List (Write WorkspaceDoc)) :
    Prop := ∃ v, Holds start log v ∧ Stores js.workspace node v

def SharingHeld (start : Option Bool) (node : Node) (log : List (Write Bool)) : Prop :=
  ∃ v u, Holds start log v ∧ Stores prefs node u ∧ (u.getD {}).sharing = v.getD false

def ExportsHeld (d : Dir) (exports : List (String × Backup)) : Prop :=
  ∀ x ∈ exports, x.1 ∉ ownFiles ∧ d x.1 = .file (js.backup.render x.2)

structure Inv (identity : Option Identity) (workspace : Option WorkspaceDoc) (sharing : Option Bool)
    (w : World) : Prop where
  identity : IdentityHeld js identity (w.disk identityFile) w.identity w.identities
  workspace : WorkspaceHeld js workspace (w.disk workspaceFile) w.workspace
  sharing : SharingHeld prefs sharing (w.disk prefsFile) w.sharing
  exports : ExportsHeld js w.disk w.exports

variable {js prefs} {self : Option Identity} {ws : Option WorkspaceDoc} {on : Option Bool}
  {w : World} {d e : Dir}

theorem loadPrefs_of_stores {u : Option LocalPrefs} (h : Stores prefs (d prefsFile) u) :
    loadPrefs prefs d = u.getD {} := by
  unfold loadPrefs
  rw [h.read]
  cases u <;> rfl

theorem Inv.kept (h : Inv js prefs self ws on w) : Kept js prefs self ws on w := by
  refine ⟨?_, ?_, ?_, fun x hx => (h.exports x hx).2⟩
  · obtain ⟨v, hheld, hv, hall⟩ := h.identity
    refine ⟨v, hheld, hall, hv.read, fun id hid minted => ?_⟩
    obtain rfl := Option.mem_def.mp hid
    simp only [loadOrCreateIdentity, hv.read]
  · obtain ⟨v, hheld, hv⟩ := h.workspace
    exact ⟨v, hheld, hv.loadWorkspace⟩
  · obtain ⟨v, u, hheld, hu, heq⟩ := h.sharing
    exact ⟨v, hheld, by rw [loadPrefs_of_stores hu, heq]⟩

theorem IdentityHeld.unreturned {start : Option Identity} {node : Node}
    {log : List (Write Identity)} {id : Identity} {ids : List Identity}
    (h : IdentityHeld js start node log (id :: ids)) : IdentityHeld js start node log ids :=
  h.imp fun _ hv => ⟨hv.1, hv.2.1, fun i hi => hv.2.2 i (List.mem_cons_of_mem _ hi)⟩

theorem names_apart : (workspaceFile ∉ own identityFile ∧ prefsFile ∉ own identityFile) ∧
    (identityFile ∉ own workspaceFile ∧ prefsFile ∉ own workspaceFile) ∧
    identityFile ∉ own prefsFile ∧ workspaceFile ∉ own prefsFile := by
  decide +kernel

theorem ExportsHeld.frame {exports : List (String × Backup)} {name : String}
    (h : ExportsHeld js d exports) (hname : ∀ path ∈ own name, path ∈ ownFiles)
    (hframe : ∀ path ∉ own name, e path = d path) : ExportsHeld js e exports := by
  intro x hx
  obtain ⟨hpath, hfile⟩ := h x hx
  exact ⟨hpath, (hframe _ fun hown => hpath (hname _ hown)).trans hfile⟩

theorem Inv.identityFiles (h : Inv js prefs self ws on w) {ids : List Identity}
    {log : List (Write Identity)}
    (hframe : ∀ path ∉ own identityFile, e path = w.disk path)
    (hheld : IdentityHeld js self (e identityFile) log ids) :
    Inv js prefs self ws on { w with disk := e, identities := ids, identity := log } where
  identity := hheld
  workspace := by simpa only [hframe _ names_apart.1.1] using h.workspace
  sharing := by simpa only [hframe _ names_apart.1.2] using h.sharing
  exports := h.exports.frame (by simp [own, ownFiles]) hframe

theorem Inv.workspaceFiles (h : Inv js prefs self ws on w) {log : List (Write WorkspaceDoc)}
    (hframe : ∀ path ∉ own workspaceFile, e path = w.disk path)
    (hheld : WorkspaceHeld js ws (e workspaceFile) log) :
    Inv js prefs self ws on { w with disk := e, workspace := log } where
  identity := by simpa only [hframe _ names_apart.2.1.1] using h.identity
  workspace := hheld
  sharing := by simpa only [hframe _ names_apart.2.1.2] using h.sharing
  exports := h.exports.frame (by simp [own, ownFiles]) hframe

theorem Inv.prefsFiles (h : Inv js prefs self ws on w) {log : List (Write Bool)}
    (hframe : ∀ path ∉ own prefsFile, e path = w.disk path)
    (hheld : SharingHeld prefs on (e prefsFile) log) :
    Inv js prefs self ws on { w with disk := e, sharing := log } where
  identity := by simpa only [hframe _ names_apart.2.2.1] using h.identity
  workspace := by simpa only [hframe _ names_apart.2.2.2] using h.workspace
  sharing := hheld
  exports := h.exports.frame (by simp [own, ownFiles]) hframe

theorem Inv.returned (h : Inv js prefs self ws on w) {minted : Identity}
    (hm : RoundTrips js.identity minted) :
    ∃ id e, loadOrCreateIdentity js.identity w.disk minted = (.ok id, e) ∧
      e workspaceFile = w.disk workspaceFile ∧
      Inv js prefs self ws on { w with
        disk := e, identities := id :: w.identities, identity := mint js w minted true } := by
  obtain ⟨v, hheld, hv, hids⟩ := h.identity
  obtain ⟨e, he, hframe, hstored⟩ := loadOrCreateIdentity_spec hm hv
  refine ⟨v.getD minted, e, he, hframe _ names_apart.1.1,
    h.identityFiles hframe ⟨_, ?_, hstored, fun id hid => ?_⟩⟩
  · cases v with
    | none => simpa only [mint, hv.read] using .took rfl
    | some id => simpa only [mint, hv.read, Option.getD_some] using hheld
  · obtain rfl | hid := List.mem_cons.mp hid
    · rfl
    · rw [hids id hid]
      rfl

theorem Inv.identityCut (h : Inv js prefs self ws on w) {minted : Identity} {stop : Stop}
    (hm : RoundTrips js.identity minted) (hnone : Stores js.identity (w.disk identityFile) none)
    (he : interrupt (writeAtomic js.identity identityFile minted) w.disk stop = some e) :
    Inv js prefs self ws on { w with disk := e, identity := mint js w minted false } := by
  have hfinish : finish (writeAtomic js.identity identityFile minted) w.disk (some stop) =
    some e := he
  obtain ⟨x, hx, hstored⟩ := stores_of_finish hm hfinish hnone
  obtain ⟨v, hheld, hv, hids⟩ := h.identity
  have hmissing : w.disk identityFile = .missing := hnone
  have hlog : mint js w minted false = ⟨some minted, false⟩ :: w.identity := by
    simp only [mint, hnone.read]
  rw [hlog]
  refine h.identityFiles (frame_of_finish hfinish) ⟨x, ?_, hstored, fun id hid => ?_⟩
  · obtain rfl | ⟨-, rfl⟩ := hx
    · exact .took rfl
    · cases v with
      | none => exact hheld.lost rfl
      | some id =>
        obtain ⟨bytes, hbytes, -⟩ := hv
        rw [hmissing] at hbytes
        cases hbytes
  · -- nothing was returned, for there was nothing
    rw [hids id hid, hmissing] at hv
    obtain ⟨bytes, hbytes, -⟩ := hv
    cases hbytes

theorem Inv.save (h : Inv js prefs self ws on w) {doc : WorkspaceDoc} (cut : Option Stop)
    (hdoc : RoundTrips js.workspace doc)
    (he : finish (saveWorkspace js.workspace doc) w.disk cut = some e) :
    Inv js prefs self ws on
      { w with disk := e, workspace := ⟨some doc, cut.isNone⟩ :: w.workspace } := by
  obtain ⟨v, hheld, hv⟩ := h.workspace
  obtain ⟨x, hx, hstored⟩ := stores_of_finish hdoc he hv
  refine h.workspaceFiles (frame_of_finish he) ⟨x, ?_, hstored⟩
  obtain rfl | ⟨hcut, rfl⟩ := hx
  · exact .took rfl
  · exact hheld.lost hcut

theorem Inv.clear (h : Inv js prefs self ws on w) {cut : Option Stop}
    (he : finish Store.clearWorkspace w.disk cut = some e) :
    Inv js prefs self ws on { w with
      disk := e, workspace := ⟨none, cut.isNone⟩ :: w.workspace } := by
  obtain ⟨v, hheld, hv⟩ := h.workspace
  obtain ⟨x, hx, hstored⟩ := stores_of_clear he hv
  have hframe : ∀ path ∉ own workspaceFile, e path = w.disk path :=
    fun path hpath => (kept_or_cleared he path).resolve_right fun hgone => hpath hgone.1
  refine h.workspaceFiles hframe ⟨x, ?_, hstored⟩
  obtain rfl | ⟨hcut, rfl⟩ := hx
  · exact .took rfl
  · exact hheld.lost hcut

theorem Inv.remember (h : Inv js prefs self ws on w) {enabled : Bool} {cut : Option Stop}
    (hround : RoundTrips prefs ⟨enabled⟩)
    (he : finish (rememberSharing prefs w.disk enabled) w.disk cut = some e) :
    Inv js prefs self ws on
      { w with disk := e, sharing := ⟨some enabled, cut.isNone⟩ :: w.sharing } := by
  obtain ⟨v, u, hheld, hu, heq⟩ := h.sharing
  unfold rememberSharing at he
  rw [loadPrefs_of_stores hu] at he
  dsimp only at he
  split at he
  · -- the choice is the one on file
    rename_i hsame
    have hsame' : e = w.disk := by
      rw [finish_eq] at he
      exact interrupt_nil he
    subst hsame'
    exact h.prefsFiles (fun _ _ => rfl) ⟨some enabled, u, .took rfl, hu, hsame⟩
  · obtain ⟨x, hx, hstored⟩ := stores_of_finish hround he hu
    refine h.prefsFiles (frame_of_finish he) ?_
    obtain rfl | ⟨hcut, rfl⟩ := hx
    · exact ⟨some enabled, _, .took rfl, hstored, rfl⟩
    · exact ⟨v, _, hheld.lost hcut, hstored, heq⟩

theorem complete_saveWorkspace {json : Json WorkspaceDoc} {doc : WorkspaceDoc}
    (h : d workspaceFile = .missing) : ∃ e, complete (saveWorkspace json doc) d = some e :=
  exists_complete (by simp [h])

theorem Inv.load (h : Inv js prefs self ws on w) {fresh : Fresh}
    (hok : Sound js prefs w (.load fresh)) {t : World}
    (hs : step js prefs w (.load fresh) = some t) : Inv js prefs self ws on t := by
  obtain ⟨id, d, hid, hkept, hinv⟩ := h.returned hok.1
  obtain ⟨v, hheld, hv⟩ := hinv.workspace
  have hload : loadWorkspace js.workspace d = supported v := hv.loadWorkspace
  have hbefore : loadWorkspace js.workspace w.disk = supported v :=
    Stores.loadWorkspace (by rwa [← hkept])
  simp only [step, Store.load, hid, hload, hbefore] at hs
  cases v with
  | none =>
    -- the workspace is made and saved
    obtain ⟨e, he⟩ : ∃ e, complete (saveWorkspace js.workspace (fresh.doc id)) d = some e :=
      complete_saveWorkspace hv
    simp only [supported, he, Option.some.injEq] at hs
    subst hs
    exact hinv.save none (hok.2 id) he
  | some doc =>
    by_cases hschema : doc.schemaVersion > WorkspaceDoc.supportedSchema
    · simp only [supported, hschema, if_true, Option.some.injEq] at hs
      subst hs
      -- the launch fails behind the identity
      exact { hinv with identity := hinv.identity.unreturned }
    · simp only [supported, hschema, if_false, Option.some.injEq] at hs
      subst hs
      exact hinv

theorem ExportsHeld.written {exports : List (String × Backup)} {path : String} {backup : Backup}
    {cut : Option Stop} (h : ExportsHeld js d exports) (hpath : path ∉ ownFiles)
    (he : finish (writeFile path (js.backup.render backup)) d cut = some e) :
    ExportsHeld js e (let others := exports.filter fun x => x.1 ≠ path
      if cut.isNone then (path, backup) :: others else others) := by
  have hothers : ExportsHeld js e (exports.filter fun x => x.1 ≠ path) := by
    intro x hx
    obtain ⟨hx, hne⟩ := List.mem_filter.mp hx
    obtain ⟨hown, hfile⟩ := h x hx
    exact ⟨hown, (frame_of_writeFile he _ (of_decide_eq_true hne)).trans hfile⟩
  cases cut with
  | none =>
    intro x hx
    obtain rfl | hx := List.mem_cons.mp hx
    · exact ⟨hpath, file_of_writeFile he⟩
    · exact hothers x hx
  | some stop => exact hothers

theorem Inv.exportBackup (h : Inv js prefs self ws on w) {path : String} {minted : Identity}
    {cut : Option Stop} (hok : Sound js prefs w (.exportBackup path minted cut))
    {t : World} (hs : step js prefs w (.exportBackup path minted cut) = some t) :
    Inv js prefs self ws on t := by
  obtain ⟨id, d, hid, -, hinv⟩ := h.returned hok.1
  simp only [step, Store.exportBackup, hid] at hs
  cases hws : loadWorkspace js.workspace d with
  | error err =>
    simp only [hws, Option.some.injEq] at hs
    subst hs
    exact { hinv with identity := hinv.identity.unreturned }
  | ok workspace =>
    simp only [hws] at hs
    obtain ⟨e, he, rfl⟩ := Option.map_eq_some_iff.mp hs
    have hframe : ∀ p ∈ ownFiles, e p = d p := fun p hp =>
      frame_of_writeFile he p fun heq => hok.2 (heq ▸ hp)
    exact
      { identity := by
          simpa only [hframe identityFile (by simp [ownFiles])] using hinv.identity
        workspace := by
          simpa only [hframe workspaceFile (by simp [ownFiles])] using hinv.workspace
        sharing := by simpa only [hframe prefsFile (by simp [ownFiles])] using hinv.sharing
        exports := hinv.exports.written hok.2 he }

theorem importBackup_spec {file : Node} {cut : Option Stop} {r : Except CoreError Identity × Dir}
    (h : importBackup js file d cut = some r) :
    match backupOf js file with
    | none => r.2 = d
    | some backup => finish (restore js backup) d cut = some r.2 ∧
        r.1.toOption = if cut.isNone then some backup.identity else none := by
  cases file with
  | missing | unreadable =>
    obtain rfl := Option.some.inj h
    rfl
  | file bytes =>
    simp only [importBackup] at h
    cases hparse : js.backup.parse bytes with
    | none =>
      simp only [hparse, Option.some.injEq] at h
      subst h
      simp only [backupOf, hparse]
    | some backup =>
      simp only [hparse] at h
      simp only [backupOf, hparse]
      cases cut with
      | none =>
        obtain ⟨e, he, rfl⟩ := Option.map_eq_some_iff.mp h
        exact ⟨he, rfl⟩
      | some stop =>
        dsimp only at h
        split at h
        · obtain ⟨e, he, rfl⟩ := Option.map_eq_some_iff.mp h
          exact ⟨he, rfl⟩
        · cases h

theorem Inv.importBackup (h : Inv js prefs self ws on w) {file : Node} {cut : Option Stop}
    (hok : Sound js prefs w (.importBackup file cut)) {t : World}
    (hs : step js prefs w (.importBackup file cut) = some t) : Inv js prefs self ws on t := by
  simp only [step] at hs
  obtain ⟨⟨result, e⟩, hr, ht⟩ := Option.map_eq_some_iff.mp hs
  have hspec := importBackup_spec hr
  cases hb : backupOf js file with
  | none =>
    simp only [hb] at hspec ht
    subst hspec ht
    exact h
  | some backup =>
    simp only [hb] at hspec ht
    subst ht
    obtain ⟨hfinish, hresult⟩ := hspec
    obtain ⟨hid, hdoc⟩ := hok backup hb
    obtain ⟨v, hheld, hv, -⟩ := h.identity
    obtain ⟨stop, rfl, he⟩ | ⟨f, rest, hf, he, hrest⟩ := finish_append hfinish
    · -- it stops in the identity's write
      have hwrite : finish (writeAtomic js.identity identityFile backup.identity) w.disk
        (some stop) = some e := he
      obtain ⟨x, hx, hstored⟩ := stores_of_finish hid hwrite hv
      have hnone : result.toOption.toList = [] := by simp [hresult]
      have hlog : Holds self (⟨some backup.identity, false⟩ :: w.identity) x := by
        obtain rfl | ⟨-, rfl⟩ := hx
        · exact .took rfl
        · exact hheld.lost rfl
      have hinv : Inv js prefs self ws on { w with
          disk := e
          identities := []
          identity := ⟨some backup.identity, false⟩ :: w.identity } :=
        h.identityFiles (frame_of_finish hwrite) ⟨x, hlog, hstored, by simp⟩
      rw [hnone]
      refine hinv.workspaceFiles (fun _ _ => rfl) ?_
      obtain ⟨y, hheld, hy⟩ := hinv.workspace
      refine ⟨y, ?_, hy⟩
      cases backup.workspace with
      | none => exact hheld
      | some doc => exact hheld.lost rfl
    · have hwrite : finish (writeAtomic js.identity identityFile backup.identity) w.disk none =
        some f := hf
      have hinv : Inv js prefs self ws on { w with
          disk := f
          identities := result.toOption.toList
          identity := ⟨some backup.identity, cut.isNone⟩ :: w.identity } := by
        refine h.identityFiles (frame_of_finish hwrite)
          ⟨some backup.identity, .took rfl, ⟨_, complete_writeAtomic hf, hid⟩, fun id hmem => ?_⟩
        rw [hresult] at hmem
        split at hmem <;> simp_all
      cases hws : backup.workspace with
      | none =>
        simp only [hws] at he
        have hsame : e = f := by
          rw [finish_eq] at he
          exact interrupt_nil he
        rw [hsame]
        exact hinv
      | some doc =>
        simp only [hws] at he
        have hsaved := hinv.save rest (hdoc doc hws) he
        rw [hrest] at hsaved
        exact hsaved

theorem step_inv {t : World} {a : Action} (h : Inv js prefs self ws on w) (hok : Sound js prefs w a)
    (hs : step js prefs w a = some t) : Inv js prefs self ws on t := by
  cases a with
  | load fresh => exact h.load hok hs
  | identity minted cut =>
    cases cut with
    | none =>
      obtain ⟨id, e, hid, -, hinv⟩ := h.returned hok
      simp only [step, hid, Option.some.injEq] at hs
      exact hs ▸ hinv
    | some stop =>
      obtain ⟨v, -, hv, -⟩ := h.identity
      simp only [step, hv.read] at hs
      cases v with
      | none =>
        obtain ⟨e, he, rfl⟩ := Option.map_eq_some_iff.mp hs
        exact h.identityCut hok hv he
      | some id =>
        obtain rfl := Option.some.inj hs
        exact h
  | saveWorkspace doc cut =>
    obtain ⟨e, he, rfl⟩ := Option.map_eq_some_iff.mp hs
    exact h.save _ hok he
  | clearWorkspace cut =>
    obtain ⟨e, he, rfl⟩ := Option.map_eq_some_iff.mp hs
    exact h.clear he
  | rememberSharing enabled cut =>
    obtain ⟨e, he, rfl⟩ := Option.map_eq_some_iff.mp hs
    exact h.remember hok he
  | exportBackup path minted cut => exact h.exportBackup hok hs
  | importBackup file cut => exact h.importBackup hok hs

/-- Over the whole life of a configuration, whatever is cut short at whatever byte, a launch finds
what was there before it. -/
theorem launches_find {d : Dir} {identity : Option Identity} {workspace : Option WorkspaceDoc}
    {chosen : Option LocalPrefs} (hid : Stores js.identity (d identityFile) identity)
    (hws : Stores js.workspace (d workspaceFile) workspace)
    (hprefs : Stores prefs (d prefsFile) chosen) {as : List Action}
    (h : Run (step js prefs) (Sound js prefs) ⟨d, [], [], [], [], []⟩ as w) :
    Kept js prefs identity workspace (chosen.map LocalPrefs.sharing) w := by
  have hstart : Inv js prefs identity workspace (chosen.map LocalPrefs.sharing)
      ⟨d, [], [], [], [], []⟩ :=
    { identity := ⟨identity, rfl, hid, by simp⟩
      workspace := ⟨workspace, rfl, hws⟩
      sharing := ⟨_, chosen, rfl, hprefs, by cases chosen <;> rfl⟩
      exports := by simp [ExportsHeld] }
  exact (h.invariant (fun _ _ _ hi hok hs => step_inv hi hok hs) hstart).kept

def firstLaunch : Fresh := ⟨deskIdentity, 7, 0, "Desk", fun _ => studio⟩

/-- The desk is launched, a restore of another machine's backup is cut short behind the identity,
and it is launched as that machine. The switch is turned on, a save is cut short, the workspace is
exported and a restart mints another identity to no avail. -/
def deskLife : List Action :=
  [.load { firstLaunch with identity := reinstalled },
    .importBackup (.file (backupText ⟨deskIdentity, some desk⟩)) (some ⟨5, none⟩),
    .load firstLaunch, .rememberSharing true none, .saveWorkspace home (some ⟨1, some 9⟩),
    .exportBackup (rescueFile 5) reinstalled none, .identity reinstalled none,
    .rememberSharing false (some ⟨3, some 1⟩), .load { firstLaunch with identity := reinstalled }]

def samplePrefsText (prefs : LocalPrefs) : Bytes :=
  ("\x7b\n  \"sharing\": " ++ toString prefs.sharing ++ "\n\x7d").toUTF8.data.toList

def samplePrefs : Json LocalPrefs where
  render := samplePrefsText
  parse bytes := [⟨true⟩, ⟨false⟩].find? fun prefs => samplePrefsText prefs = bytes

theorem launches_find_desk : ∃ w, Run (step sampleJsons samplePrefs) (Sound sampleJsons samplePrefs)
      ⟨fun _ => .missing, [], [], [], [], []⟩ deskLife w ∧
    w.identities = [deskIdentity, deskIdentity, deskIdentity, deskIdentity] ∧
    w.identity = [⟨some deskIdentity, false⟩, ⟨some reinstalled, true⟩] ∧
    w.workspace = [⟨some home, false⟩, ⟨some desk, false⟩, ⟨some desk, true⟩] ∧
    Kept sampleJsons samplePrefs none none none w := by
  obtain ⟨w, hrun, hw⟩ := run_of_replay (step sampleJsons samplePrefs) Any
    ⟨fun _ => .missing, [], [], [], [], []⟩ deskLife
    (fun w => (w.identities, w.identity, w.workspace))
    (b := ([deskIdentity, deskIdentity, deskIdentity, deskIdentity],
      [⟨some deskIdentity, false⟩, ⟨some reinstalled, true⟩],
      [⟨some home, false⟩, ⟨some desk, false⟩, ⟨some desk, true⟩])) (by decide +kernel)
  simp only [Prod.mk.injEq] at hw
  obtain ⟨hids, hwritten, hlog⟩ := hw
  have hdoc : ∀ doc ∈ [desk, home, loft], RoundTrips sampleJson doc := fun doc h =>
    sampleJson_render h
  have hid : RoundTrips sampleJsons.identity deskIdentity ∧
      RoundTrips sampleJsons.identity reinstalled := by
    unfold RoundTrips
    decide +kernel
  have hprefs : ∀ b, RoundTrips samplePrefs ⟨b⟩ := by
    unfold RoundTrips
    decide +kernel
  have hbackup : backupOf sampleJsons (.file (backupText ⟨deskIdentity, some desk⟩)) =
      some ⟨deskIdentity, some desk⟩ := sampleJsons_readsBack.1.file
  have hsound : ∀ a ∈ deskLife, ∀ w, Sound sampleJsons samplePrefs w a := by
    intro a ha w
    simp only [deskLife, List.mem_cons, List.not_mem_nil, or_false] at ha
    obtain rfl | rfl | rfl | rfl | rfl | rfl | rfl | rfl | rfl := ha
    · exact ⟨hid.2, fun _ => hdoc desk (by simp)⟩
    · intro backup hb
      obtain rfl := Option.some.inj (hbackup.symm.trans hb)
      refine ⟨hid.1, fun doc hd => ?_⟩
      obtain rfl := Option.some.inj hd
      exact hdoc desk (by simp)
    · exact ⟨hid.1, fun _ => hdoc desk (by simp)⟩
    · exact hprefs _
    · exact hdoc home (by simp)
    · exact ⟨hid.2, rescueFile_apart 5⟩
    · exact hid.2
    · exact hprefs _
    · exact ⟨hid.2, fun _ => hdoc desk (by simp)⟩
  have hempty : ∀ {α : Type} {json : Json α}, Stores json .missing none := rfl
  have hruns := hrun.of_mem hsound
  exact ⟨w, hruns, hids, hwritten, hlog, launches_find hempty hempty hempty hruns⟩

end Launches
end InputShare.Store

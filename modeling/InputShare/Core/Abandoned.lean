import InputShare.Core.Store
import InputShare.Lib.Runs

/-! A workspace that was given up, and whether it comes back: saves and clears any of which may be
cut short between two file operations, and a primary file that may be damaged later. -/
namespace InputShare.Store
open Files Runs

variable {α : Type*} {json : Json α} {name : String} {v : α}

def draft (json : Json α) (name : String) (v : α) : List Stage :=
  [fun _ => some (.create (tmp name)),
   fun _ => some (.write (tmp name) (json.render v)),
   fun _ => some (.sync (tmp name)),
   fun d => if d name = .missing then none else some (.copy name (bak name))]

theorem writeAtomic_eq (json : Json α) (name : String) (v : α) :
    writeAtomic json name v =
      draft json name v ++ [fun _ => some (.rename (tmp name) name)] := rfl

theorem interrupt_draft {path : String} (h₁ : path ≠ tmp name) (h₂ : path ≠ bak name)
    {d e : Dir} {s : Stop} (h : interrupt (draft json name v) d s = some e) :
    e path = d path := by
  refine interrupt_keeps (P := fun f => f path = d path) ?_ ?_ h rfl
  · intro st hst f g op hf hop hg
    simp only [draft, List.mem_cons, List.not_mem_nil, or_false] at hst
    obtain rfl | rfl | rfl | rfl := hst
    · obtain rfl := Option.some.inj hop
      obtain rfl := Option.some.inj hg
      rwa [Function.update_of_ne h₁]
    · obtain rfl := Option.some.inj hop
      simp only [FileOp.complete] at hg
      split at hg
      · obtain rfl := Option.some.inj hg
        rwa [Function.update_of_ne h₁]
      · cases hg
    · obtain rfl := Option.some.inj hop
      obtain rfl := Option.some.inj hg
      exact hf
    · dsimp only at hop
      split at hop
      · cases hop
      obtain rfl := Option.some.inj hop
      obtain ⟨node, -, rfl⟩ := copy_complete hg
      rwa [Function.update_of_ne h₂]
  · intro st hst f g op n hf hop hg
    simp only [draft, List.mem_cons, List.not_mem_nil, or_false] at hst
    obtain rfl | rfl | rfl | rfl := hst
    · obtain rfl := Option.some.inj hop
      cases hg
    · obtain rfl := Option.some.inj hop
      simp only [FileOp.tear] at hg
      split at hg
      · obtain rfl := Option.some.inj hg
        rwa [Function.update_of_ne h₁]
      · cases hg
    · obtain rfl := Option.some.inj hop
      cases hg
    · dsimp only at hop
      split at hop
      · cases hop
      obtain rfl := Option.some.inj hop
      obtain ⟨node, -, rfl⟩ := copy_tear hg
      rwa [Function.update_of_ne h₂]

theorem stop_writeAtomic {d e : Dir} {k : ℕ}
    (h : interrupt (writeAtomic json name v) d ⟨k, none⟩ = some e) :
    (e name = d name ∨ e name = .file (json.render v)) ∧
      (e (bak name) = d (bak name) ∨ e (bak name) = d name) := by
  refine ⟨(interrupt_writeAtomic h).1, ?_⟩
  have h₁ := bak_ne name
  have h₂ := tmp_ne name
  have h₃ := tmp_ne_bak name
  have hdraft : ∀ j f, interrupt (draft json name v) d ⟨j, none⟩ = some f →
      f name = d name ∧ (f (bak name) = d (bak name) ∨ f (bak name) = d name) := by
    intro j f hf
    refine stop_keeps (P := fun f => f name = d name ∧
      (f (bak name) = d (bak name) ∨ f (bak name) = d name)) ?_ hf ⟨rfl, .inl rfl⟩
    rintro st hst g k ⟨hname, hbak⟩ hrun
    simp only [draft, List.mem_cons, List.not_mem_nil, or_false] at hst
    obtain rfl | rfl | rfl | rfl := hst
    · obtain rfl := Option.some.inj hrun
      simpa [h₂.symm, h₃.symm] using ⟨hname, hbak⟩
    · simp only [Stage.run, FileOp.complete] at hrun
      split at hrun
      · obtain rfl := Option.some.inj hrun
        simpa [h₂.symm, h₃.symm] using ⟨hname, hbak⟩
      · cases hrun
    · obtain rfl := Option.some.inj hrun
      exact ⟨hname, hbak⟩
    · by_cases hm : g name = .missing
      · simp only [Stage.run, hm, if_true, Option.some.injEq] at hrun
        subst hrun
        exact ⟨hname, hbak⟩
      · simp only [Stage.run, hm, if_false, FileOp.complete] at hrun
        split at hrun
        · rename_i a ha
          obtain rfl := Option.some.inj hrun
          refine ⟨by rw [Function.update_of_ne h₁.symm, hname], .inr ?_⟩
          rw [Function.update_self, ← hname, ha]
        · cases hrun
  rw [writeAtomic_eq, interrupt_append] at h
  split at h
  · exact (hdraft k e h).2
  · obtain ⟨f, hf, he⟩ := Option.bind_eq_some_iff.mp h
    rw [complete_eq] at hf
    obtain ⟨-, hbak⟩ := hdraft _ f hf
    -- the rename leaves the backup alone
    refine stop_keeps (P := fun e => e (bak name) = d (bak name) ∨ e (bak name) = d name) ?_ he hbak
    intro st hst g k hg hrun
    obtain rfl := List.mem_singleton.mp hst
    simp only [Stage.run, FileOp.complete] at hrun
    split at hrun
    · cases hrun
    · obtain rfl := Option.some.inj hrun
      simpa [h₁, h₃.symm] using hg

theorem stop_clearWorkspace {d e : Dir} {k : ℕ}
    (h : interrupt clearWorkspace d ⟨k, none⟩ = some e) :
    (k = 0 ∧ e = d) ∨ 1 ≤ k ∧ e workspaceFile = .missing ∧
      (k = 1 ∧ e (bak workspaceFile) = d (bak workspaceFile) ∨
        e (bak workspaceFile) = .missing) := by
  have hb := bak_ne workspaceFile
  obtain _ | _ | k := k
  · exact .inl ⟨rfl, (Option.some.inj h).symm⟩
  · simp only [clearWorkspace, List.map_cons, interrupt, Stage.run_remove, Option.bind_some,
      Option.some.injEq] at h
    subst h
    exact .inr ⟨le_rfl, by simp, .inl ⟨rfl, by simp [hb]⟩⟩
  · simp only [clearWorkspace, List.map_cons, List.map_nil, interrupt, Stage.run_remove,
      Option.bind_some] at h
    have hkept : e workspaceFile = .missing ∧ e (bak workspaceFile) = .missing := by
      refine stop_keeps (P := fun e => e workspaceFile = .missing ∧
        e (bak workspaceFile) = .missing) ?_ h (by simp [hb.symm])
      rintro st hst f g ⟨h₁, h₂⟩ hrun
      obtain rfl := List.mem_singleton.mp hst
      rw [Stage.run_remove] at hrun
      obtain rfl := Option.some.inj hrun
      simp [Function.update_apply, h₁, h₂]
    exact .inr ⟨by omega, hkept.1, .inr hkept.2⟩

/-! The runs. -/

namespace Abandoned

/-- A save or a clear that completes, or is cut short after so many operations; and the primary
turned into something that does not parse. -/
inductive Action where
  | save (doc : WorkspaceDoc) (stop : Option ℕ)
  | clear (stop : Option ℕ)
  | load
  | damage (bytes : Bytes)

structure World where
  disk : Dir
  /-- Once a clear has removed the primary: the documents that were saved since. -/
  since : Option (List WorkspaceDoc)

variable (json : Json WorkspaceDoc)

def leave (stages : List Stage) (d : Dir) : Option ℕ → Option Dir
  | none => complete stages d
  | some k => interrupt stages d ⟨k, none⟩

def Removes (d : Dir) (stop : Option ℕ) : Prop := d workspaceFile ≠ .missing ∧ stop ≠ some 0

instance (d : Dir) (stop : Option ℕ) : Decidable (Removes d stop) :=
  inferInstanceAs (Decidable (_ ∧ _))

def step (w : World) : Action → Option World
  | .save doc stop => (leave (saveWorkspace json doc) w.disk stop).map fun e =>
    ⟨e, w.since.map (· ++ [doc])⟩
  | .clear stop => (leave clearWorkspace w.disk stop).map fun e =>
    ⟨e, if Removes w.disk stop then some [] else w.since⟩
  | .load => some w
  | .damage bytes =>
    if (json.parse bytes).isNone ∧ w.disk workspaceFile ≠ .missing then
      some { w with disk := Function.update w.disk workspaceFile (.file bytes) }
    else none

/-- A clear that removes the primary is not cut short before it has removed a backup that can be
read. -/
def ClearsBoth (w : World) : Action → Prop
  | .clear (some 1) =>
    Removes w.disk (some 1) → ∀ doc, ¬ Reads json (w.disk (bak workspaceFile)) doc
  | _ => True

def ReadBack (docs : List WorkspaceDoc) (doc : WorkspaceDoc) : Prop :=
  ∃ d ∈ docs, json.parse (json.render d) = some doc

/-- What is loaded was saved since the workspace was abandoned. -/
def StaysAbandoned (w : World) : Prop :=
  ∀ since ∈ w.since, ∀ doc, loadWorkspace json w.disk = .ok (some doc) → ReadBack json since doc

def Inv (w : World) : Prop :=
  ∀ since ∈ w.since, ∀ doc, Reads json (w.disk workspaceFile) doc ∨
    Reads json (w.disk (bak workspaceFile)) doc → ReadBack json since doc

theorem Inv.staysAbandoned {w : World} (h : Inv json w) : StaysAbandoned json w := by
  intro since hsince doc hload
  obtain hread | ⟨-, hread⟩ := readWithFallback_some.mp (loadWorkspace_some.mp hload).1
  · exact h since hsince doc (.inl hread)
  · exact h since hsince doc (.inr hread)

theorem not_reads_missing {json : Json α} {value : α} : ¬ Reads json .missing value := by
  rintro ⟨bytes, h, -⟩
  cases h

theorem stop_of_leave {stages : List Stage} {d e : Dir} {stop : Option ℕ}
    (h : leave stages d stop = some e) :
    ∃ k, interrupt stages d ⟨k, none⟩ = some e ∧ stop.getD stages.length = k := by
  cases stop with
  | none => exact ⟨stages.length, by rw [← complete_eq]; exact h, rfl⟩
  | some k => exact ⟨k, h, rfl⟩

variable {json}

theorem Inv.save {w v : World} {doc : WorkspaceDoc} {stop : Option ℕ} (h : Inv json w)
    (hs : step json w (.save doc stop) = some v) : Inv json v := by
  obtain ⟨e, he, rfl⟩ := Option.map_eq_some_iff.mp hs
  obtain ⟨k, hk, -⟩ := stop_of_leave he
  obtain ⟨hprimary, hbackup⟩ := stop_writeAtomic hk
  intro since hsince d hread
  obtain ⟨before, hbefore, rfl⟩ := Option.map_eq_some_iff.mp hsince
  have hold : Reads json (w.disk workspaceFile) d ∨ Reads json (w.disk (bak workspaceFile)) d →
      ReadBack json (before ++ [doc]) d := by
    intro hr
    obtain ⟨x, hx, hparse⟩ := h before hbefore d hr
    exact ⟨x, List.mem_append_left _ hx, hparse⟩
  obtain hread | hread := hread
  · obtain hp | hp := hprimary
    · exact hold (.inl (hp ▸ hread))
    · obtain ⟨b, hb, hparse⟩ := hread
      obtain rfl := Node.file.inj (hp.symm.trans hb)
      exact ⟨doc, by simp, hparse⟩
  · obtain hb | hb := hbackup
    · exact hold (.inr (hb ▸ hread))
    · exact hold (.inl (hb ▸ hread))

theorem Inv.clear {w v : World} {stop : Option ℕ} (h : Inv json w)
    (hok : ClearsBoth json w (.clear stop)) (hs : step json w (.clear stop) = some v) :
    Inv json v := by
  obtain ⟨e, he, rfl⟩ := Option.map_eq_some_iff.mp hs
  obtain ⟨k, hk, hstop⟩ := stop_of_leave he
  intro since hsince doc hread
  dsimp only at hsince hread
  obtain ⟨rfl, rfl⟩ | ⟨hpos, hprimary, hbackup⟩ := stop_clearWorkspace hk
  · have hzero : stop = some 0 := by
      cases stop with
      | none => simp [clearWorkspace] at hstop
      | some k => simpa using hstop
    have hsame : ¬ Removes w.disk stop := fun hr => hr.2 hzero
    simp only [hsame, if_false] at hsince
    exact h since hsince doc hread
  · obtain hread | hread := hread
    · rw [hprimary] at hread
      exact absurd hread not_reads_missing
    obtain ⟨rfl, hkept⟩ | hgone := hbackup
    · rw [hkept] at hread
      obtain rfl : stop = some 1 := by
        cases stop with
        | none => simp [clearWorkspace] at hstop
        | some k => simpa using hstop
      by_cases hr : Removes w.disk (some 1)
      · exact absurd hread (hok hr doc)
      · simp only [hr, if_false] at hsince
        exact h since hsince doc (.inr hread)
    · rw [hgone] at hread
      exact absurd hread not_reads_missing

theorem step_inv {w v : World} {a : Action} (h : Inv json w) (hok : ClearsBoth json w a)
    (hs : step json w a = some v) : Inv json v := by
  cases a with
  | load =>
    obtain rfl := Option.some.inj hs
    exact h
  | damage bytes =>
    simp only [step] at hs
    split at hs
    · rename_i hbad
      obtain rfl := Option.some.inj hs
      intro since hsince doc hread
      dsimp only at hread
      refine h since hsince doc (.inr ?_)
      obtain ⟨b, hb, hparse⟩ | hread := hread
      · rw [Function.update_self] at hb
        obtain rfl := Node.file.inj hb
        rw [hparse] at hbad
        cases hbad.1
      · rwa [Function.update_of_ne (bak_ne workspaceFile)] at hread
    · cases hs
  | save doc stop => exact h.save hs
  | clear stop => exact h.clear hok hs

/-- A workspace that was abandoned does not come back, as long as no clear is cut short between
the primary and a backup that can be read. -/
theorem abandoned_stays_abandoned {d : Dir} {as : List Action} {w : World}
    (h : Run (step json) (ClearsBoth json) ⟨d, none⟩ as w) : StaysAbandoned json w :=
  (h.invariant (I := Inv json) (fun _ _ _ hi hok hs => step_inv hi hok hs)
    fun since hsince => by cases hsince).staysAbandoned

def uncut : Action → Bool
  | .clear (some 1) => false
  | _ => true

theorem clearsBoth_of_uncut (w : World) (a : Action) (h : uncut a = true) :
    ClearsBoth json w a := by
  unfold ClearsBoth
  split
  · cases h
  · trivial

theorem abandoned_stays_abandoned_desk : ∃ w, Run (step sampleJson) (ClearsBoth sampleJson)
      ⟨dirOf (sampleText desk) .missing, none⟩
      [.save home none, .clear none, .save loft none, .load, .damage tornText] w ∧
    w.since = some [loft] ∧ StaysAbandoned sampleJson w := by
  obtain ⟨w, hrun, hw⟩ := run_of_replay (step sampleJson) (fun _ a => uncut a = true)
    ⟨dirOf (sampleText desk) .missing, none⟩
    [.save home none, .clear none, .save loft none, .load, .damage tornText] World.since
    (b := some [loft]) (by decide +kernel)
  have hruns : Run (step sampleJson) (ClearsBoth sampleJson) _ _ w := hrun.mono clearsBoth_of_uncut
  exact ⟨w, hruns, hw, abandoned_stays_abandoned hruns⟩

/-- The clear is cut short behind its first removal, another workspace is saved, and when its
file is damaged the abandoned one is loaded. -/
theorem abandoned_comes_back : ∃ w, Run (step sampleJson) Any
      ⟨dirOf (sampleText desk) (.file (sampleText home)), none⟩
      [.clear (some 1), .save loft none, .damage tornText, .load] w ∧
    loadWorkspace sampleJson w.disk = .ok (some home) ∧ ¬ StaysAbandoned sampleJson w := by
  obtain ⟨w, hrun, hw⟩ := run_of_replay (step sampleJson) Any
    ⟨dirOf (sampleText desk) (.file (sampleText home)), none⟩
    [.clear (some 1), .save loft none, .damage tornText, .load]
    (fun w => (w.since, loadWorkspace sampleJson w.disk))
    (b := (some [loft], .ok (some home))) (by decide +kernel)
  obtain ⟨hsince, hload⟩ := Prod.mk.inj hw
  refine ⟨w, hrun, hload, fun h => ?_⟩
  obtain ⟨d, hd, hparse⟩ := h [loft] hsince home hload
  obtain rfl := List.mem_singleton.mp hd
  rw [sampleJson_render (by simp)] at hparse
  exact absurd (Option.some.inj hparse) (by decide +kernel)

end Abandoned
end InputShare.Store

import InputShare.Core.Store

/-! What the files of a workspace hold at every moment of a save and while they are removed. -/
namespace InputShare.Store
open Files

variable (json : Json WorkspaceDoc)

/-- The workspace is one of these documents, or is not there. -/
def Kept (docs : List WorkspaceDoc) (node : Node) : Prop :=
  node = .missing ∨ ∃ d ∈ docs, node = .file (json.render d)

/-- What may be left of a save, given what it has put into the temporary file. -/
inductive Underway (docs : List WorkspaceDoc) (node : Node) : List Stage → Prop where
  | finished : Underway docs node []
  | create {d : WorkspaceDoc} (hd : d ∈ docs) : Underway docs node (saveWorkspace json d)
  | write {d : WorkspaceDoc} (hd : d ∈ docs) (hn : node = .missing ∨ node = .file []) :
      Underway docs node ((saveWorkspace json d).drop 1)
  | written {d : WorkspaceDoc} (hd : d ∈ docs) (k : ℕ)
      (hn : node = .missing ∨ node = .file (json.render d)) :
      Underway docs node ((saveWorkspace json d).drop (k + 2))

variable {json} {docs more : List WorkspaceDoc}

theorem Kept.mono {node : Node} (h : Kept json docs node) (hs : docs ⊆ more) :
    Kept json more node :=
  h.imp_right fun ⟨d, hd, hn⟩ => ⟨d, hs hd, hn⟩

theorem Underway.mono {node : Node} {stages : List Stage}
    (h : Underway json docs node stages) (hs : docs ⊆ more) : Underway json more node stages := by
  cases h with
  | finished => exact .finished
  | create hd => exact .create (hs hd)
  | write hd hn => exact .write (hs hd) hn
  | written hd k hn => exact .written (hs hd) k hn

theorem Underway.removed {node : Node} {stages : List Stage}
    (h : Underway json docs node stages) : Underway json docs .missing stages := by
  cases h with
  | finished => exact .finished
  | create hd => exact .create hd
  | write hd _ => exact .write hd (.inl rfl)
  | written hd k _ => exact .written hd k (.inl rfl)

theorem tear_save {d : WorkspaceDoc} {st : Stage} {disk e : Dir} {op : FileOp} {n : ℕ}
    (hst : st ∈ saveWorkspace json d) (hop : st disk = some op) (he : op.tear disk n = some e) :
    e workspaceFile = disk workspaceFile := by
  have hbak := bak_ne workspaceFile
  have htmp := tmp_ne workspaceFile
  simp only [saveWorkspace, writeAtomic, List.mem_cons, List.not_mem_nil, or_false] at hst
  obtain rfl | rfl | rfl | rfl | rfl := hst
  · obtain rfl := Option.some.inj hop
    cases he
  · obtain rfl := Option.some.inj hop
    simp only [FileOp.tear] at he
    split at he
    · obtain rfl := Option.some.inj he
      exact Function.update_of_ne htmp.symm ..
    · cases he
  · obtain rfl := Option.some.inj hop
    cases he
  · beta_reduce at hop
    split at hop
    · cases hop
    · obtain rfl := Option.some.inj hop
      obtain ⟨node, -, rfl⟩ := copy_tear he
      exact Function.update_of_ne hbak.symm ..
  · obtain rfl := Option.some.inj hop
    cases he

/-- What a stage of a save does to the temporary file and to the workspace: the text is written to
the one, which then becomes the other. -/
inductive Staged (disk e : Dir) (b : Bytes) : ℕ → Prop where
  | create (ht : e (tmp workspaceFile) = .file []) (hw : e workspaceFile = disk workspaceFile) :
      Staged disk e b 0
  | write {a : Bytes} (hd : disk (tmp workspaceFile) = .file a)
      (ht : e (tmp workspaceFile) = .file (a ++ b)) (hw : e workspaceFile = disk workspaceFile) :
      Staged disk e b 1
  | keep {k : ℕ} (hk : k = 2 ∨ k = 3) (ht : e (tmp workspaceFile) = disk (tmp workspaceFile))
      (hw : e workspaceFile = disk workspaceFile) : Staged disk e b k
  | rename (hd : disk (tmp workspaceFile) ≠ .missing)
      (hw : e workspaceFile = disk (tmp workspaceFile)) : Staged disk e b 4

theorem staged {d : WorkspaceDoc} {k : ℕ} {st : Stage} {disk e : Dir}
    (hst : (saveWorkspace json d)[k]? = some st) (hr : st.run disk = some e) :
    Staged disk e (json.render d) k := by
  have hbak := bak_ne workspaceFile
  have htmp := tmp_ne workspaceFile
  have hboth := tmp_ne_bak workspaceFile
  match k with
  | 0 =>
    obtain rfl := Option.some.inj hst
    obtain rfl := Option.some.inj hr
    exact .create (Function.update_self ..) (Function.update_of_ne htmp.symm ..)
  | 1 =>
    obtain rfl := Option.some.inj hst
    cases hd : disk (tmp workspaceFile) with
    | file a =>
      simp only [Stage.run, FileOp.complete, hd, Option.some.injEq] at hr
      subst hr
      exact .write hd (Function.update_self ..) (Function.update_of_ne htmp.symm ..)
    | missing => simp [Stage.run, FileOp.complete, hd] at hr
    | unreadable => simp [Stage.run, FileOp.complete, hd] at hr
  | 2 =>
    obtain rfl := Option.some.inj hst
    obtain rfl := Option.some.inj hr
    exact .keep (.inl rfl) rfl rfl
  | 3 =>
    obtain rfl := Option.some.inj hst
    simp only [Stage.run] at hr
    split at hr
    · obtain rfl := Option.some.inj hr
      exact .keep (.inr rfl) rfl rfl
    · rename_i op hop
      split at hop
      · cases hop
      · obtain rfl := Option.some.inj hop
        obtain ⟨node, -, rfl⟩ := copy_complete hr
        exact .keep (.inr rfl) (Function.update_of_ne hboth ..) (Function.update_of_ne hbak.symm ..)
  | 4 =>
    obtain rfl := Option.some.inj hst
    cases hd : disk (tmp workspaceFile) with
    | missing => simp [Stage.run, FileOp.complete, hd] at hr
    | unreadable | file =>
      simp only [Stage.run, FileOp.complete, hd, Option.some.injEq] at hr
      subst hr
      exact .rename (by simp [hd]) (by simp [hd])
  | k + 5 => cases hst

theorem run_save {st : Stage} {rest : List Stage} {disk e : Dir}
    (h : Underway json docs (disk (tmp workspaceFile)) (st :: rest))
    (hr : st.run disk = some e) (hk : Kept json docs (disk workspaceFile)) :
    Underway json docs (e (tmp workspaceFile)) rest ∧ Kept json docs (e workspaceFile) := by
  generalize hl : st :: rest = l at h
  -- the head of what is left of a save is one of its stages
  have hhead : ∀ {d : WorkspaceDoc} {k : ℕ}, st :: rest = (saveWorkspace json d).drop k →
      Staged disk e (json.render d) k ∧ rest = (saveWorkspace json d).drop (k + 1) := by
    intro d k hdrop
    refine ⟨staged ?_ hr, ?_⟩
    · rw [← List.head?_drop, ← hdrop]
      rfl
    · rw [← List.tail_drop, ← hdrop]
      rfl
  cases h with
  | finished => cases hl
  | @create d hd =>
    obtain ⟨hs, rfl⟩ := hhead (d := d) (k := 0) hl
    cases hs with
    | create ht hw => exact ⟨.write hd (.inr ht), by rwa [hw]⟩
    | keep h => omega
  | @write d hd hn =>
    obtain ⟨hs, rfl⟩ := hhead hl
    cases hs with
    | write ha ht hw =>
      obtain hn | hn := hn
      · simp [hn] at ha
      · obtain rfl := Node.file.inj (hn.symm.trans ha)
        exact ⟨.written hd 0 (.inr ht), by rwa [hw]⟩
    | keep h => omega
  | @written d hd k hn =>
    obtain ⟨hs, rfl⟩ := hhead hl
    generalize hj : k + 2 = j at hs
    cases hs with
    | create | write => omega
    | keep h ht hw => exact ⟨hj ▸ .written hd (k + 1) (by rwa [ht]), by rwa [hw]⟩
    | rename hne hw =>
      refine ⟨?_, .inr ⟨d, hd, hw.trans (hn.resolve_left hne)⟩⟩
      obtain rfl : k = 2 := by omega
      exact .finished

theorem advance_save {stages rest : List Stage} {disk e : Dir} {failure : Option ℕ}
    (h : Underway json docs (disk (tmp workspaceFile)) stages)
    (ha : advance stages disk failure = some (e, rest))
    (hk : Kept json docs (disk workspaceFile)) :
    Underway json docs (e (tmp workspaceFile)) rest ∧ Kept json docs (e workspaceFile) := by
  cases stages with
  | nil => cases ha
  | cons st later =>
    obtain ⟨hr, rfl⟩ | ⟨rfl, rfl | ⟨op, n, hop, he⟩⟩ := advance_cases ha
    · exact run_save h hr hk
    · exact ⟨.finished, hk⟩
    · refine ⟨.finished, ?_⟩
      obtain ⟨d, hst⟩ : ∃ d, st ∈ saveWorkspace json d := by
        generalize hl : st :: later = l at h
        have hmem : st ∈ l := hl ▸ List.mem_cons_self
        cases h with
        | finished => cases hl
        | @create d hd => exact ⟨d, hmem⟩
        | @write d hd hn => exact ⟨d, List.mem_of_mem_drop hmem⟩
        | @written d hd k hn => exact ⟨d, List.mem_of_mem_drop hmem⟩
      rwa [tear_save hst hop he]

theorem update_missing (disk : Dir) (name path : String) :
    Function.update disk name .missing path = disk path ∨
      Function.update disk name .missing path = .missing := by
  obtain rfl | hne := eq_or_ne path name
  · exact .inr (Function.update_self ..)
  · exact .inl (Function.update_of_ne hne ..)

theorem advance_clear {stages rest : List Stage} {disk e : Dir} {failure : Option ℕ}
    (h : stages ⊆ clearWorkspace) (ha : advance stages disk failure = some (e, rest)) :
    rest ⊆ clearWorkspace ∧ ∀ path, e path = disk path ∨ e path = .missing := by
  cases stages with
  | nil => cases ha
  | cons st later =>
    obtain ⟨name, -, rfl⟩ := List.mem_map.mp (h List.mem_cons_self)
    obtain ⟨hr, rfl⟩ | ⟨rfl, rfl | ⟨op, n, hop, he⟩⟩ := advance_cases ha
    · obtain rfl := Option.some.inj ((Stage.run_remove name disk).symm.trans hr)
      exact ⟨fun x hx => h (List.mem_cons_of_mem _ hx), update_missing disk name⟩
    · exact ⟨List.nil_subset _, fun path => .inl rfl⟩
    · by_cases hm : disk name = .missing
      · simp [hm] at hop
      · simp only [hm, if_false, Option.some.injEq] at hop
        subst hop
        cases he

end InputShare.Store

import Mathlib.Data.List.Infix
import Mathlib.Logic.Function.Basic

/-! A directory and the file operations of a program that may be stopped anywhere: before an
operation, after it, or inside one that moves bytes. -/
namespace Files

abbrev Bytes := List UInt8

/-- What a name leads to; `unreadable` is a file that opens but cannot be read. -/
inductive Node where
  | missing
  | unreadable
  | file (content : Bytes)
deriving DecidableEq, Repr

abbrev Dir := String → Node

inductive FileOp where
  | create (path : String)
  | write (path : String) (content : Bytes)
  | sync (path : String)
  | copy (src dst : String)
  | rename (src dst : String)
  | remove (path : String)

/-- The directory after the operation, `none` when it cannot succeed. -/
def FileOp.complete (d : Dir) : FileOp → Option Dir
  | .create p => some (Function.update d p (.file []))
  | .write p b =>
    match d p with
    | .file a => some (Function.update d p (.file (a ++ b)))
    | _ => none
  | .sync _ => some d
  | .copy src dst =>
    match d src with
    | .file a => some (Function.update d dst (.file a))
    | _ => none
  | .rename src dst =>
    match d src with
    | .missing => none
    | node => some (Function.update (Function.update d src .missing) dst node)
  | .remove p =>
    match d p with
    | .missing => none
    | _ => some (Function.update d p .missing)

/-- The directory when the operation stops after `n` bytes; a rename and a removal are atomic. -/
def FileOp.tear (d : Dir) (n : ℕ) : FileOp → Option Dir
  | .write p b =>
    match d p with
    | .file a => some (Function.update d p (.file (a ++ b.take n)))
    | _ => none
  | .copy src dst =>
    match d src with
    | .file a => some (Function.update d dst (.file (a.take n)))
    | .unreadable => some (Function.update d dst (.file []))
    | .missing => none
  | _ => none

/-- The next operation of a program, chosen by what the directory holds; `none` skips it. -/
abbrev Stage := Dir → Option FileOp

def Stage.run (st : Stage) (d : Dir) : Option Dir :=
  match st d with
  | none => some d
  | some op => op.complete d

theorem Stage.run_remove (name : String) (d : Dir) :
    Stage.run (fun d => if d name = .missing then none else some (.remove name)) d =
      some (Function.update d name .missing) := by
  by_cases hm : d name = .missing
  · simp only [Stage.run, hm, if_true, Option.some.injEq]
    exact (Function.update_eq_self_iff.mpr hm.symm).symm
  · simp only [Stage.run, hm, if_false, FileOp.complete]

/-- The directory a program leaves when nothing stops it. -/
def complete : List Stage → Dir → Option Dir
  | [], d => some d
  | st :: rest, d => (st.run d).bind fun e => complete rest e

/-- Where a program stops: after so many stages, possibly so many bytes into the next one. -/
structure Stop where
  stages : ℕ
  bytes : Option ℕ

/-- The directory a program leaves when it stops there, for a crash or an error. -/
def interrupt : List Stage → Dir → Stop → Option Dir
  | _, d, ⟨0, none⟩ => some d
  | st :: _, d, ⟨0, some n⟩ => (st d).bind fun op => op.tear d n
  | st :: rest, d, ⟨k + 1, n⟩ => (st.run d).bind fun e => interrupt rest e ⟨k, n⟩
  | [], _, _ => none

/-- The next stage of a program completes, or fails after so many bytes and ends the program. -/
def advance : List Stage → Dir → Option ℕ → Option (Dir × List Stage)
  | [], _, _ => none
  | st :: rest, d, none =>
    match st.run d with
    | some e => some (e, rest)
    | none => some (d, [])
  | st :: _, d, some n => some (((st d).bind fun op => op.tear d n).getD d, [])

theorem interrupt_cons {st : Stage} {rest : List Stage} {d e : Dir} {s : Stop}
    (h : interrupt (st :: rest) d s = some e) :
    e = d ∨ (∃ op n, st d = some op ∧ op.tear d n = some e) ∨
      ∃ f t, st.run d = some f ∧ interrupt rest f t = some e := by
  obtain ⟨_ | k, _ | n⟩ := s
  · simp only [interrupt, Option.some.injEq] at h
    exact .inl h.symm
  · obtain ⟨op, hop, he⟩ := Option.bind_eq_some_iff.mp h
    exact .inr (.inl ⟨op, n, hop, he⟩)
  · obtain ⟨f, hf, he⟩ := Option.bind_eq_some_iff.mp h
    exact .inr (.inr ⟨f, ⟨k, none⟩, hf, he⟩)
  · obtain ⟨f, hf, he⟩ := Option.bind_eq_some_iff.mp h
    exact .inr (.inr ⟨f, ⟨k, some n⟩, hf, he⟩)

theorem interrupt_nil {d e : Dir} {s : Stop} (h : interrupt [] d s = some e) : e = d := by
  obtain ⟨_ | k, _ | n⟩ := s <;> simp_all [interrupt]

theorem interrupt_append (a b : List Stage) (d : Dir) (s : Stop) :
    interrupt (a ++ b) d s =
      if s.stages < a.length then interrupt a d s
      else (complete a d).bind fun e => interrupt b e ⟨s.stages - a.length, s.bytes⟩ := by
  induction a generalizing d s with
  | nil => simp [complete]
  | cons st a ih =>
    obtain ⟨_ | k, n⟩ := s
    · cases n <;> simp [interrupt]
    · simp only [List.cons_append, interrupt, ih, List.length_cons, complete,
        Nat.add_lt_add_iff_right, Nat.add_sub_add_right]
      split
      · rfl
      · rw [Option.bind_assoc]

theorem complete_append (a b : List Stage) (d : Dir) :
    complete (a ++ b) d = (complete a d).bind (complete b) := by
  induction a generalizing d with
  | nil => rfl
  | cons st a ih =>
    simp only [List.cons_append, complete, Option.bind_assoc]
    exact congrArg _ (funext fun e => ih e)

theorem complete_eq (stages : List Stage) (d : Dir) :
    complete stages d = interrupt stages d ⟨stages.length, none⟩ := by
  induction stages generalizing d with
  | nil => rfl
  | cons st rest ih =>
    simp only [complete, List.length_cons, interrupt]
    exact congrArg _ (funext fun e => ih e)

/-- What every stage keeps, whether it completes or is torn, an interrupted program keeps. -/
theorem interrupt_keeps {P : Dir → Prop} {stages : List Stage}
    (hrun : ∀ st ∈ stages, ∀ d e op, P d → st d = some op → op.complete d = some e → P e)
    (htear : ∀ st ∈ stages, ∀ d e op n, P d → st d = some op → op.tear d n = some e → P e)
    {d e : Dir} {s : Stop} (h : interrupt stages d s = some e) (hd : P d) : P e := by
  induction stages generalizing d s with
  | nil =>
    rw [interrupt_nil h]
    exact hd
  | cons st rest ih =>
    obtain rfl | ⟨op, n, hop, he⟩ | ⟨f, t, hf, he⟩ := interrupt_cons h
    · exact hd
    · exact htear st List.mem_cons_self d e op n hd hop he
    · refine ih (fun st hst => hrun st (List.mem_cons_of_mem _ hst))
        (fun st hst => htear st (List.mem_cons_of_mem _ hst)) he ?_
      unfold Stage.run at hf
      split at hf
      · obtain rfl := Option.some.inj hf
        exact hd
      · rename_i op hop
        exact hrun st List.mem_cons_self d f op hd hop hf

theorem stop_keeps {P : Dir → Prop} {stages : List Stage}
    (hrun : ∀ st ∈ stages, ∀ d e, P d → st.run d = some e → P e) {d e : Dir} {k : ℕ}
    (h : interrupt stages d ⟨k, none⟩ = some e) (hd : P d) : P e := by
  induction stages generalizing d k with
  | nil =>
    rw [interrupt_nil h]
    exact hd
  | cons st rest ih =>
    cases k with
    | zero =>
      obtain rfl := Option.some.inj h
      exact hd
    | succ k =>
      obtain ⟨f, hf, he⟩ := Option.bind_eq_some_iff.mp h
      exact ih (fun st hst => hrun st (List.mem_cons_of_mem _ hst)) he
        (hrun st List.mem_cons_self d f hd hf)

theorem advance_cases {st : Stage} {rest later : List Stage} {d e : Dir} {failure : Option ℕ}
    (h : advance (st :: rest) d failure = some (e, later)) :
    (st.run d = some e ∧ later = rest) ∨
      later = [] ∧ (e = d ∨ ∃ op n, st d = some op ∧ op.tear d n = some e) := by
  cases failure with
  | none =>
    simp only [advance] at h
    split at h
    · rename_i f hf
      obtain ⟨rfl, rfl⟩ := Prod.mk.inj (Option.some.inj h)
      exact .inl ⟨hf, rfl⟩
    · obtain ⟨rfl, rfl⟩ := Prod.mk.inj (Option.some.inj h)
      exact .inr ⟨rfl, .inl rfl⟩
  | some n =>
    obtain ⟨rfl, rfl⟩ := Prod.mk.inj (Option.some.inj h)
    refine .inr ⟨rfl, ?_⟩
    cases hop : st d with
    | none => exact .inl rfl
    | some op =>
      cases ht : op.tear d n with
      | none => exact .inl (by simp [ht])
      | some f => exact .inr ⟨op, n, rfl, by simp [ht]⟩

end Files

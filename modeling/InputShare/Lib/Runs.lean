import Mathlib.Logic.Relation

/-! Finite labelled runs of a partial step function. The label carries every choice that is
not the program's own, so a run is replayed by evaluation; a side condition on the actions
restricts the runs without touching the step. -/
namespace Runs
variable {σ α : Type*} {step : σ → α → Option σ} {ok ok' : σ → α → Prop}

/-- From the first state the actions lead to the last one, each meeting `ok` where it is taken. -/
inductive Run (step : σ → α → Option σ) (ok : σ → α → Prop) : σ → List α → σ → Prop where
  | nil (s : σ) : Run step ok s [] s
  | cons {s t u : σ} {a : α} {as : List α} (hok : ok s a) (hs : step s a = some t)
      (h : Run step ok t as u) : Run step ok s (a :: as) u

/-- No side condition: every run of the step function. -/
def Any : σ → α → Prop := fun _ _ => True

theorem Run.mono (h : ∀ s a, ok s a → ok' s a) {s t : σ} {as : List α}
    (hr : Run step ok s as t) : Run step ok' s as t := by
  induction hr with
  | nil s => exact .nil s
  | cons hok hs _ ih => exact .cons (h _ _ hok) hs ih

/-- A side condition that every action of a run meets in whatever state it is taken. -/
theorem Run.of_mem {s t : σ} {as : List α} (hall : ∀ a ∈ as, ∀ s, ok' s a)
    (hr : Run step ok s as t) : Run step ok' s as t := by
  induction hr with
  | nil s => exact .nil s
  | cons _ hs _ ih =>
    exact .cons (hall _ List.mem_cons_self _) hs
      (ih fun a ha => hall a (List.mem_cons_of_mem _ ha))

/-- What one allowed step preserves, a whole run preserves. -/
theorem Run.invariant {I : σ → Prop}
    (hstep : ∀ s a t, I s → ok s a → step s a = some t → I t)
    {s t : σ} {as : List α} (h : Run step ok s as t) (hs : I s) : I t := by
  induction h with
  | nil s => exact hs
  | cons hok hst _ ih => exact ih (hstep _ _ _ hs hok hst)

/-- Where a step keeps a property exactly if it meets the side condition, so does a run. -/
theorem Run.keeps_iff {I P : σ → Prop} (hinv : ∀ s a t, I s → step s a = some t → I t)
    (hstep : ∀ s a t, I s → step s a = some t → (P t ↔ P s ∧ ok s a))
    {s t : σ} {as : List α} (h : Run step ok' s as t) (hs : I s) :
    P t ↔ P s ∧ Run step ok s as t := by
  induction h with
  | nil s => exact ⟨fun hp => ⟨hp, .nil s⟩, And.left⟩
  | cons _ hst _ ih =>
    rw [ih (hinv _ _ _ hs hst), hstep _ _ _ hs hst]
    constructor
    · intro ⟨⟨hp, hok⟩, hrun⟩
      exact ⟨hp, .cons hok hst hrun⟩
    · intro ⟨hp, hrun⟩
      cases hrun with
      | cons hok hst' hrun =>
        obtain rfl := Option.some.inj (hst.symm.trans hst')
        exact ⟨⟨hp, hok⟩, hrun⟩

/-- `P` holds in every state that the actions lead through. -/
def Throughout (step : σ → α → Option σ) (P : σ → Prop) (s : σ) (as : List α) : Prop :=
  ∀ bs t, bs <+: as → Run step Any s bs t → P t

/-- Where a step from a state with a property leads to another exactly if it meets the side
condition, a run keeps to such states exactly if all of its steps meet it. -/
theorem Run.throughout_iff {I P : σ → Prop}
    (hinv : ∀ s a t, I s → ok' s a → step s a = some t → I t)
    (hstep : ∀ s a t, I s → P s → ok' s a → step s a = some t → (P t ↔ ok s a))
    {s t : σ} {as : List α} (h : Run step ok' s as t) (hs : I s) (hp : P s) :
    Throughout step P s as ↔ Run step ok s as t := by
  induction h with
  | nil s =>
    refine ⟨fun _ => .nil s, fun _ bs t hbs hrun => ?_⟩
    obtain rfl := List.prefix_nil.mp hbs
    cases hrun
    exact hp
  | @cons s t u a as hok hst _ ih =>
    have hiff : P t ↔ ok s a := hstep s a t hs hp hok hst
    have hnext := ih (hinv s a t hs hok hst)
    constructor
    · intro hall
      have ht : P t := hall [a] t (List.cons_prefix_cons.mpr ⟨rfl, List.nil_prefix⟩)
        (.cons trivial hst (.nil t))
      refine .cons (hiff.mp ht) hst ((hnext ht).mp fun bs v hbs hrun => ?_)
      exact hall (a :: bs) v (List.cons_prefix_cons.mpr ⟨rfl, hbs⟩) (.cons trivial hst hrun)
    · intro hrun bs v hbs hv
      cases hrun with
      | cons hoka hst' hrest =>
        obtain rfl := Option.some.inj (hst.symm.trans hst')
        cases hv with
        | nil => exact hp
        | cons _ hst'' hv =>
          obtain ⟨rfl, htail⟩ := List.cons_prefix_cons.mp hbs
          obtain rfl := Option.some.inj (hst.symm.trans hst'')
          exact (hnext (hiff.mpr hoka)).mpr hrest _ v htail hv

/-- A relation to the past that holds of every step and composes holds of every run. -/
theorem Run.related {R : σ → σ → Prop} (hrefl : ∀ s, R s s)
    (htrans : ∀ s t u, R s t → R t u → R s u)
    (hstep : ∀ s a t, ok s a → step s a = some t → R s t)
    {s t : σ} {as : List α} (h : Run step ok s as t) : R s t := by
  induction h with
  | nil s => exact hrefl s
  | cons hok hst _ ih => exact htrans _ _ _ (hstep _ _ _ hok hst) ih

section Recording
variable {ρ : Type*} {note : σ × ρ → α → ρ}

/-- The same steps, with a record beside the state of what has happened. -/
def recording (step : σ → α → Option σ) (note : σ × ρ → α → ρ) (x : σ × ρ) (a : α) :
    Option (σ × ρ) :=
  (step x.1 a).map fun t => (t, note x a)

theorem recording_eq_some {x y : σ × ρ} {a : α} :
    recording step note x a = some y ↔ step x.1 a = some y.1 ∧ note x a = y.2 := by
  rw [recording, Option.map_eq_some_iff]
  constructor
  · rintro ⟨t, ht, rfl⟩
    exact ⟨ht, rfl⟩
  · rintro ⟨hs, hr⟩
    exact ⟨_, hs, by rw [hr]⟩

end Recording

section Replay
variable {β : Type*}

instance (s : σ) (a : α) : Decidable (Any s a) := .isTrue trivial

/-- Takes the actions one after the other, checking the side condition of each. -/
def replay (step : σ → α → Option σ) (ok : σ → α → Prop) [∀ s a, Decidable (ok s a)] :
    σ → List α → Option σ
  | s, [] => some s
  | s, a :: as => if ok s a then (step s a).bind fun t => replay step ok t as else none

/-- What is seen of the state a replay ends in, a run ends in. -/
theorem run_of_replay (step : σ → α → Option σ) (ok : σ → α → Prop) [∀ s a, Decidable (ok s a)]
    (s : σ) (as : List α) (see : σ → β) {b : β}
    (h : (replay step ok s as).map see = some b) : ∃ t, Run step ok s as t ∧ see t = b := by
  obtain ⟨t, ht, hb⟩ := Option.map_eq_some_iff.mp h
  refine ⟨t, ?_, hb⟩
  clear h hb
  induction as generalizing s with
  | nil =>
    obtain rfl := Option.some.inj ht
    exact .nil s
  | cons a as ih =>
    by_cases hok : ok s a
    · simp only [replay, hok, if_true, Option.bind_eq_some_iff] at ht
      obtain ⟨u, hu, ht⟩ := ht
      exact .cons hok hu (ih u ht)
    · simp [replay, hok] at ht

end Replay
end Runs

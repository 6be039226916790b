import InputShare.Lib.Runs
import Mathlib.Data.List.Basic

/-! A machine that reports what it is shown and itself has things shown, to itself among others.
What it causes comes back marked, at any later time, in any order and any number of times, and is
not reported. -/
namespace Echo
open Runs
variable {σ ε α ρ : Type*}

/-- `σ` is its state, `ε` what it is shown, `α` what it is asked to do and `ρ` what it reports. -/
structure Machine (σ ε α ρ : Type*) where
  observe : σ → ε → σ
  act : σ → α → σ × List ε
  log : σ → List ρ
  report : ε → Option ρ
  Marked : ε → Prop
  log_observe : ∀ s e, ¬ Marked e → log (observe s e) = log s ++ (report e).toList
  log_marked : ∀ s e, Marked e → log (observe s e) = log s
  log_act : ∀ s a, log (act s a).1 = log s
  marked_act : ∀ s a, ∀ e ∈ (act s a).2, Marked e

structure World (σ ε : Type*) where
  state : σ
  /-- What it has caused; it may be shown to it at any time. -/
  caused : List ε
  /-- What it was shown that it has not caused. -/
  genuine : List ε

inductive Action (ε α : Type*) where
  | genuine (e : ε)
  | act (a : α)
  /-- Something it has caused is shown to it. -/
  | echo (n : ℕ)

namespace Machine
variable (S : Machine σ ε α ρ)

def step (w : World σ ε) : Action ε α → Option (World σ ε)
  | .genuine e => some { w with state := S.observe w.state e, genuine := w.genuine ++ [e] }
  | .act a => some { w with
      state := (S.act w.state a).1
      caused := w.caused ++ (S.act w.state a).2 }
  | .echo n => w.caused[n]?.map fun e => { w with state := S.observe w.state e }

def Unmarked (_ : World σ ε) (a : Action ε α) : Prop := ∀ e, a = .genuine e → ¬ S.Marked e

structure Inv (before : List ρ) (w : World σ ε) : Prop where
  log : S.log w.state = before ++ w.genuine.filterMap S.report
  caused : ∀ e ∈ w.caused, S.Marked e

variable {S}

theorem Inv.step {before : List ρ} {w v : World σ ε} {a : Action ε α} (h : S.Inv before w)
    (hok : S.Unmarked w a) (hs : S.step w a = some v) : S.Inv before v := by
  cases a with
  | genuine e =>
    obtain rfl := Option.some.inj hs
    refine ⟨?_, h.caused⟩
    rw [S.log_observe w.state e (hok e rfl), h.log, List.filterMap_append, List.append_assoc]
    cases hr : S.report e <;> simp [hr]
  | act a =>
    obtain rfl := Option.some.inj hs
    refine ⟨(S.log_act w.state a).trans h.log, fun e he => ?_⟩
    obtain he | he := List.mem_append.mp he
    · exact h.caused e he
    · exact S.marked_act w.state a e he
  | echo n =>
    obtain ⟨e, he, rfl⟩ := Option.map_eq_some_iff.mp hs
    have hmem : e ∈ w.caused := List.mem_of_getElem? he
    exact ⟨(S.log_marked w.state e (h.caused e hmem)).trans h.log, h.caused⟩

/-- Whatever it does in between, it reports what it was shown and has not caused itself, in order
each once. -/
theorem reports_genuine {s : σ} {as : List (Action ε α)} {w : World σ ε}
    (h : Run S.step S.Unmarked ⟨s, [], []⟩ as w) :
    S.log w.state = S.log s ++ w.genuine.filterMap S.report :=
  (h.invariant (I := S.Inv (S.log s)) (fun _ _ _ hw hok hs => hw.step hok hs)
    ⟨by simp, by simp⟩).log

end Machine
end Echo

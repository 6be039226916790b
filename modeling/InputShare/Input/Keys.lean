import InputShare.Net.Wire
import Mathlib.Data.List.Induction
import Mathlib.Tactic.Push

/-! What is down on a desktop, from the input that has taken effect there: a key or a button is
down from its press to its next release. -/
namespace InputShare

inductive Key where
  | key (vk scan : ℕ) (extended : Bool)
  | button (button : MouseButton)
deriving DecidableEq

namespace InputEvent

/-- The key or button an event is about, and whether it goes down. -/
def stroke : InputEvent → Option (Key × Bool)
  | .key vk scan down extended => some (.key vk scan extended, down)
  | .mouseButton button down => some (.button button, down)
  | .mouseMove .. | .cursorEnter .. | .wheel .. => none

def handsOver : InputEvent → Bool
  | .cursorEnter .. => true
  | _ => false

def presses (k : Key) (e : InputEvent) : Bool := e.stroke = some (k, true)

def lifts (k : Key) (e : InputEvent) : Bool := e.stroke = some (k, false)

end InputEvent

/-- Whether a key is down, from what has taken effect on a desktop. -/
def Down (k : Key) (log : List InputEvent) : Bool :=
  log.foldl (fun d e => if e.lifts k then false else d || e.presses k) false

def Released (log : List InputEvent) : Prop :=
  ∀ xs e ys k, log = xs ++ e :: ys → e.presses k = true → ∃ f ∈ ys, f.lifts k = true

theorem down_append_singleton (k : Key) (log : List InputEvent) (e : InputEvent) :
    Down k (log ++ [e]) = if e.lifts k then false else Down k log || e.presses k := by
  simp [Down]

theorem down_append {k : Key} {log ys : List InputEvent} (h : Down k log = true)
    (hys : ∀ f ∈ ys, f.lifts k = false) : Down k (log ++ ys) = true := by
  induction ys using List.reverseRecOn with
  | nil => rwa [List.append_nil]
  | append_singleton ys f ih =>
    have hbefore := ih fun g hg => hys g (List.mem_append_left _ hg)
    rw [← List.append_assoc, down_append_singleton, hys f (by simp), hbefore]
    rfl

theorem down_iff (k : Key) (log : List InputEvent) : Down k log = true ↔
    ∃ xs e ys, log = xs ++ e :: ys ∧ e.presses k = true ∧ ∀ f ∈ ys, f.lifts k = false := by
  constructor
  · intro h
    induction log using List.reverseRecOn with
    | nil => cases h
    | append_singleton log e ih =>
      rw [down_append_singleton] at h
      split_ifs at h with hl
      obtain h | h := Bool.or_eq_true_iff.mp h
      · obtain ⟨xs, f, ys, rfl, hf, hys⟩ := ih h
        refine ⟨xs, f, ys ++ [e], by simp, hf, fun g hg => ?_⟩
        obtain hg | hg := List.mem_append.mp hg
        · exact hys g hg
        · rw [List.mem_singleton.mp hg]
          exact Bool.eq_false_iff.mpr hl
      · exact ⟨log, e, [], rfl, h, by simp⟩
  · intro ⟨xs, e, ys, hlog, he, hys⟩
    have hl : e.lifts k = false := by
      simp_all [InputEvent.presses, InputEvent.lifts]
    have hdown : Down k (xs ++ [e]) = true := by
      rw [down_append_singleton, hl, he, Bool.or_true]
      rfl
    rw [hlog, List.append_cons]
    exact down_append hdown hys

theorem released_iff (log : List InputEvent) : Released log ↔ ∀ k, Down k log = false := by
  constructor
  · intro h k
    by_contra hd
    obtain ⟨xs, e, ys, hlog, he, hys⟩ := (down_iff k log).mp (Bool.eq_true_of_not_eq_false hd)
    obtain ⟨f, hf, hl⟩ := h xs e ys k hlog he
    rw [hys f hf] at hl
    cases hl
  · intro h xs e ys k hlog he
    by_contra hno
    push Not at hno
    have hd := (down_iff k log).mpr ⟨xs, e, ys, hlog, he, fun f hf =>
      Bool.eq_false_iff.mpr (hno f hf)⟩
    rw [h k] at hd
    cases hd

end InputShare

import Mathlib.Data.List.Infix
import Mathlib.Order.Monotone.Basic

/-! Something that is tried again and again, and how long is waited in between. A history is read
from its newest entry on. -/
namespace Retries

inductive Mark where
  | begun
  /-- The try has succeeded; it may still come to an end. -/
  | settled
  | failed
  /-- It has failed for good reason, and counts as more than `n` failures. -/
  | refused (n : ℕ)
  /-- What went before is forgotten. -/
  | wiped
  | other
deriving DecidableEq, Repr

abbrev History := List (ℕ × Mark)

def tries : History → ℕ
  | [] => 0
  | (_, m) :: h =>
    match m with
    | .wiped | .settled => 0
    | .failed => tries h + 1
    | .refused n => max (tries h) (n + 1)
    | .begun | .other => tries h

def notBefore (backoff : ℕ → ℕ) : History → ℕ
  | [] => 0
  | (t, m) :: h =>
    match m with
    | .wiped | .settled => 0
    | .failed => t + backoff (tries h + 1)
    | .refused n => t + backoff (max (tries h) (n + 1))
    | .begun | .other => notBefore backoff h

/-- A try has begun, or succeeded, and not come to an end. -/
def busy : History → Bool
  | [] => false
  | (_, m) :: h =>
    match m with
    | .begun | .settled => true
    | .failed | .refused _ => false
    | .wiped | .other => busy h

def Mark.isEnd : Mark → Bool
  | .failed | .refused _ => true
  | .begun | .settled | .wiped | .other => false

def lastEnd (h : History) : Option ℕ := (h.find? fun e => e.2.isEnd).map Prod.fst

def Paced (backoff : ℕ → ℕ) (h : History) : Prop :=
  ∀ t older, (t, .begun) :: older <:+ h → busy older = false ∧ notBefore backoff older ≤ t

def Ordered (h : History) : Prop := h.Pairwise fun a b => b.1 ≤ a.1

variable {backoff : ℕ → ℕ} {h older : History}

theorem Paced.nil : Paced backoff [] := fun _ _ hs => by simp at hs

theorem Paced.cons {t : ℕ} {m : Mark} (h' : Paced backoff h)
    (hm : m = .begun → busy h = false ∧ notBefore backoff h ≤ t) :
    Paced backoff ((t, m) :: h) := by
  intro t' older hs
  obtain heq | hs := List.suffix_cons_iff.mp hs
  · obtain ⟨hentry, rfl⟩ := List.cons.inj heq
    obtain ⟨rfl, rfl⟩ := Prod.mk.inj hentry
    exact hm rfl
  · exact h' t' older hs

/-- A try that has begun must have failed before the next one begins, and since the latest failure
nothing has succeeded. -/
theorem exists_failure {mid : History} {t : ℕ} (hbusy : busy (mid ++ (t, .begun) :: older) = false)
    (hmid : ∀ e ∈ mid, e.2 ≠ .wiped) :
    ∃ c m newer rest, mid = newer ++ (c, m) :: rest ∧ (m = .failed ∨ ∃ n, m = .refused n) ∧
      ∀ e ∈ newer, e.2 = .other := by
  induction mid with
  | nil => simp [busy] at hbusy
  | cons e mid ih =>
    obtain ⟨c, m⟩ := e
    have hrest : ∀ e ∈ mid, e.2 ≠ .wiped := fun e he => hmid e (List.mem_cons_of_mem _ he)
    cases m with
    | begun | settled => simp [busy] at hbusy
    | failed => exact ⟨c, .failed, [], mid, rfl, .inl rfl, by simp⟩
    | refused n => exact ⟨c, .refused n, [], mid, rfl, .inr ⟨n, rfl⟩, by simp⟩
    | wiped => exact absurd rfl (hmid _ List.mem_cons_self)
    | other =>
      obtain ⟨c', m', newer, rest, rfl, hm', hnewer⟩ := ih hbusy hrest
      refine ⟨c', m', (c, .other) :: newer, rest, rfl, hm', fun e he => ?_⟩
      obtain rfl | he := List.mem_cons.mp he
      · rfl
      · exact hnewer e he

theorem lastEnd_append {newer rest : History} {c : ℕ} {m : Mark} (hm : m.isEnd = true)
    (hnewer : ∀ e ∈ newer, e.2 = .other) : lastEnd (newer ++ (c, m) :: rest) = some c := by
  have hnone : newer.find? (fun e => e.2.isEnd) = none := by
    rw [List.find?_eq_none]
    intro e he
    simp [hnewer e he, Mark.isEnd]
  simp [lastEnd, List.find?_append, hnone, hm]

section Append
variable {newer : History}

theorem tries_append (hnewer : ∀ e ∈ newer, e.2 = .begun ∨ e.2 = .other) :
    tries (newer ++ h) = tries h := by
  induction newer with
  | nil => rfl
  | cons e newer ih =>
    obtain ⟨c, m⟩ := e
    have hm : m = .begun ∨ m = .other := hnewer _ List.mem_cons_self
    have hrest := ih fun e he => hnewer e (List.mem_cons_of_mem _ he)
    obtain rfl | rfl := hm
    · exact hrest
    · exact hrest

theorem notBefore_append (hnewer : ∀ e ∈ newer, e.2 = .begun ∨ e.2 = .other) :
    notBefore backoff (newer ++ h) = notBefore backoff h := by
  induction newer with
  | nil => rfl
  | cons e newer ih =>
    obtain ⟨c, m⟩ := e
    have hm : m = .begun ∨ m = .other := hnewer _ List.mem_cons_self
    have hrest := ih fun e he => hnewer e (List.mem_cons_of_mem _ he)
    obtain rfl | rfl := hm
    · exact hrest
    · exact hrest

theorem busy_append (hnewer : ∀ e ∈ newer, e.2 = .other) : busy (newer ++ h) = busy h := by
  induction newer with
  | nil => rfl
  | cons e newer ih =>
    obtain ⟨c, m⟩ := e
    obtain rfl : m = .other := hnewer _ List.mem_cons_self
    exact ih fun e he => hnewer e (List.mem_cons_of_mem _ he)

end Append

theorem countP_le_tries {mid : History} (hmid : ∀ e ∈ mid, e.2 ≠ .wiped ∧ e.2 ≠ .settled) :
    mid.countP (·.2 = .failed) ≤ tries (mid ++ older) := by
  induction mid with
  | nil => simp
  | cons e mid ih =>
    obtain ⟨c, m⟩ := e
    have hle := ih fun e he => hmid e (List.mem_cons_of_mem _ he)
    have hm := hmid _ List.mem_cons_self
    cases m with
    | wiped => exact absurd rfl hm.1
    | settled => exact absurd rfl hm.2
    | failed => simpa [tries] using hle
    | refused n => exact le_trans (by simpa using hle) (le_max_left _ _)
    | begun | other => simpa [tries] using hle

/-- Between two tries with nothing forgotten in between the first has come to an end, and since the
last end at least the shortest time was waited; if none of the tries in between has succeeded, the
time due for all the failures in between. -/
theorem Paced.gap (hp : Paced backoff h) (ho : Ordered h) (hb : Monotone backoff) {t₁ t₂ : ℕ}
    {mid : History} (hs : (t₂, .begun) :: (mid ++ (t₁, .begun) :: older) <:+ h)
    (hmid : ∀ e ∈ mid, e.2 ≠ .wiped) :
    ∃ c, lastEnd mid = some c ∧ t₁ ≤ c ∧ c + backoff 1 ≤ t₂ ∧
      ((∀ e ∈ mid, e.2 ≠ .settled) →
        c + backoff (max 1 (mid.countP (·.2 = .failed))) ≤ t₂) := by
  obtain ⟨hbusy, hdue⟩ := hp _ _ hs
  obtain ⟨c, m, newer, rest, rfl, hm, hnewer⟩ := exists_failure hbusy hmid
  have hend : m.isEnd = true := by
    obtain rfl | ⟨n, rfl⟩ := hm
    · rfl
    · rfl
  have hlater : t₁ ≤ c := by
    have hsorted := List.pairwise_cons.mp (ho.sublist hs.sublist) |>.2
    rw [List.append_assoc] at hsorted
    have htail := (List.pairwise_append.mp hsorted).2.1
    exact (List.pairwise_cons.mp htail).1 (t₁, .begun)
      (List.mem_append_right _ List.mem_cons_self)
  rw [List.append_assoc, notBefore_append fun e he => .inr (hnewer e he)] at hdue
  have htries : ∀ k, 1 ≤ k → (k ≤ tries ((c, m) :: (rest ++ (t₁, .begun) :: older))) →
      c + backoff k ≤ t₂ := by
    intro k _ hk
    refine le_trans (Nat.add_le_add_left (hb hk) c) ?_
    obtain rfl | ⟨n, rfl⟩ := hm
    · exact hdue
    · exact hdue
  have hone : 1 ≤ tries ((c, m) :: (rest ++ (t₁, .begun) :: older)) := by
    obtain rfl | ⟨n, rfl⟩ := hm
    · exact Nat.le_add_left _ _
    · exact le_trans (Nat.le_add_left _ _) (le_max_right _ _)
  refine ⟨c, lastEnd_append hend hnewer, hlater, htries 1 le_rfl hone,
    fun hsettled => htries _ (le_max_left _ _) ?_⟩
  refine max_le hone ?_
  have hnone : newer.countP (·.2 = .failed) = 0 := by
    rw [List.countP_eq_zero]
    intro e he
    simp [hnewer e he]
  rw [List.countP_append, hnone, Nat.zero_add]
  have hcount := @countP_le_tries ((t₁, .begun) :: older) ((c, m) :: rest)
  refine hcount fun e he => ⟨?_, ?_⟩
  · exact hmid e (List.mem_append_right _ he)
  · exact hsettled e (List.mem_append_right _ he)

end Retries

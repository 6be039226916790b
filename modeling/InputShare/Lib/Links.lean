import Mathlib.Data.List.Basic

/-! One direction of a connection: a bounded queue that a producer offers messages to, and an
ordered wire that a consumer reads from. Cutting the connection loses whatever is on it. -/
namespace Links
variable {μ : Type*}

structure Link (μ : Type*) where
  up : Bool
  /-- The producer still holds its end of the queue. -/
  outbound : Bool
  queue : List μ
  wire : List μ
deriving DecidableEq

namespace Link

def fresh : Link μ := ⟨true, true, [], []⟩

def inFlight (l : Link μ) : List μ := l.wire ++ l.queue

def hasRoom (l : Link μ) (limit : ℕ) : Bool :=
  l.up && l.outbound && decide (l.queue.length < limit)

def enqueue (l : Link μ) (m : μ) : Link μ := { l with queue := l.queue ++ [m] }

def offer (l : Link μ) (limit : ℕ) (m : μ) : Link μ :=
  if l.hasRoom limit then l.enqueue m else l

/-- A full queue loses the message, and the producer gives its end up. -/
def send (l : Link μ) (limit : ℕ) (m : μ) : Link μ :=
  if l.hasRoom limit then l.enqueue m else { l with outbound := false }

/-- The first message of the queue goes onto the wire. -/
def write (l : Link μ) : Option (Link μ) :=
  match l.queue with
  | [] => none
  | m :: rest => if l.up then some { l with queue := rest, wire := l.wire ++ [m] } else none

def read (l : Link μ) : Option (μ × Link μ) :=
  match l.wire with
  | [] => none
  | m :: rest => if l.up then some (m, { l with wire := rest }) else none

def cut (l : Link μ) : Link μ := { l with up := false, queue := [], wire := [] }

def forget (l : Link μ) : Link μ := { l with outbound := false }

@[simp] theorem inFlight_fresh : (fresh : Link μ).inFlight = [] := rfl
@[simp] theorem inFlight_cut (l : Link μ) : l.cut.inFlight = [] := rfl
@[simp] theorem inFlight_forget (l : Link μ) : l.forget.inFlight = l.inFlight := rfl

@[simp] theorem inFlight_enqueue (l : Link μ) (m : μ) :
    (l.enqueue m).inFlight = l.inFlight ++ [m] := (List.append_assoc ..).symm

theorem inFlight_offer (l : Link μ) (limit : ℕ) (m : μ) :
    (l.offer limit m).inFlight = l.inFlight ++ if l.hasRoom limit then [m] else [] := by
  unfold offer
  split_ifs <;> simp

theorem inFlight_send (l : Link μ) (limit : ℕ) (m : μ) :
    (l.send limit m).inFlight = l.inFlight ++ if l.hasRoom limit then [m] else [] := by
  unfold send
  split_ifs
  · exact inFlight_enqueue l m
  · simp [inFlight]

theorem inFlight_write {l t : Link μ} (h : l.write = some t) : t.inFlight = l.inFlight := by
  unfold write at h
  split at h
  · cases h
  · rename_i m rest hq
    split_ifs at h
    obtain rfl := Option.some.inj h
    simp [inFlight, hq]

theorem inFlight_read {l t : Link μ} {m : μ} (h : l.read = some (m, t)) :
    l.inFlight = m :: t.inFlight := by
  unfold read at h
  split at h
  · cases h
  · rename_i n rest hw
    split_ifs at h
    obtain ⟨rfl, rfl⟩ := Prod.mk.inj (Option.some.inj h)
    simp [inFlight, hw]

theorem head_of_read {l t : Link μ} {m : μ} (h : l.read = some (m, t)) : m ∈ l.wire.head? := by
  unfold read at h
  split at h
  · cases h
  · rename_i n rest hw
    split_ifs at h
    obtain ⟨rfl, -⟩ := Prod.mk.inj (Option.some.inj h)
    rw [hw]
    rfl

end Link
end Links

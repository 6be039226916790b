import Mathlib.Data.List.Infix

/-! Queues that are taken from at the front and added to at the end: what holds of the messages
behind a given one. -/
namespace Inbox
variable {μ : Type*}

/-- Wherever `m` stands in the queue, `P` holds of what is behind it. -/
def Behind (l : List μ) (m : μ) (P : List μ → Prop) : Prop := ∀ ns, m :: ns <:+ l → P ns

theorem Behind.head {l : List μ} {m : μ} {P : List μ → Prop} (h : Behind (m :: l) m P) : P l :=
  h l (List.suffix_refl _)

theorem Behind.tail {l : List μ} {m x : μ} {P : List μ → Prop} (h : Behind (x :: l) m P) :
    Behind l m P :=
  fun ns hs => h ns (hs.trans (List.suffix_cons x l))

theorem Behind.mono {l : List μ} {m : μ} {P Q : List μ → Prop} (h : Behind l m P)
    (hPQ : ∀ ns, P ns → Q ns) : Behind l m Q :=
  fun ns hs => hPQ ns (h ns hs)

theorem behind_of_not_mem {l : List μ} {m : μ} {P : List μ → Prop} (h : m ∉ l) : Behind l m P :=
  fun _ hs => absurd (hs.subset List.mem_cons_self) h

theorem Behind.append {l ms : List μ} {m : μ} {P Q : List μ → Prop} (h : Behind l m P)
    (hP : ∀ ns, P ns → Q (ns ++ ms)) (hm : Behind ms m Q) : Behind (l ++ ms) m Q := by
  rintro ns ⟨as, has⟩
  obtain ⟨bs, rfl, hbs⟩ | ⟨bs, rfl, hbs⟩ := List.append_eq_append_iff.mp has
  · cases bs with
    | nil => exact hm ns ⟨[], by simpa using hbs⟩
    | cons b bs =>
      obtain ⟨rfl, rfl⟩ := List.cons.inj hbs
      exact hP bs (h bs ⟨as, rfl⟩)
  · exact hm ns ⟨bs, hbs.symm⟩

end Inbox

import Mathlib.Data.Sym.Sym2

/-! Ideal cryptography: signatures, key exchange, key derivation and authenticated encryption as
free constructors, and an attacker who can do with them what the holders of the keys can. Plain
data, public keys among it, is known to everybody. -/
namespace Symbolic
variable {δ ν κ : Type*}

/-- `δ` is plain data, `ν` names the secrets of the key exchange, `κ` the signing keys. -/
inductive Term (δ ν κ : Type*) where
  | data (d : δ)
  | exponent (x : ν)
  | signingKey (k : κ)
  /-- What the holders of two exponents agree on. -/
  | shared (p : Sym2 ν)
  | derived (secret : Term δ ν κ) (salt : δ) (first : Bool)
  | signed (k : κ) (d : δ)
  | «sealed» (key : Term δ ν κ) (counter : ℕ) (body : δ)

section Decide
variable [DecidableEq δ] [DecidableEq ν] [DecidableEq κ]

def Term.same : Term δ ν κ → Term δ ν κ → Bool
  | .data d, .data e => d = e
  | .exponent x, .exponent y => x = y
  | .signingKey k, .signingKey l => k = l
  | .shared p, .shared q => p = q
  | .derived s d b, .derived t e c => s.same t && decide (d = e) && b == c
  | .signed k d, .signed l e => k = l ∧ d = e
  | .sealed s n d, .sealed t m e => s.same t && decide (n = m ∧ d = e)
  | _, _ => false

theorem Term.same_iff {a b : Term δ ν κ} : a.same b = true ↔ a = b := by
  induction a generalizing b with
  | derived s d c ih => cases b <;> simp [same, ih, and_assoc]
  | «sealed» s n d ih => cases b <;> simp [same, ih]
  | _ => cases b <;> simp [same]

instance : DecidableEq (Term δ ν κ) := fun _ _ => decidable_of_iff _ Term.same_iff

end Decide

/-- What can be made from what is known. Opening a frame yields plain data, which is known. -/
inductive Derives (known : Term δ ν κ → Prop) : Term δ ν κ → Prop where
  | known {t : Term δ ν κ} (h : known t) : Derives known t
  | data (d : δ) : Derives known (.data d)
  | agree {x : ν} (h : Derives known (.exponent x)) (y : ν) : Derives known (.shared s(x, y))
  | derive {secret : Term δ ν κ} (h : Derives known secret) (salt : δ) (first : Bool) :
      Derives known (.derived secret salt first)
  | sign {k : κ} (h : Derives known (.signingKey k)) (d : δ) : Derives known (.signed k d)
  | «seal» {key : Term δ ν κ} (h : Derives known key) (counter : ℕ) (body : δ) :
      Derives known (.sealed key counter body)

/-- What the honest parties keep to themselves, and what they have made with it. -/
structure Honest (δ ν κ : Type*) where
  exponent : ν → Prop
  signer : κ → Prop
  signed : κ → δ → Prop
  «sealed» : Term δ ν κ → ℕ → δ → Prop

/-- A term that gives nothing away and that no honest party has to answer for. -/
def Safe (h : Honest δ ν κ) : Term δ ν κ → Prop
  | .data _ => True
  | .exponent x => ¬ h.exponent x
  | .signingKey k => ¬ h.signer k
  | .shared p => ∃ x ∈ p, ¬ h.exponent x
  | .derived secret _ _ => Safe h secret
  | .signed k d => h.signer k → h.signed k d
  | .sealed key counter body => Safe h key ∨ h.sealed key counter body

/-- Nothing else can be made from safe terms. -/
theorem Derives.safe {h : Honest δ ν κ} {known : Term δ ν κ → Prop}
    (hk : ∀ t, known t → Safe h t) {t : Term δ ν κ} (ht : Derives known t) : Safe h t := by
  induction ht with
  | known h => exact hk _ h
  | data d => trivial
  | agree _ y ih => exact ⟨_, Sym2.mem_mk_left _ y, ih⟩
  | derive _ _ _ ih => exact ih
  | sign _ _ ih => exact fun hs => absurd hs ih
  | «seal» _ _ _ ih => exact .inl ih

theorem Safe.mono {h k : Honest δ ν κ} (he : ∀ x, k.exponent x → h.exponent x)
    (hs : ∀ s, k.signer s → h.signer s) (hsigned : ∀ s d, h.signed s d → k.signed s d)
    (hsealed : ∀ t n d, h.sealed t n d → k.sealed t n d) {t : Term δ ν κ} (ht : Safe h t) :
    Safe k t := by
  induction t with
  | data d => trivial
  | exponent x => exact fun hx => ht (he x hx)
  | signingKey s => exact fun hk => ht (hs s hk)
  | shared p =>
    obtain ⟨x, hx, hn⟩ := ht
    exact ⟨x, hx, fun hk => hn (he x hk)⟩
  | derived secret salt first ih => exact ih ht
  | signed s d => exact fun hk => hsigned s d (ht (hs s hk))
  | «sealed» key counter body ih => exact Or.imp ih (hsealed key counter body) ht

theorem not_safe_shared {h : Honest δ ν κ} {x y : ν} (hx : h.exponent x) (hy : h.exponent y) :
    ¬ Safe h (.shared s(x, y)) := by
  rintro ⟨z, hz, hn⟩
  obtain rfl | rfl := Sym2.mem_iff.mp hz
  · exact hn hx
  · exact hn hy

end Symbolic

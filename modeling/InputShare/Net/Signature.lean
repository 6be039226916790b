import InputShare.Lib.Utf8
import Mathlib.Tactic.Ring

/-! The signature of a `Hello` as it travels: a text of two hexadecimal digits a byte, received
from anybody. -/
namespace InputShare
open Utf8

namespace Sig64

inductive IntErrorKind where
  | empty | invalidDigit | posOverflow
deriving DecidableEq, Repr

def IntErrorKind.text : IntErrorKind → String
  | .empty => "cannot parse integer from empty string"
  | .invalidDigit => "invalid digit found in string"
  | .posOverflow => "number too large to fit in target type"

/-- `char::to_digit` in base 16. -/
def toDigit (c : Char) : Option ℕ :=
  if '0' ≤ c ∧ c ≤ '9' then some (c.toNat - 48)
  else if 'a' ≤ c ∧ c ≤ 'f' then some (c.toNat - 87)
  else if 'A' ≤ c ∧ c ≤ 'F' then some (c.toNat - 55)
  else none

/-- The loop over the digits of a `u8`. -/
def parseDigits (acc : ℕ) : Text → Except IntErrorKind ℕ
  | [] => .ok acc
  | c :: rest =>
    match toDigit c with
    | none => .error .invalidDigit
    | some d => if acc * 16 + d < 256 then parseDigits (acc * 16 + d) rest else .error .posOverflow

/-- `u8::from_str_radix` in base 16: one plus sign may stand before the digits. -/
def fromStrRadix : Text → Except IntErrorKind ℕ
  | [] => .error .empty
  | [c] => if c = '+' ∨ c = '-' then .error .invalidDigit else parseDigits 0 [c]
  | c :: rest => if c = '+' then parseDigits 0 rest else parseDigits 0 (c :: rest)

inductive Outcome where
  | ok (bytes : List UInt8)
  | error (text : String)
  | panic
deriving DecidableEq, Repr

/-- The loop over the bytes of the signature from the `i`th on. -/
def fillFrom (text : Text) : ℕ → ℕ → Outcome
  | _, 0 => .ok []
  | i, left + 1 =>
    match slice text (i * 2) (i * 2 + 2) with
    | none => .panic
    | some piece =>
      match fromStrRadix piece with
      | .error kind => .error kind.text
      | .ok byte =>
        match fillFrom text (i + 1) left with
        | .ok bytes => .ok (UInt8.ofNat byte :: bytes)
        | other => other

def deserialize (text : String) : Outcome :=
  if byteLen text.toList ≠ 128 then .error "expected a 64-byte signature"
  else fillFrom text.toList 0 64

def hexDigit (n : ℕ) : Char := Char.ofNat (if n < 10 then 48 + n else 87 + n)

/-- The digits of a byte, `02x`. -/
def hexPair (b : UInt8) : Text := [hexDigit (b.toNat / 16), hexDigit (b.toNat % 16)]

def hexEncode (bytes : List UInt8) : String := String.ofList (bytes.flatMap hexPair)

/-! What the loop does, pair after pair. -/

/-- A pair that parses: two digits, or a plus sign and one. -/
def Parses (p : Char × Char) : Prop :=
  ((toDigit p.1).isSome ∨ p.1 = '+') ∧ (toDigit p.2).isSome

def Plain (p : Char × Char) : Prop := (toDigit p.1).isSome ∧ (toDigit p.2).isSome

instance : DecidablePred Parses := fun _ => inferInstanceAs (Decidable (_ ∧ _))
instance : DecidablePred Plain := fun _ => inferInstanceAs (Decidable (_ ∧ _))

/-- The value of a pair, a plus sign counting for nothing. -/
def value (p : Char × Char) : ℕ := (toDigit p.1).getD 0 * 16 + (toDigit p.2).getD 0

def join (pairs : List (Char × Char)) : Text := pairs.flatMap fun p => [p.1, p.2]

theorem toNat_of_toDigit {c : Char} {d : ℕ} (h : toDigit c = some d) : c.toNat < 128 := by
  have hnat : ∀ {a b : Char}, a ≤ b → a.toNat ≤ b.toNat := fun h => h
  unfold toDigit at h
  split_ifs at h with h₁ h₂ h₃
  · exact lt_of_le_of_lt (hnat h₁.2) (by decide)
  · exact lt_of_le_of_lt (hnat h₂.2) (by decide)
  · exact lt_of_le_of_lt (hnat h₃.2) (by decide)

theorem toDigit_some {c : Char} {d : ℕ} (h : toDigit c = some d) :
    d < 16 ∧ c.utf8Size = 1 ∧ hexDigit d = c.toLower := by
  have hall : ∀ n < 128, ∀ d ∈ toDigit (Char.ofNat n), d < 16 ∧ (Char.ofNat n).utf8Size = 1 ∧
      hexDigit d = (Char.ofNat n).toLower := by
    decide
  have hc := hall c.toNat (toNat_of_toDigit h)
  rw [Char.ofNat_toNat] at hc
  exact hc d h

theorem toDigit_hexDigit {n : ℕ} (h : n < 16) : toDigit (hexDigit n) = some n := by
  have hall : ∀ n < 16, toDigit (hexDigit n) = some n := by decide
  exact hall n h

theorem Parses.utf8Size {p : Char × Char} (h : Parses p) :
    p.1.utf8Size = 1 ∧ p.2.utf8Size = 1 := by
  obtain ⟨d, hd⟩ := Option.isSome_iff_exists.mp h.2
  refine ⟨?_, (toDigit_some hd).2.1⟩
  obtain h | h := h.1
  · obtain ⟨c, hc⟩ := Option.isSome_iff_exists.mp h
    exact (toDigit_some hc).2.1
  · rw [h]
    rfl

theorem fromStrRadix_single {c : Char} (h : toDigit c = none) :
    fromStrRadix [c] = .error .invalidDigit := by
  simp [fromStrRadix, parseDigits, h]

theorem fromStrRadix_pair (c d : Char) :
    fromStrRadix [c, d] = if Parses (c, d) then .ok (value (c, d)) else .error .invalidDigit := by
  have hplus : toDigit '+' = none := by decide
  by_cases hc : c = '+'
  · subst hc
    cases hd : toDigit d with
    | none => simp [fromStrRadix, parseDigits, Parses, hd]
    | some e =>
      have := (toDigit_some hd).1
      have hlt : e < 256 := by omega
      simp [fromStrRadix, parseDigits, Parses, value, hd, hplus, hlt]
  · cases hx : toDigit c with
    | none => simp [fromStrRadix, parseDigits, Parses, hc, hx]
    | some x =>
      have hx' := (toDigit_some hx).1
      have hlt : x < 256 := by omega
      cases hd : toDigit d with
      | none => simp [fromStrRadix, parseDigits, Parses, hc, hx, hd, hlt]
      | some e =>
        have := (toDigit_some hd).1
        have hlt' : x * 16 + e < 256 := by omega
        simp [fromStrRadix, parseDigits, Parses, value, hc, hx, hd, hlt, hlt']

theorem toDigit_wide {c : Char} (h : c.utf8Size = 2) : toDigit c = none := by
  cases hc : toDigit c with
  | none => rfl
  | some d =>
    have := (toDigit_some hc).2.1
    omega

def decodePairs : ℕ → Text → Outcome
  | 0, _ => .ok []
  | left + 1, text =>
    match cut 2 text with
    | none => .panic
    | some (piece, rest) =>
      match fromStrRadix piece with
      | .error kind => .error kind.text
      | .ok byte =>
        match decodePairs left rest with
        | .ok bytes => .ok (UInt8.ofNat byte :: bytes)
        | other => other

/-- As long as the pairs before it could be cut, a pair is the next one of the text. -/
theorem fillFrom_eq {text front rest : Text} {i : ℕ} (left : ℕ)
    (h : cut (i * 2) text = some (front, rest)) : fillFrom text i left = decodePairs left rest := by
  induction left generalizing i front rest with
  | zero => rfl
  | succ left ih =>
    rw [fillFrom, decodePairs, slice_of_cut h]
    cases hcut : cut 2 rest with
    | none => rfl
    | some p =>
      obtain ⟨piece, rest'⟩ := p
      have hnext : cut ((i + 1) * 2) text = some (front ++ piece, rest') := by
        rw [add_mul, one_mul, cut_add 2 h, hcut]
        rfl
      simp only [Option.map_some, ih hnext]

@[simp] theorem join_nil : join [] = [] := rfl

@[simp] theorem join_cons (p : Char × Char) (pairs : List (Char × Char)) :
    join (p :: pairs) = p.1 :: p.2 :: join pairs := rfl

/-- Everything the loop can come to on a text of as many pairs of bytes: they all parse, or the
first that does not is a character two bytes long, two characters, or ends inside one. -/
inductive Decodes : Text → Outcome → Prop where
  | nil : Decodes [] (.ok [])
  | pair {c d : Char} {rest : Text} {bytes : List UInt8} (h : Parses (c, d))
      (hrest : Decodes rest (.ok bytes)) :
      Decodes (c :: d :: rest) (.ok (UInt8.ofNat (value (c, d)) :: bytes))
  | later {c d : Char} {rest : Text} {out : Outcome} (h : Parses (c, d))
      (hrest : Decodes rest out) (hout : ∀ bytes, out ≠ .ok bytes) :
      Decodes (c :: d :: rest) out
  | invalid {c d : Char} {rest : Text} (hc : c.utf8Size = 1) (hd : d.utf8Size = 1)
      (h : ¬ Parses (c, d)) : Decodes (c :: d :: rest) (.error IntErrorKind.invalidDigit.text)
  | wide {c : Char} {rest : Text} (hc : c.utf8Size = 2) :
      Decodes (c :: rest) (.error IntErrorKind.invalidDigit.text)
  | splits {text : Text} (h : Splits text) : Decodes text .panic

theorem decodes_decodePairs {left : ℕ} {text : Text} (h : byteLen text = 2 * left) :
    Decodes text (decodePairs left text) := by
  induction left generalizing text with
  | zero =>
    cases text with
    | nil => exact .nil
    | cons c text =>
      have := c.utf8Size_pos
      simp only [byteLen_cons] at h
      omega
  | succ left ih =>
    have hcut : Cut2 text (cut 2 text) := cut_two (by omega)
    rw [decodePairs]
    generalize cut 2 text = front at hcut
    cases hcut with
    | splits hs => exact .splits hs
    | @wide c rest hc =>
      simp only [fromStrRadix_single (toDigit_wide hc)]
      exact .wide hc
    | @pair c d rest hc hd =>
      have hrest : Decodes rest (decodePairs left rest) := by
        refine ih ?_
        simp only [byteLen_cons, hc, hd] at h
        omega
      simp only [fromStrRadix_pair]
      by_cases hp : Parses (c, d)
      · simp only [hp, if_true]
        generalize decodePairs left rest = out at hrest
        cases out with
        | ok bytes => exact .pair hp hrest
        | error text => exact .later hp hrest (by simp)
        | panic => exact .later hp hrest (by simp)
      · simp only [hp, if_false]
        exact .invalid hc hd hp

theorem Decodes.panics {text : Text} {out : Outcome} (h : Decodes text out) (ho : out = .panic) :
    ∃ pairs rest, text = join pairs ++ rest ∧ (∀ p ∈ pairs, Parses p) ∧ Splits rest := by
  induction h with
  | nil | pair | invalid | wide => cases ho
  | splits h => exact ⟨[], _, rfl, by simp, h⟩
  | @later c d rest out h _ _ ih =>
    obtain ⟨pairs, rest', rfl, hall, hs⟩ := ih ho
    exact ⟨(c, d) :: pairs, rest', rfl, by simpa [h] using hall, hs⟩

theorem Decodes.accepts {text : Text} {out : Outcome} (h : Decodes text out)
    {bytes : List UInt8} (ho : out = .ok bytes) :
    ∃ pairs, text = join pairs ∧ (∀ p ∈ pairs, Parses p) ∧
      bytes = pairs.map fun p => UInt8.ofNat (value p) := by
  induction h generalizing bytes with
  | invalid | wide | splits => cases ho
  | later _ _ hout => exact absurd ho (hout _)
  | nil =>
    obtain rfl := Outcome.ok.inj ho
    exact ⟨[], rfl, by simp, rfl⟩
  | @pair c d rest bytes' h _ ih =>
    obtain ⟨pairs, rfl, hall, rfl⟩ := ih rfl
    obtain rfl := Outcome.ok.inj ho
    exact ⟨(c, d) :: pairs, rfl, by simpa [h] using hall, rfl⟩

theorem Decodes.join {pairs : List (Char × Char)} {rest : Text} {out : Outcome}
    (h : Decodes (Sig64.join pairs ++ rest) out) (hall : ∀ p ∈ pairs, Parses p) :
    (rest = [] → out = .ok (pairs.map fun p => UInt8.ofNat (value p))) ∧
      (Splits rest → out = .panic) := by
  induction pairs generalizing out with
  | nil =>
    refine ⟨fun he => ?_, fun hs => ?_⟩
    · subst he
      cases h with
      | nil => rfl
      | splits h => exact h.elim
    · cases h with
      | nil => exact hs.elim
      | splits => rfl
      | @pair c d _ _ h | @later c d _ _ h =>
        obtain ⟨hc, hd⟩ : c.utf8Size = 1 ∧ d.utf8Size = 1 := h.utf8Size
        simp only [Splits] at hs
        omega
      | invalid hc hd =>
        simp only [Splits] at hs
        omega
      | @wide c rest hc => cases rest <;> simp [Splits, hc] at hs
  | cons p pairs ih =>
    obtain ⟨hp, hpairs⟩ := List.forall_mem_cons.mp hall
    cases h with
    | @pair _ _ _ bytes _ hrest =>
      obtain ⟨hnil, hsplits⟩ := ih hrest hpairs
      refine ⟨fun he => ?_, fun hs => ?_⟩
      · obtain rfl := Outcome.ok.inj (hnil he)
        rfl
      · cases hsplits hs
    | later _ hrest hout =>
      obtain ⟨hnil, hsplits⟩ := ih hrest hpairs
      exact ⟨fun he => absurd (hnil he) (hout _), hsplits⟩
    | invalid _ _ h => exact absurd hp h
    | wide hc =>
      have := hp.utf8Size.1
      omega
    | splits h =>
      obtain ⟨hc, hd⟩ := hp.utf8Size
      simp only [join_cons, List.cons_append, Splits] at h
      omega

theorem deserialize_decodes {text : String} (h : byteLen text.toList = 128) :
    Decodes text.toList (deserialize text) := by
  have hfill : deserialize text = decodePairs 64 text.toList := by
    rw [deserialize, if_neg (not_not_intro h)]
    exact fillFrom_eq 64 (cut_zero _)
  rw [hfill]
  exact decodes_decodePairs h

theorem byteLen_join {pairs : List (Char × Char)} (h : ∀ p ∈ pairs, Parses p) :
    byteLen (join pairs) = 2 * pairs.length := by
  induction pairs with
  | nil => rfl
  | cons p pairs ih =>
    obtain ⟨hp, hpairs⟩ := List.forall_mem_cons.mp h
    obtain ⟨hc, hd⟩ := hp.utf8Size
    simp only [join_cons, byteLen_cons, hc, hd, ih hpairs, List.length_cons]
    ring

def Digits (text : String) : Prop :=
  text.toList.length = 128 ∧ ∀ c ∈ text.toList, (toDigit c).isSome

theorem length_join (pairs : List (Char × Char)) : (join pairs).length = 2 * pairs.length := by
  induction pairs with
  | nil => rfl
  | cons p pairs ih =>
    simp only [join_cons, List.length_cons, ih]
    ring

theorem plain_of_digits {pairs : List (Char × Char)}
    (h : ∀ c ∈ join pairs, (toDigit c).isSome) : ∀ p ∈ pairs, Plain p := by
  intro p hp
  have hmem : ∀ c ∈ [p.1, p.2], c ∈ join pairs := fun c hc =>
    List.mem_flatMap.mpr ⟨p, hp, hc⟩
  exact ⟨h _ (hmem _ (by simp)), h _ (hmem _ (by simp))⟩

theorem digits_of_plain {pairs : List (Char × Char)} (h : ∀ p ∈ pairs, Plain p) :
    ∀ c ∈ join pairs, (toDigit c).isSome := by
  intro c hc
  obtain ⟨p, hp, hc⟩ := List.mem_flatMap.mp hc
  simp only [List.mem_cons, List.not_mem_nil, or_false] at hc
  obtain rfl | rfl := hc
  · exact (h p hp).1
  · exact (h p hp).2

theorem exists_join {n : ℕ} {text : Text} (h : text.length = 2 * n) :
    ∃ pairs, text = join pairs := by
  induction n generalizing text with
  | zero => exact ⟨[], List.eq_nil_of_length_eq_zero h⟩
  | succ n ih =>
    match text, h with
    | c :: d :: rest, h =>
      obtain ⟨pairs, rfl⟩ : ∃ pairs, rest = join pairs := ih (by simpa [mul_add] using h)
      exact ⟨(c, d) :: pairs, rfl⟩

theorem hexPair_value {p : Char × Char} (h : Plain p) :
    hexPair (UInt8.ofNat (value p)) = [p.1.toLower, p.2.toLower] := by
  obtain ⟨x, hx⟩ := Option.isSome_iff_exists.mp h.1
  obtain ⟨y, hy⟩ := Option.isSome_iff_exists.mp h.2
  obtain ⟨hx', -, hlow⟩ := toDigit_some hx
  obtain ⟨hy', -, hlow'⟩ := toDigit_some hy
  have hbyte : (UInt8.ofNat (value p)).toNat = x * 16 + y := by
    simp only [value, hx, hy, Option.getD_some, UInt8.toNat_ofNat']
    omega
  have hhigh : (x * 16 + y) / 16 = x := by omega
  have hrest : (x * 16 + y) % 16 = y := by omega
  rw [hexPair, hbyte, hhigh, hrest, hlow, hlow']

theorem value_hexPair (b : UInt8) :
    ∃ p, hexPair b = [p.1, p.2] ∧ Plain p ∧ UInt8.ofNat (value p) = b := by
  have hb := b.toNat_lt
  have hhigh := toDigit_hexDigit (n := b.toNat / 16) (by omega)
  have hrest := toDigit_hexDigit (n := b.toNat % 16) (by omega)
  refine ⟨(hexDigit (b.toNat / 16), hexDigit (b.toNat % 16)), rfl, ?_, ?_⟩
  · simp [Plain, hhigh, hrest]
  · simp only [value, hhigh, hrest, Option.getD_some]
    rw [Nat.div_add_mod', UInt8.ofNat_toNat]

theorem exists_join_hexEncode (bytes : List UInt8) :
    ∃ pairs, bytes.flatMap hexPair = join pairs ∧ (∀ p ∈ pairs, Plain p) ∧
      pairs.map (fun p => UInt8.ofNat (value p)) = bytes := by
  induction bytes with
  | nil => exact ⟨[], rfl, by simp, rfl⟩
  | cons b bytes ih =>
    obtain ⟨pairs, hjoin, hplain, hvalue⟩ := ih
    obtain ⟨p, hp, hpp, hb⟩ := value_hexPair b
    refine ⟨p :: pairs, ?_, List.forall_mem_cons.mpr ⟨hpp, hplain⟩, ?_⟩
    · rw [List.flatMap_cons, hp, hjoin]
      rfl
    · rw [List.map_cons, hb, hvalue]

theorem Plain.parses {p : Char × Char} (h : Plain p) : Parses p := ⟨.inl h.1, h.2⟩

theorem plain_iff {p : Char × Char} : Plain p ↔ Parses p ∧ p.1 ≠ '+' := by
  constructor
  · intro h
    refine ⟨h.parses, fun hplus => ?_⟩
    have hnone : (toDigit '+').isSome = false := by decide
    rw [Plain, hplus, hnone] at h
    exact absurd h.1 Bool.false_ne_true
  · rintro ⟨⟨h, h'⟩, hplus⟩
    exact ⟨h.resolve_right hplus, h'⟩

/-- What is asked of the decoder on a text. -/
structure Exact (text : String) : Prop where
  noPanic : deserialize text ≠ .panic
  accepts : (∃ bytes, deserialize text = .ok bytes) ↔ Digits text
  reencodes : ∀ bytes, deserialize text = .ok bytes →
    bytes.length = 64 ∧ (hexEncode bytes).toList = text.toList.map Char.toLower
  roundTrip : ∀ bytes, bytes.length = 64 → hexEncode bytes = text → deserialize text = .ok bytes

/-- The text is 128 bytes long and begins with pairs that each parse: these are all of it and one
has a plus sign, or the next pair of bytes ends inside a character. -/
def Slips (text : String) : Prop :=
  byteLen text.toList = 128 ∧ ∃ pairs rest, text.toList = join pairs ++ rest ∧
    (∀ p ∈ pairs, Parses p) ∧ (rest = [] ∧ (∃ p ∈ pairs, p.1 = '+') ∨ Splits rest)

theorem deserialize_long {text : String} (h : byteLen text.toList ≠ 128) :
    deserialize text = .error "expected a 64-byte signature" := by
  rw [deserialize, if_pos h]

/-- A text of digits is decoded, to the bytes that are written as these digits. -/
theorem deserialize_digits {text : String} (h : Digits text) :
    ∃ pairs, text.toList = join pairs ∧ (∀ p ∈ pairs, Plain p) ∧ byteLen text.toList = 128 ∧
      deserialize text = .ok (pairs.map fun p => UInt8.ofNat (value p)) := by
  obtain ⟨hlength, hdigits⟩ := h
  obtain ⟨pairs, hpairs⟩ := exists_join (n := 64) hlength
  have hplain : ∀ p ∈ pairs, Plain p := plain_of_digits (by rwa [← hpairs])
  have hparses : ∀ p ∈ pairs, Parses p := fun p hp => (hplain p hp).parses
  have hlen : byteLen text.toList = 128 := by
    rw [hpairs, byteLen_join hparses, ← length_join, ← hpairs, hlength]
  have hdecodes : Decodes (join pairs ++ []) (deserialize text) := by
    rw [List.append_nil, ← hpairs]
    exact deserialize_decodes hlen
  exact ⟨pairs, hpairs, hplain, hlen, (hdecodes.join hparses).1 rfl⟩

/-- The encoding of 64 bytes is 128 digits, decoded to these bytes. -/
theorem deserialize_hexEncode {bytes : List UInt8} (h : bytes.length = 64) :
    deserialize (hexEncode bytes) = .ok bytes := by
  obtain ⟨pairs, hjoin, hplain, hvalue⟩ := exists_join_hexEncode bytes
  have hparses : ∀ p ∈ pairs, Parses p := fun p hp => (hplain p hp).parses
  have htext : (hexEncode bytes).toList = join pairs := by
    rw [hexEncode, String.toList_ofList, hjoin]
  have hcount : pairs.length = 64 := by rw [← h, ← hvalue, List.length_map]
  have hdecodes : Decodes (hexEncode bytes).toList (deserialize (hexEncode bytes)) :=
    deserialize_decodes (by rw [htext, byteLen_join hparses, hcount])
  rw [htext, ← List.append_nil (join pairs)] at hdecodes
  rw [(hdecodes.join hparses).1 rfl, hvalue]

/-- The decoder accepts exactly its format, and never panics, on every text but those 128 bytes
long that have a plus sign where it takes a number, or end a pair of bytes inside a character. -/
theorem exact_iff (text : String) : Exact text ↔ ¬ Slips text := by
  constructor
  · rintro hexact ⟨hlen, pairs, rest, htext, hparses, hslip⟩
    have hdecodes := deserialize_decodes hlen
    rw [htext] at hdecodes
    obtain ⟨hnil, hpanic⟩ := hdecodes.join hparses
    obtain ⟨hrest, p, hp, hplus⟩ | hsplits := hslip
    · have hdigits := (hexact.accepts.mp ⟨_, hnil hrest⟩).2
      rw [htext, hrest, List.append_nil] at hdigits
      exact (plain_iff.mp (plain_of_digits hdigits p hp)).2 hplus
    · exact hexact.noPanic (hpanic hsplits)
  · intro hslips
    -- what is decoded is digits
    have hplain : ∀ bytes, deserialize text = .ok bytes → ∃ pairs, text.toList = join pairs ∧
        (∀ p ∈ pairs, Plain p) ∧ byteLen text.toList = 128 ∧
        bytes = pairs.map fun p => UInt8.ofNat (value p) := by
      intro bytes hok
      by_cases hlen : byteLen text.toList = 128
      · obtain ⟨pairs, htext, hparses, hbytes⟩ := (deserialize_decodes hlen).accepts hok
        refine ⟨pairs, htext, fun p hp => plain_iff.mpr ⟨hparses p hp, fun hplus => ?_⟩, hlen,
          hbytes⟩
        exact hslips ⟨hlen, pairs, [], by rw [htext, List.append_nil], hparses,
          .inl ⟨rfl, p, hp, hplus⟩⟩
      · rw [deserialize_long hlen] at hok
        cases hok
    refine ⟨fun hpanic => ?_, ⟨?_, fun h => ?_⟩, fun bytes hok => ?_, fun bytes hlength he => ?_⟩
    · by_cases hlen : byteLen text.toList = 128
      · obtain ⟨pairs, rest, htext, hparses, hsplits⟩ := (deserialize_decodes hlen).panics hpanic
        exact hslips ⟨hlen, pairs, rest, htext, hparses, .inr hsplits⟩
      · rw [deserialize_long hlen] at hpanic
        cases hpanic
    · rintro ⟨bytes, hok⟩
      obtain ⟨pairs, htext, hpairs, hlen, -⟩ := hplain bytes hok
      have hcount := byteLen_join fun p hp => (hpairs p hp).parses
      rw [← htext, hlen] at hcount
      rw [Digits, htext, length_join, ← hcount]
      exact ⟨rfl, digits_of_plain hpairs⟩
    · obtain ⟨pairs, -, -, -, hok⟩ := deserialize_digits h
      exact ⟨_, hok⟩
    · obtain ⟨pairs, htext, hpairs, hlen, rfl⟩ := hplain bytes hok
      have hcount := byteLen_join fun p hp => (hpairs p hp).parses
      rw [← htext, hlen] at hcount
      refine ⟨by rw [List.length_map]; omega, ?_⟩
      rw [hexEncode, String.toList_ofList, htext, join, List.map_flatMap, List.flatMap_map]
      exact List.flatMap_congr fun p hp => hexPair_value (hpairs p hp)
    · rw [← he]
      exact deserialize_hexEncode hlength

/-- A character of two bytes at an odd offset ends the handshake in a panic, and plus signs pass
for digits. -/
theorem slips :
    deserialize (String.ofList ('0' :: 'é' :: List.replicate 125 '0')) = .panic ∧
      deserialize (String.ofList (join (List.replicate 64 ('+', '1')))) =
        .ok (List.replicate 64 1) ∧
      ¬ Exact (String.ofList ('0' :: 'é' :: List.replicate 125 '0')) ∧
      ¬ Exact (String.ofList (join (List.replicate 64 ('+', '1')))) := by
  have hpanic : deserialize (String.ofList ('0' :: 'é' :: List.replicate 125 '0')) = .panic := by
    decide +kernel
  have hok : deserialize (String.ofList (join (List.replicate 64 ('+', '1')))) =
      .ok (List.replicate 64 1) := by
    decide +kernel
  refine ⟨hpanic, hok, fun h => h.noPanic hpanic, fun h => ?_⟩
  have hdigits := (h.accepts.mp ⟨_, hok⟩).2 '+' (by simp [join])
  exact absurd hdigits (by decide)

end Sig64
end InputShare

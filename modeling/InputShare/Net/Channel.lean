import InputShare.Net.Crypto

/-! The stream of frames in one direction of a session, and what an attacker can do to it. -/
namespace InputShare
open Symbolic
variable {π : Type}

namespace Crypto.Direction

def sealAll (d : Direction π) : List π → List (Bytes π)
  | [] => []
  | p :: ps => (d.seal p).1 :: sealAll (d.seal p).2 ps

/-- Opens one frame after the other, up to the first error. -/
def openAll [DecidableEq π] (d : Direction π) : List (Bytes π) → List π × Option NetError
  | [] => ([], none)
  | f :: fs =>
    match d.open f with
    | .ok (p, e) => (p :: (openAll e fs).1, (openAll e fs).2)
    | .error e => ([], some e)

theorem open_seal [DecidableEq π] (d : Direction π) (p : π) :
    d.open (d.seal p).1 = .ok (p, (d.seal p).2) := by
  simp [Direction.seal, Direction.open]

theorem openAll_sealAll [DecidableEq π] (d : Direction π) (ps : List π) :
    d.openAll (d.sealAll ps) = (ps, none) := by
  induction ps generalizing d with
  | nil => rfl
  | cons p ps ih => simp [sealAll, openAll, open_seal, ih]

theorem mem_sealAll {d : Direction π} {ps : List π} {f : Bytes π} (hf : f ∈ d.sealAll ps)
    (hlen : d.counter + ps.length ≤ 18446744073709551616) :
    ∃ k p, ps[k]? = some p ∧ f = .sealed d.key (d.counter + k) (.message p) := by
  induction ps generalizing d with
  | nil => simp [sealAll] at hf
  | cons p ps ih =>
    rw [List.length_cons] at hlen
    rw [sealAll, List.mem_cons] at hf
    obtain hf | hf := hf
    · exact ⟨0, p, rfl, hf⟩
    · by_cases hlast : ps = []
      · simp [hlast, sealAll] at hf
      have hpos : 0 < ps.length := List.length_pos_iff.mpr hlast
      have hnext : (d.seal p).2.counter = d.counter + 1 := by
        simp only [Direction.seal, nextNonce]
        omega
      obtain ⟨k, q, hq, hk⟩ := ih hf (by omega)
      refine ⟨k + 1, q, hq, ?_⟩
      rw [hk, hnext, show d.counter + 1 + k = d.counter + (k + 1) by omega]
      rfl

/-- When nobody else has sealed under the key, what is opened before the first error is what was
sealed from the opener's position on, in order. -/
theorem openAll_prefix [DecidableEq π] {d : Direction π} {ps : List π} {frames : List (Bytes π)}
    (hlen : ps.length < 18446744073709551616)
    (hf : ∀ f ∈ frames, ∀ n p, f = .sealed d.key n (.message p) → ps[n]? = some p) :
    (d.openAll frames).1 <+: ps.drop d.counter := by
  induction frames generalizing d with
  | nil => exact List.nil_prefix
  | cons f fs ih =>
    rw [openAll]
    split
    · rename_i p e hopen
      obtain ⟨hsealed, rfl⟩ := open_ok hopen
      have hp : ps[d.counter]? = some p := hf f List.mem_cons_self d.counter p hsealed
      obtain ⟨hlt, rfl⟩ := List.getElem?_eq_some_iff.mp hp
      have hnext : d.nextNonce.2.counter = d.counter + 1 := by
        simp only [nextNonce]
        omega
      have hrest := ih (d := d.nextNonce.2) fun g hg => hf g (List.mem_cons_of_mem _ hg)
      rw [hnext] at hrest
      rw [List.drop_eq_getElem_cons hlt]
      exact List.cons_prefix_cons.mpr ⟨rfl, hrest⟩
    · exact List.nil_prefix

end Crypto.Direction

/-- What an attacker of the session between the handshakes `i` and `j` starts from: the frames of
the session, and the secrets and identity keys of everybody except those two. A handshake's secret
is used up when it completes, so no other session has it. -/
inductive Overheard (i j : ℕ) (frames : List (Bytes π)) : Bytes π → Prop where
  | exponent {x : Random} (hi : x ≠ .minted i) (hj : x ≠ .minted j) :
      Overheard i j frames (.exponent x)
  | signingKey (k : PubKey) : Overheard i j frames (.signingKey k)
  | frame {f : Bytes π} (h : f ∈ frames) : Overheard i j frames f

/-- Every frame of another session, in either direction, is within the attacker's reach. -/
theorem Overheard.elsewhere [DecidableEq π] {i j k : ℕ} (hi : k ≠ i) (hj : k ≠ j)
    {frames : List (Bytes π)} {c : Identity} {h : Hello π} {dialled : Bool} {s : Session π}
    (hs : (begin c k).complete h dialled = .ok s) (n : ℕ) (p : π) :
    Derives (Overheard i j frames) (.sealed s.send.key n (.message p)) ∧
      Derives (Overheard i j frames) (.sealed s.receive.key n (.message p)) := by
  obtain ⟨-, -, rfl⟩ := Initiation.complete_ok hs
  have hsecret : Derives (Overheard i j frames) (.exponent (.minted k)) :=
    .known (.exponent (fun e => hi (Random.minted.inj e)) fun e => hj (Random.minted.inj e))
  have hshared := hsecret.agree h.ephemeral
  exact ⟨(hshared.derive _ _).seal n _, (hshared.derive _ _).seal n _⟩

theorem Overheard.sealed_mem {i j n : ℕ} {frames : List (Bytes π)} {salt body : Datum π}
    {first : Bool} (hframes : ∀ f ∈ frames, ∃ key m d, f = .sealed key m d)
    (h : Derives (Overheard i j frames)
      (.sealed (.derived (.shared s(.minted i, .minted j)) salt first) n body)) :
    .sealed (.derived (.shared s(.minted i, .minted j)) salt first) n body ∈ frames := by
  let ends : Honest (Datum π) Random PubKey :=
    { exponent := fun x => x = .minted i ∨ x = .minted j
      signer := fun _ => False
      signed := fun _ _ => False
      «sealed» := fun key m d => .sealed key m d ∈ frames }
  have hsafe : ∀ t, Overheard i j frames t → Safe ends t := by
    intro t ht
    cases ht with
    | exponent hi hj => exact not_or.mpr ⟨hi, hj⟩
    | signingKey k => exact not_false
    | frame hf =>
      obtain ⟨key, m, d, rfl⟩ := hframes t hf
      exact .inr hf
  obtain hkey | hsealed := h.safe hsafe
  · exact absurd hkey (not_safe_shared (h := ends) (.inl rfl) (.inr rfl))
  · exact hsealed

theorem Crypto.Direction.mem_sealAll_new {key : Bytes π} {ps : List π} {f : Bytes π}
    (hps : ps.length < 18446744073709551616) (hf : f ∈ (new key).sealAll ps) :
    ∃ k p, ps[k]? = some p ∧ f = .sealed key k (.message p) := by
  obtain ⟨k, p, hp, hk⟩ := mem_sealAll hf (by
    simp only [new]
    omega)
  exact ⟨k, p, hp, by simpa [new] using hk⟩

theorem Overheard.openAll_prefix [DecidableEq π] {i j : ℕ} {salt : Datum π} {first : Bool}
    {ps qs : List π} {overheard frames : List (Bytes π)} (hps : ps.length < 18446744073709551616)
    (hqs : qs.length < 18446744073709551616)
    (hheard : ∀ f ∈ overheard,
      f ∈ (Crypto.Direction.new
        (.derived (.shared s(.minted i, .minted j)) salt first)).sealAll ps ∨
      f ∈ (Crypto.Direction.new
        (.derived (.shared s(.minted i, .minted j)) salt (!first))).sealAll qs)
    (hf : ∀ f ∈ frames, Derives (Overheard i j overheard) f) :
    ((Crypto.Direction.new
      (.derived (.shared s(.minted i, .minted j)) salt first)).openAll frames).1 <+: ps := by
  have hsealed : ∀ f ∈ overheard, ∃ key m d, f = .sealed key m d := by
    intro f hmem
    obtain hown | hother := hheard f hmem
    · obtain ⟨k, p, -, heq⟩ := Crypto.Direction.mem_sealAll_new hps hown
      exact ⟨_, _, _, heq⟩
    · obtain ⟨k, p, -, heq⟩ := Crypto.Direction.mem_sealAll_new hqs hother
      exact ⟨_, _, _, heq⟩
  refine Crypto.Direction.openAll_prefix (d := .new _) hps fun f hdelivered n p hfp => ?_
  subst hfp
  obtain hown | hother := hheard _ (Overheard.sealed_mem hsealed (hf _ hdelivered))
  · obtain ⟨k, q, hq, heq⟩ := Crypto.Direction.mem_sealAll_new hps hown
    obtain ⟨-, rfl, hbody⟩ := Term.sealed.inj heq
    obtain rfl := Datum.message.inj hbody
    exact hq
  · obtain ⟨k, q, -, heq⟩ := Crypto.Direction.mem_sealAll_new hqs hother
    have hhalf : first = !first := (Term.derived.inj (Term.sealed.inj heq).1).2.2
    cases first <;> cases hhalf

/-- What an untampered handshake of two machines comes to. -/
theorem complete_both [DecidableEq π] {a b : Identity} (hne : a.machineId ≠ b.machineId)
    (i j : ℕ) :
    ((begin a i : Initiation π).complete (begin b j).hello true = .ok
      ⟨b.machineId, b.publicKey,
        .new (.derived (.shared s(.minted i, .minted j)) (.salt (.minted i) (.minted j)) true),
        .new (.derived (.shared s(.minted i, .minted j)) (.salt (.minted i) (.minted j)) false)⟩) ∧
    ((begin b j : Initiation π).complete (begin a i).hello false = .ok
      ⟨a.machineId, a.publicKey,
        .new (.derived (.shared s(.minted i, .minted j)) (.salt (.minted i) (.minted j)) false),
        .new (.derived (.shared s(.minted i, .minted j)) (.salt (.minted i) (.minted j))
          true)⟩) := by
  have hverify : ∀ (c : Identity) (k : ℕ), (begin c k : Initiation π).hello.verify = true := by
    intro c k
    simp [Hello.verify, begin, verifySignature, Identity.sign]
  simp only [begin] at hverify
  have hswap : s(Random.minted j, Random.minted i) = s(.minted i, .minted j) := Sym2.eq_swap
  constructor
  · simp [Initiation.complete, hverify, Initiation.keyOf, begin, hne.symm]
  · simp [Initiation.complete, hverify, Initiation.keyOf, begin, hne, hswap]

/-- Both ends of an untampered handshake hold the two ends of two streams, and on each of them
frames that arrive in order are all opened, and whatever an attacker makes of everything it
overheard, only a prefix of what was sealed ever comes out. -/
theorem secure_channel [DecidableEq π] {a b : Identity} (hne : a.machineId ≠ b.machineId)
    (i j : ℕ) :
    ∃ s t : Session π, (begin a i).complete (begin b j).hello true = .ok s ∧
      (begin b j).complete (begin a i).hello false = .ok t ∧
      ∀ ps qs : List π, ps.length < 18446744073709551616 → qs.length < 18446744073709551616 →
        t.receive.openAll (s.send.sealAll ps) = (ps, none) ∧
        s.receive.openAll (t.send.sealAll qs) = (qs, none) ∧
        ∀ frames : List (Bytes π),
          (∀ f ∈ frames, Derives (Overheard i j (s.send.sealAll ps ++ t.send.sealAll qs)) f) →
            (t.receive.openAll frames).1 <+: ps ∧ (s.receive.openAll frames).1 <+: qs := by
  obtain ⟨hs, ht⟩ := @complete_both π _ a b hne i j
  refine ⟨_, _, hs, ht, fun ps qs hps hqs => ⟨Crypto.Direction.openAll_sealAll _ ps,
    Crypto.Direction.openAll_sealAll _ qs, fun frames hf => ⟨?_, ?_⟩⟩⟩
  · exact Overheard.openAll_prefix hps hqs (fun f hmem => List.mem_append.mp hmem) hf
  · exact Overheard.openAll_prefix hqs hps (fun f hmem => (List.mem_append.mp hmem).symm) hf

/-- A repeated first frame is where the stream of two machines ends. -/
theorem secure_channel_of_two : ∃ s t : Session String,
    (begin ⟨1, 11⟩ 0).complete (begin ⟨2, 12⟩ 1).hello true = .ok s ∧
      (begin ⟨2, 12⟩ 1).complete (begin ⟨1, 11⟩ 0).hello false = .ok t ∧
      t.receive.openAll (s.send.sealAll ["one", "two"]) = (["one", "two"], none) ∧
      (t.receive.openAll [(s.send.seal "one").1, (s.send.seal "one").1]).1 <+: ["one", "two"] := by
  obtain ⟨s, t, hs, ht, hstream⟩ :=
    @secure_channel String _ ⟨1, 11⟩ ⟨2, 12⟩ (by decide) 0 1
  obtain ⟨hopened, -, hattacked⟩ := hstream ["one", "two"] [] (by decide) (by decide)
  refine ⟨s, t, hs, ht, hopened, (hattacked _ fun f hf => .known (.frame ?_)).1⟩
  obtain rfl : f = (s.send.seal "one").1 := by simpa using hf
  simp [Crypto.Direction.sealAll]

end InputShare

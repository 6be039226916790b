import InputShare.Lib.Symbolic
import InputShare.Net.Wire

/-! The handshake, and the cipher that protects everything after it, over ideal cryptography. -/
namespace InputShare
open Symbolic
variable {π : Type}

/-- A random value: minted by the `i`th handshake of an honest machine, or chosen by somebody
else. -/
inductive Random where
  | minted (i : ℕ)
  | foreign (j : ℕ)
deriving DecidableEq, Repr

/-- The byte strings that are signed, salted with or encrypted, `π` being the plaintexts; each
begins with its own context or is used in its own place, so no two kinds are ever mistaken for each
other. -/
inductive Datum (π : Type) where
  | transcript (machineId : MachineId) (ephemeral nonce : Random)
  | salt (first second : Random)
  | message (plaintext : π)
deriving DecidableEq

abbrev Bytes (π : Type) := Term (Datum π) Random PubKey

structure Identity where
  machineId : MachineId
  publicKey : PubKey
deriving DecidableEq, Repr

def Identity.sign (id : Identity) (d : Datum π) : Bytes π := .signed id.publicKey d

def verifySignature [DecidableEq π] (key : PubKey) (d : Datum π) (signature : Bytes π) : Bool :=
  signature = .signed key d

def protocolVersion : ℕ := 1

/-- The one message sent in the clear. An ephemeral public key is named by its secret. -/
structure Hello (π : Type) where
  protocol : ℕ
  machineId : MachineId
  identityKey : PubKey
  ephemeral : Random
  nonce : Random
  signature : Bytes π
deriving DecidableEq

def Hello.verify [DecidableEq π] (h : Hello π) : Bool :=
  if h.protocol ≠ protocolVersion then false
  else verifySignature h.identityKey (.transcript h.machineId h.ephemeral h.nonce) h.signature

inductive NetError where
  | io (text : String)
  | json (text : String)
  | handshake (text : String)
  | crypto (text : String)
  | frameTooLarge (length : ℕ)
  | timeout
deriving DecidableEq, Repr

structure Crypto.Direction (π : Type) where
  key : Bytes π
  counter : ℕ
deriving DecidableEq

namespace Crypto.Direction

def new (key : Bytes π) : Direction π := ⟨key, 0⟩

/-- The counter nonce, a `u64`. -/
def nextNonce (d : Direction π) : ℕ × Direction π :=
  (d.counter, { d with counter := (d.counter + 1) % 18446744073709551616 })

def «seal» (d : Direction π) (plaintext : π) : Bytes π × Direction π :=
  (.sealed d.key d.nextNonce.1 (.message plaintext), d.nextNonce.2)

/-- Opens a frame; fails unless the counter lines up. -/
def «open» [DecidableEq π] (d : Direction π) (frame : Bytes π) :
    Except NetError (π × Direction π) :=
  match frame with
  | .sealed key counter (.message m) =>
    if key = d.key ∧ counter = d.nextNonce.1 then .ok (m, d.nextNonce.2)
    else .error (.crypto "frame failed authentication")
  | _ => .error (.crypto "frame failed authentication")

end Crypto.Direction

structure Session (π : Type) where
  peerMachine : MachineId
  peerKey : PubKey
  send : Crypto.Direction π
  receive : Crypto.Direction π
deriving DecidableEq

structure Initiation (π : Type) where
  hello : Hello π
  secret : Random
  nonce : Random
deriving DecidableEq

/-- Starts the `i`th handshake, minting a fresh ephemeral key for it. -/
def begin (id : Identity) (i : ℕ) : Initiation π :=
  { hello :=
      { protocol := protocolVersion
        machineId := id.machineId
        identityKey := id.publicKey
        ephemeral := .minted i
        nonce := .minted i
        signature := id.sign (.transcript id.machineId (.minted i) (.minted i)) }
    secret := .minted i
    nonce := .minted i }

namespace Initiation

/-- The key material both sides derive; `first` picks one of its halves. -/
def keyOf (x : Initiation π) (peer : Hello π) (dialled first : Bool) : Bytes π :=
  let salt : Datum π := if dialled then .salt x.nonce peer.nonce else .salt peer.nonce x.nonce
  .derived (.shared s(x.secret, peer.ephemeral)) salt first

/-- Completes the handshake against the peer's `Hello`. -/
def complete [DecidableEq π] (x : Initiation π) (peer : Hello π) (dialled : Bool) :
    Except NetError (Session π) :=
  if !peer.verify then .error (.handshake "peer could not prove its identity key")
  else if peer.machineId = x.hello.machineId then
    .error (.handshake "peer reports our own machine id")
  else .ok
    { peerMachine := peer.machineId
      peerKey := peer.identityKey
      send := .new (x.keyOf peer dialled dialled)
      receive := .new (x.keyOf peer dialled (!dialled)) }

theorem complete_ok [DecidableEq π] {x : Initiation π} {peer : Hello π} {dialled : Bool}
    {s : Session π}
    (h : x.complete peer dialled = .ok s) :
    peer.verify = true ∧ peer.machineId ≠ x.hello.machineId ∧
      s = ⟨peer.machineId, peer.identityKey, .new (x.keyOf peer dialled dialled),
        .new (x.keyOf peer dialled (!dialled))⟩ := by
  unfold complete at h
  by_cases hv : peer.verify = true
  · by_cases hm : peer.machineId = x.hello.machineId
    · simp [hv, hm] at h
    · simp only [hv, hm, Bool.not_true, Bool.false_eq_true, if_false, Except.ok.injEq] at h
      exact ⟨hv, hm, h.symm⟩
  · simp [hv] at h

end Initiation

theorem Hello.signature_of_verify [DecidableEq π] {h : Hello π} (hv : h.verify = true) :
    h.signature = .signed h.identityKey (.transcript h.machineId h.ephemeral h.nonce) := by
  unfold verify at hv
  split_ifs at hv
  exact of_decide_eq_true hv

theorem Crypto.Direction.open_ok [DecidableEq π] {d e : Crypto.Direction π} {frame : Bytes π}
    {m : π}
    (h : d.open frame = .ok (m, e)) :
    frame = .sealed d.key d.counter (.message m) ∧ e = d.nextNonce.2 := by
  unfold Crypto.Direction.open at h
  split at h
  · rename_i key counter m'
    split_ifs at h with hk
    obtain ⟨rfl, rfl⟩ := hk
    obtain ⟨rfl, rfl⟩ := Prod.mk.inj (Except.ok.inj h)
    exact ⟨rfl, rfl⟩
  · cases h

end InputShare

import InputShare.Net.Channel
import InputShare.Net.Frames

/-! A session over the bytes of its connection: every message is encoded, sealed and framed, and
what arrives is read as frames, opened and parsed. What becomes of the messages does not depend on
how the bytes were split, nor on what an attacker makes of them. -/
namespace InputShare
open Streams Symbolic Wire Runs

/-- How messages are written as text, and what the bytes of a ciphertext are. -/
structure Encoding where
  toVec : Message → Except String Octets
  fromSlice : Octets → Except String Message
  toBytes : Bytes Octets → Octets
  ofBytes : Octets → Bytes Octets

/-- The bytes of a ciphertext under the key are read as that ciphertext. -/
def Encoding.Ciphers (c : Encoding) (key : Bytes Octets) : Prop :=
  ∀ n p, c.ofBytes (c.toBytes (.sealed key n (.message p))) = .sealed key n (.message p)

/-- Whatever text the message is written as, the same message is read from it. -/
def Encoding.Parses (c : Encoding) (m : Message) : Prop :=
  ∀ p, c.toVec m = .ok p → c.fromSlice p = .ok m

namespace Transport
variable {c : Encoding} {d : Crypto.Direction Octets} {r : Reader}

def send (c : Encoding) (d : Crypto.Direction Octets) (w : Writer) (m : Message) :
    Option NetError × Crypto.Direction Octets × Writer :=
  match c.toVec m with
  | .error text => (some (.json text), d, w)
  | .ok plaintext =>
    let (sealed, d) := d.seal plaintext
    let (error, w) := writeFrame w (c.toBytes sealed)
    (error, d, w)

/-- Message after message, until one cannot be sent. -/
def sendAll (c : Encoding) (d : Crypto.Direction Octets) (w : Writer) :
    List Message → Option NetError × Crypto.Direction Octets × Writer
  | [] => (none, d, w)
  | m :: ms =>
    match send c d w m with
    | (some error, d, w) => (some error, d, w)
    | (none, d, w) => sendAll c d w ms

/-- The counter moves on even where the frame is not opened; nothing is received after that. -/
def recv (c : Encoding) (d : Crypto.Direction Octets) (r : Reader) :
    Except NetError Message × Crypto.Direction Octets × Reader :=
  match readFrame r with
  | (.error error, r) => (.error error, d, r)
  | (.ok «sealed», r) =>
    match d.open (c.ofBytes «sealed») with
    | .error error => (.error error, d.nextNonce.2, r)
    | .ok (plaintext, d) =>
      match c.fromSlice plaintext with
      | .error text => (.error (.json text), d, r)
      | .ok m => (.ok m, d, r)

theorem recv_ok {e : Crypto.Direction Octets} {s : Reader} {m : Message}
    (h : recv c d r = (.ok m, e, s)) :
    ∃ bytes plaintext, readFrame r = (.ok bytes, s) ∧
      d.open (c.ofBytes bytes) = .ok (plaintext, e) ∧ c.fromSlice plaintext = .ok m := by
  unfold recv at h
  split at h
  · cases h
  · rename_i bytes s' hr
    split at h
    · cases h
    · rename_i plaintext e' ho
      split at h
      · cases h
      · rename_i m' hm
        obtain ⟨hm', rfl, rfl⟩ := by simpa using h
        exact ⟨bytes, plaintext, hr, ho, hm' ▸ hm⟩

theorem recv_of {e : Crypto.Direction Octets} {s : Reader} {m : Message} {bytes plaintext : Octets}
    (hr : readFrame r = (.ok bytes, s)) (ho : d.open (c.ofBytes bytes) = .ok (plaintext, e))
    (hm : c.fromSlice plaintext = .ok m) : recv c d r = (.ok m, e, s) := by
  simp [recv, hr, ho, hm]

/-- Message after message, until one cannot be received. -/
def recvAll (c : Encoding) (d : Crypto.Direction Octets) (r : Reader) : List Message × NetError :=
  match _hr : recv c d r with
  | (.error error, _) => ([], error)
  | (.ok m, e, s) =>
    let (ms, error) := recvAll c e s
    (m :: ms, error)
termination_by r.rest.length
decreasing_by
  obtain ⟨bytes, plaintext, hframe, -⟩ := recv_ok _hr
  obtain ⟨header, hlength, -, hrest, -⟩ := readFrame_ok hframe
  simp [hrest, hlength]
  omega

theorem recvAll_error {e : Crypto.Direction Octets} {s : Reader} {error : NetError}
    (h : recv c d r = (.error error, e, s)) : recvAll c d r = ([], error) := by
  rw [recvAll]
  split
  · rename_i hr
    obtain ⟨he, -⟩ := Prod.mk.inj (h.symm.trans hr)
    rw [Except.error.inj he]
  · rename_i hr
    cases h.symm.trans hr

theorem recvAll_ok {e : Crypto.Direction Octets} {s : Reader} {m : Message}
    (h : recv c d r = (.ok m, e, s)) :
    recvAll c d r = (m :: (recvAll c e s).1, (recvAll c e s).2) := by
  rw [recvAll]
  split
  · rename_i hr
    cases h.symm.trans hr
  · rename_i hr
    obtain ⟨he, hs⟩ := Prod.mk.inj (h.symm.trans hr)
    obtain ⟨rfl, rfl⟩ := Prod.mk.inj hs
    obtain rfl := Except.ok.inj he
    rfl

/-! What is on the wire. -/

def wire (c : Encoding) (d : Crypto.Direction Octets) (ps : List Octets) : Octets :=
  (d.sealAll ps).flatMap fun f => frame (c.toBytes f)

theorem wire_cons (c : Encoding) (d : Crypto.Direction Octets) (p : Octets) (ps : List Octets) :
    wire c d (p :: ps) = frame (c.toBytes (d.seal p).1) ++ wire c (d.seal p).2 ps := rfl

theorem writeAll_none {w v : Writer} {bytes : Octets} (h : w.writeAll bytes = (none, v)) :
    v.written = w.written ++ bytes := by
  unfold Writer.writeAll at h
  cases hroom : w.room with
  | none =>
    obtain ⟨-, rfl⟩ := by simpa [hroom] using h
    rfl
  | some room =>
    simp only [hroom, Prod.mk.injEq, ite_eq_left_iff, reduceCtorEq, imp_false, not_not] at h
    obtain ⟨hle, rfl⟩ := h
    simp [List.take_of_length_le hle]

theorem writeFrame_none {w v : Writer} {bytes : Octets} (h : writeFrame w bytes = (none, v)) :
    bytes.length ≤ SessionTask.maxFrame ∧ v.written = w.written ++ frame bytes := by
  unfold writeFrame at h
  split at h
  · cases h
  rename_i hmax
  have hle := not_lt.mp hmax
  refine ⟨hle, ?_⟩
  split at h
  · cases h
  rename_i u hu
  rw [writeAll_none h, writeAll_none hu, mod_of_le_maxFrame hle, List.append_assoc]
  rfl

theorem sendAll_none {w v : Writer} {e : Crypto.Direction Octets} {ms : List Message}
    (h : sendAll c d w ms = (none, e, v)) :
    ∃ ps, List.Forall₂ (fun m p => c.toVec m = .ok p) ms ps ∧
      (∀ f ∈ d.sealAll ps, (c.toBytes f).length ≤ SessionTask.maxFrame) ∧
      v.written = w.written ++ wire c d ps := by
  induction ms generalizing d w with
  | nil =>
    obtain ⟨rfl, rfl⟩ := by simpa [sendAll] using h
    exact ⟨[], .nil, by simp [Crypto.Direction.sealAll], by simp [wire, Crypto.Direction.sealAll]⟩
  | cons m ms ih =>
    rw [sendAll] at h
    split at h
    · cases h
    rename_i d' u hu
    unfold send at hu
    split at hu
    · cases hu
    rename_i p hp
    obtain ⟨hnone, rfl, rfl⟩ := by simpa using hu
    obtain ⟨hmax, hwritten⟩ := writeFrame_none (v := _) (Prod.ext hnone rfl)
    obtain ⟨ps, hps, hall, hrest⟩ := ih h
    refine ⟨p :: ps, .cons hp hps, fun f hf => ?_, ?_⟩
    · obtain rfl | hf := List.mem_cons.mp hf
      · exact hmax
      · exact hall f hf
    · rw [hrest, hwritten, wire_cons, List.append_assoc]

/-! What is received of it. -/

theorem readFrame_cut {bytes missing : Octets} (hmax : bytes.length ≤ SessionTask.maxFrame)
    (h : frame bytes = r.rest ++ missing) (hmissing : missing ≠ []) :
    (readFrame r).1 = .error (.io r.failure) := by
  by_cases hshort : r.rest.length < 4
  · rw [readFrame_short hshort]
  have hfour : 4 ≤ r.rest.length := not_lt.mp hshort
  have hheader : r.rest.take 4 = toBeBytes 4 bytes.length := by
    have htake := congrArg (List.take 4) h
    rw [frame, List.take_append_of_le_length (by simp), List.take_append_of_le_length hfour,
      List.take_of_length_le (by simp)] at htake
    exact htake.symm
  have hlength : fromBeBytes (r.rest.take 4) = bytes.length := by
    rw [hheader, fromBeBytes_header hmax]
  have htotal := congrArg List.length h
  simp only [frame, List.length_append, length_toBeBytes] at htotal
  have hpos := List.length_pos_of_ne_nil hmissing
  obtain ⟨-, -, hfailure, -⟩ := readExact_snd r 4
  rw [readFrame_eq hfour, hlength, if_neg (not_lt.mpr hmax), readExact_fst, rest_past,
    List.length_drop, if_pos (by omega)]
  exact congrArg (fun f => Except.error (NetError.io f)) hfailure

/-- The connection breaks somewhere in the stream: of the messages sent exactly those are received
of which all bytes have arrived, and then the error that ended it. -/
theorem recvAll_cut (hkey : c.Ciphers d.key) {ms : List Message} {ps : List Octets}
    (hparse : List.Forall₂ (fun m p => c.fromSlice p = .ok m) ms ps)
    (hmax : ∀ f ∈ d.sealAll ps, (c.toBytes f).length ≤ SessionTask.maxFrame)
    (hr : r.rest <+: wire c d ps) :
    ∃ k ≤ ms.length, recvAll c d r = (ms.take k, .io r.failure) ∧
      ∀ n ≤ ms.length, (wire c d (ps.take n)).length ≤ r.rest.length ↔ n ≤ k := by
  induction hparse generalizing d r with
  | nil =>
    have hnone : r.rest = [] := List.prefix_nil.mp hr
    refine ⟨0, le_rfl, ?_, fun n hn => ?_⟩
    · refine recvAll_error (e := d) (s := (r.readExact 4).2) ?_
      rw [recv, readFrame_short (by simp [hnone])]
    · simp [wire, Crypto.Direction.sealAll, Nat.le_zero.mp hn]
  | @cons m p ms ps hm hrest ih =>
    have hfirst : (c.toBytes (d.seal p).1).length ≤ SessionTask.maxFrame :=
      hmax _ List.mem_cons_self
    rw [wire_cons] at hr
    by_cases hwhole : (frame (c.toBytes (d.seal p).1)).length ≤ r.rest.length
    · obtain ⟨rest, hsplit⟩ := List.prefix_of_prefix_length_le (List.prefix_append _ _) hr hwhole
      obtain ⟨s, hs, hleft, -, hfailure⟩ := readFrame_frame (length_toBeBytes 4 _)
        (fromBeBytes_header hfirst) hfirst hsplit.symm
      have hopen : d.open (c.ofBytes (c.toBytes (d.seal p).1)) = .ok (p, (d.seal p).2) := by
        rw [Crypto.Direction.seal, hkey]
        exact Crypto.Direction.open_seal d p
      have hprefix : s.rest <+: wire c (d.seal p).2 ps := by
        rw [hleft]
        rw [← hsplit] at hr
        exact (List.prefix_append_right_inj _).mp hr
      obtain ⟨k, hk, hall, hcount⟩ :=
        ih (d := (d.seal p).2) hkey (fun f hf => hmax f (List.mem_cons_of_mem _ hf)) hprefix
      refine ⟨k + 1, Nat.succ_le_succ hk, ?_, fun n hn => ?_⟩
      · rw [recvAll_ok (recv_of hs hopen hm), hall, hfailure]
        rfl
      · cases n with
        | zero => simp [wire, Crypto.Direction.sealAll]
        | succ n =>
          have hlen : r.rest.length =
              (frame (c.toBytes (d.seal p).1)).length + s.rest.length := by
            rw [← hsplit, hleft, List.length_append]
          rw [List.take_succ_cons, wire_cons, List.length_append, hlen,
            Nat.add_le_add_iff_left, hcount n (Nat.le_of_succ_le_succ hn), Nat.succ_le_succ_iff]
    · -- the frame was cut
      obtain ⟨missing, hsplit⟩ := List.prefix_of_prefix_length_le hr (List.prefix_append _ _)
        (not_le.mp hwhole).le
      have hmissing : missing ≠ [] := by
        rintro rfl
        rw [List.append_nil] at hsplit
        exact hwhole (by rw [hsplit])
      have hcut := readFrame_cut hfirst hsplit.symm hmissing
      refine ⟨0, Nat.zero_le _, ?_, fun n hn => ?_⟩
      · cases hread : readFrame r with
        | mk result s =>
          obtain rfl : result = .error (.io r.failure) := by simpa [hread] using hcut
          exact recvAll_error (by rw [recv, hread])
      · cases n with
        | zero => simp [wire, Crypto.Direction.sealAll]
        | succ n =>
          rw [List.take_succ_cons, wire_cons, List.length_append]
          omega

theorem recvAll_opened (c : Encoding) (d : Crypto.Direction Octets) (r : Reader) :
    ∃ qs, qs <+: (d.openAll ((readFrames r).1.map c.ofBytes)).1 ∧
      List.Forall₂ (fun m q => c.fromSlice q = .ok m) (recvAll c d r).1 qs := by
  induction d, r using recvAll.induct c with
  | case1 d r error last hr =>
    rw [recvAll_error (e := last.1) (s := last.2) hr]
    exact ⟨[], List.nil_prefix, .nil⟩
  | case2 d r m e s hr ms error hrest ih =>
    obtain ⟨qs, hqs, hms⟩ := ih
    obtain ⟨bytes, plaintext, hframe, hopen, hm⟩ := recv_ok hr
    refine ⟨plaintext :: qs, ?_, ?_⟩
    · rw [readFrames_ok hframe, List.map_cons, Crypto.Direction.openAll, hopen]
      exact List.cons_prefix_cons.mpr ⟨rfl, hqs⟩
    · rw [recvAll_ok hr]
      exact .cons hm hms

end Transport

/-! A session task over the bytes of its connection. -/

/-- A session task, the half of its connection that it reads, and what has come of its steps. -/
structure Reading where
  task : SessionTask
  opener : Crypto.Direction Octets
  reader : Reader
  results : List (State × List SessionOutcome)

namespace Reading
open Transport SessionTask

inductive Move where
  /-- The task receives the next message. -/
  | receive (agent : State)
  /-- It does anything else. -/
  | other (agent : State) (e : Event)

def arrival (stage : Stage) (m : Message) : Event :=
  match stage with
  | .identifying .. => .identified m
  | _ => .read m

def messageOf : Event → Option Message
  | .identified m | .read m => some m
  | _ => none

/-- A step of the task by itself, with messages that come out of nowhere. -/
def taskStep (x : SessionTask × List (State × List SessionOutcome)) (a : State × Event) :
    Option (SessionTask × List (State × List SessionOutcome)) :=
  (x.1.step a.1 a.2).map fun (t, result) => (t, x.2 ++ [result])

/-- A step of the task with messages from its connection. -/
def step (c : Encoding) (l : Reading) : Move → Option Reading
  | .receive agent =>
    let (result, opener, reader) := recv c l.opener l.reader
    let e := match result with
      | .ok m => arrival l.task.stage m
      | .error error => .failed error
    (taskStep (l.task, l.results) (agent, e)).map fun (task, results) =>
      ⟨task, opener, reader, results⟩
  | .other agent e =>
    if (messageOf e).isSome then none
    else (taskStep (l.task, l.results) (agent, e)).map fun (task, results) =>
      { l with task := task, results := results }

def deaf : Stage → Bool
  | .closing .. | .failed _ | .ended => true
  | _ => false

theorem deaf_step {x y : SessionTask × List (State × List SessionOutcome)} {a : State × Event}
    (h : deaf x.1.stage = true) (hs : taskStep x a = some y) :
    deaf y.1.stage = true ∧ messageOf a.2 = none := by
  obtain ⟨agent, e⟩ := a
  obtain ⟨⟨u, s, os⟩, hstep, rfl⟩ := Option.map_eq_some_iff.mp hs
  cases SessionTask.stepped hstep with
  | close => exact ⟨rfl, rfl⟩
  | report => exact ⟨rfl, rfl⟩
  | dropped he =>
    cases hst : x.1.stage <;> simp [hst, deaf, Stage.early] at h he
  | connected hst | greeted hst | refused hst | admitted hst | rejected hst | identify hst
  | different hst | established hst | unidentified hst | snapshot hst | nothing hst | synced hst
  | unsynced hst | read hst | lost hst | panicked hst => simp [hst, deaf] at h

theorem failed_deaf {x y : SessionTask × List (State × List SessionOutcome)} {agent : State}
    {error : NetError} (hs : taskStep x (agent, .failed error) = some y) :
    deaf y.1.stage = true := by
  obtain ⟨⟨u, s, os⟩, hstep, rfl⟩ := Option.map_eq_some_iff.mp hs
  cases SessionTask.stepped hstep with
  | lost => rfl
  | dropped => rfl

/-- What a step over the connection is for the task. -/
inductive Stepped (c : Encoding) (l v : Reading) : State × Event → Prop where
  | received {agent : State} {m : Message}
      (hr : recv c l.opener l.reader = (.ok m, v.opener, v.reader)) :
      Stepped c l v (agent, arrival l.task.stage m)
  | failed {agent : State} {error : NetError}
      (hr : recv c l.opener l.reader = (.error error, v.opener, v.reader)) :
      Stepped c l v (agent, .failed error)
  | other {agent : State} {e : Event} (he : messageOf e = none) (ho : v.opener = l.opener)
      (hr : v.reader = l.reader) : Stepped c l v (agent, e)

theorem stepped {c : Encoding} {l v : Reading} {a : Move} (h : step c l a = some v) :
    ∃ e, taskStep (l.task, l.results) e = some (v.task, v.results) ∧ Stepped c l v e := by
  cases a with
  | receive agent =>
    rcases hr : recv c l.opener l.reader with ⟨error | m, opener, reader⟩
    all_goals
      simp only [step, hr, Option.map_eq_some_iff] at h
      obtain ⟨y, hy, rfl⟩ := h
    · exact ⟨_, hy, .failed hr⟩
    · exact ⟨_, hy, .received hr⟩
  | other agent e =>
    simp only [step] at h
    split_ifs at h with he
    obtain ⟨y, hy, rfl⟩ := Option.map_eq_some_iff.mp h
    exact ⟨_, hy, .other (by simpa using he) rfl rfl⟩

theorem messageOf_arrival (stage : Stage) (m : Message) : messageOf (arrival stage m) = some m := by
  cases stage <;> rfl

def messages (es : List (State × Event)) : List Message := es.filterMap fun e => messageOf e.2

theorem simulated_deaf {c : Encoding} {l v : Reading} {as : List Move}
    (h : Run (step c) Any l as v) (hd : deaf l.task.stage = true) :
    ∃ es, Run taskStep Any (l.task, l.results) es (v.task, v.results) ∧ messages es = [] := by
  induction h with
  | nil l => exact ⟨[], .nil _, rfl⟩
  | cons hok hs _ ih =>
    obtain ⟨e, he, -⟩ := stepped hs
    obtain ⟨hdeaf, hnone⟩ := deaf_step hd he
    obtain ⟨es, hrun, hes⟩ := ih hdeaf
    exact ⟨e :: es, .cons trivial he hrun, by simp [messages, hnone, ← hes]⟩

/-- Over its connection a session does what it does by itself, on the messages that come out of
the bytes, in their order. -/
theorem simulated {c : Encoding} {l v : Reading} {as : List Move} (h : Run (step c) Any l as v) :
    ∃ es, Run taskStep Any (l.task, l.results) es (v.task, v.results) ∧
      messages es <+: (recvAll c l.opener l.reader).1 := by
  induction h with
  | nil l => exact ⟨[], .nil _, List.nil_prefix⟩
  | @cons l u v a as hok hs hrest ih =>
    obtain ⟨e, he, hstep⟩ := stepped hs
    cases hstep with
    | received hr =>
      obtain ⟨es, hrun, hes⟩ := ih
      refine ⟨_ :: es, .cons trivial he hrun, ?_⟩
      rw [recvAll_ok hr]
      simp only [messages, List.filterMap_cons, messageOf_arrival]
      exact List.cons_prefix_cons.mpr ⟨rfl, hes⟩
    | failed hr =>
      obtain ⟨es, hrun, hes⟩ := simulated_deaf hrest (failed_deaf he)
      refine ⟨_ :: es, .cons trivial he hrun, ?_⟩
      change messages es <+: _
      rw [hes]
      exact List.nil_prefix
    | other hnone ho hr =>
      obtain ⟨es, hrun, hes⟩ := ih
      refine ⟨_ :: es, .cons trivial he hrun, ?_⟩
      simp only [messages, List.filterMap_cons, hnone]
      rw [← ho, ← hr]
      exact hes

end Reading

/-! Between the two ends of a handshake. -/

/-- The two sessions are the ends of an untampered handshake, either of them the one that
dialled. -/
inductive Connected (i j : ℕ) (x y : Session Octets) : Prop where
  | dialled {a b : Identity} (hne : a.machineId ≠ b.machineId)
      (hx : (begin a i).complete (begin b j).hello true = .ok x)
      (hy : (begin b j).complete (begin a i).hello false = .ok y)
  | accepted {a b : Identity} (hne : a.machineId ≠ b.machineId)
      (hx : (begin b j).complete (begin a i).hello false = .ok x)
      (hy : (begin a i).complete (begin b j).hello true = .ok y)

theorem Connected.keys {i j : ℕ} {x y : Session Octets} (h : Connected i j x y) :
    ∃ salt first, x.send = .new (.derived (.shared s(.minted i, .minted j)) salt first) ∧
      y.receive = .new (.derived (.shared s(.minted i, .minted j)) salt first) ∧
      y.send = .new (.derived (.shared s(.minted i, .minted j)) salt (!first)) := by
  cases h with
  | dialled hne hx hy =>
    obtain ⟨hs, ht⟩ := @complete_both Octets _ _ _ hne i j
    obtain rfl := Except.ok.inj (hx.symm.trans hs)
    obtain rfl := Except.ok.inj (hy.symm.trans ht)
    exact ⟨_, true, rfl, rfl, rfl⟩
  | accepted hne hx hy =>
    obtain ⟨hs, ht⟩ := @complete_both Octets _ _ _ hne i j
    obtain rfl := Except.ok.inj (hx.symm.trans ht)
    obtain rfl := Except.ok.inj (hy.symm.trans hs)
    exact ⟨_, false, rfl, rfl, rfl⟩

namespace Transport
variable {i j : ℕ} {x y : Session Octets} {c : Encoding} {ms : List Message} {ps : List Octets}

theorem forall₂_parses (hp : ∀ m ∈ ms, c.Parses m)
    (h : List.Forall₂ (fun m p => c.toVec m = .ok p) ms ps) :
    List.Forall₂ (fun m p => c.fromSlice p = .ok m) ms ps := by
  induction h with
  | nil => exact .nil
  | @cons m p ms ps hm _ ih =>
    exact .cons (hp m List.mem_cons_self p hm) (ih fun m hm => hp m (List.mem_cons_of_mem _ hm))

theorem forall₂_unique {qs : List Octets} (h : List.Forall₂ (fun m p => c.toVec m = .ok p) ms ps)
    (h' : List.Forall₂ (fun m p => c.toVec m = .ok p) ms qs) : qs = ps := by
  induction h generalizing qs with
  | nil =>
    cases h'
    rfl
  | cons hm _ ih =>
    cases h' with
    | cons hm' hrest =>
      obtain rfl := Except.ok.inj (hm.symm.trans hm')
      rw [ih hrest]

theorem forall₂_same {ns : List Message} (h : List.Forall₂ (fun m p => c.fromSlice p = .ok m) ms ps)
    (h' : List.Forall₂ (fun m p => c.fromSlice p = .ok m) ns ps) : ms = ns := by
  induction h generalizing ns with
  | nil =>
    cases h'
    rfl
  | cons hm _ ih =>
    cases h' with
    | cons hm' hrest =>
      obtain rfl := Except.ok.inj (hm.symm.trans hm')
      rw [ih hrest]

/-- The bytes sent arrive in any pieces, and the connection breaks anywhere or nowhere: exactly the
messages are received all of whose bytes have arrived, the same ones and in order, then the error
that ended it. -/
theorem session_delivers (h : Connected i j x y) (hc : c.Ciphers x.send.key)
    (hp : ∀ m ∈ ms, c.Parses m) {failure ended : String} {room : Option ℕ}
    {e : Crypto.Direction Octets} {w : Writer}
    (hsent : sendAll c x.send ⟨[], room, failure⟩ ms = (none, e, w)) {pieces : List Octets}
    (harrived : pieces.flatten <+: w.written) :
    ∃ k ≤ ms.length, recvAll c y.receive (.new pieces ended) = (ms.take k, .io ended) ∧
      (pieces.flatten = w.written → k = ms.length) ∧
      ∀ n ≤ ms.length, ∀ v f,
        sendAll c x.send ⟨[], room, failure⟩ (ms.take n) = (none, f, v) →
          (v.written.length ≤ pieces.flatten.length ↔ n ≤ k) := by
  obtain ⟨ps, hps, hmax, hwritten⟩ := sendAll_none hsent
  rw [List.nil_append] at hwritten
  rw [hwritten] at harrived
  obtain ⟨salt, first, hx, hy, -⟩ := h.keys
  have hsame : y.receive = x.send := hy.trans hx.symm
  obtain ⟨k, hk, hall, hcount⟩ := recvAll_cut (r := .new pieces ended) hc
    (forall₂_parses hp hps) hmax harrived
  have htake : ∀ n ≤ ms.length, ∀ v f,
      sendAll c x.send ⟨[], room, failure⟩ (ms.take n) = (none, f, v) →
        v.written = wire c x.send (ps.take n) := by
    intro n _ v f hn
    obtain ⟨qs, hqs, -, hv⟩ := sendAll_none hn
    rw [hv, forall₂_unique (List.forall₂_take n hps) hqs]
    rfl
  refine ⟨k, hk, hsame ▸ hall, fun hwhole => ?_, fun n hn v f hv => ?_⟩
  · refine le_antisymm hk ((hcount _ le_rfl).mp ?_)
    rw [hps.length_eq, List.take_length, ← hwritten, ← hwhole]
    rfl
  · rw [htake n hn v f hv]
    exact hcount n hn

/-- Whatever an attacker makes of everything it has overheard and writes into the connection, the
session does what it would do by itself on messages that the other end has sent, from the first one
on, in order, without a gap. -/
theorem session_under_attack (h : Connected i j x y) (hp : ∀ m ∈ ms, c.Parses m)
    (hps : List.Forall₂ (fun m p => c.toVec m = .ok p) ms ps) {qs : List Octets}
    (hlen : ps.length < 18446744073709551616) (hlen' : qs.length < 18446744073709551616)
    {pieces : List Octets} {ended : String}
    (hattacker : ∀ f ∈ (readFrames (.new pieces ended)).1,
      Derives (Overheard i j (x.send.sealAll ps ++ y.send.sealAll qs)) (c.ofBytes f))
    {t : SessionTask} {as : List Reading.Move} {l : Reading}
    (hrun : Run (Reading.step c) Any ⟨t, y.receive, .new pieces ended, []⟩ as l) :
    ∃ es, Run Reading.taskStep Any (t, []) es (l.task, l.results) ∧ Reading.messages es <+: ms := by
  obtain ⟨es, htask, hes⟩ := Reading.simulated hrun
  refine ⟨es, htask, hes.trans ?_⟩
  obtain ⟨salt, first, hx, hy, hz⟩ := h.keys
  obtain ⟨opened, hopened, hparsed⟩ := recvAll_opened c y.receive (.new pieces ended)
  have hsealed : (y.receive.openAll ((readFrames (.new pieces ended)).1.map c.ofBytes)).1 <+:
      ps := by
    have hheard : ∀ f ∈ x.send.sealAll ps ++ y.send.sealAll qs,
        f ∈ x.send.sealAll ps ∨ f ∈ y.send.sealAll qs := fun f hf => List.mem_append.mp hf
    have hdelivered : ∀ f ∈ (readFrames (.new pieces ended)).1.map c.ofBytes,
        Derives (Overheard i j (x.send.sealAll ps ++ y.send.sealAll qs)) f := by
      intro f hf
      obtain ⟨bytes, hbytes, rfl⟩ := List.mem_map.mp hf
      exact hattacker bytes hbytes
    rw [hy]
    rw [hx, hz] at hheard hdelivered
    exact Overheard.openAll_prefix hlen hlen' hheard hdelivered
  -- what was parsed are the messages that were sent
  obtain ⟨rest, hall⟩ := hopened.trans hsealed
  have hsent := forall₂_parses hp hps
  rw [← hall] at hsent
  have htaken := List.forall₂_take_append ms opened rest hsent
  have hsame : (recvAll c y.receive (.new pieces ended)).1 = ms.take opened.length :=
    forall₂_same hparsed htaken
  rw [hsame]
  exact List.take_prefix _ _

/-! A ping between the studio and the laptop. -/

def half (first : Bool) : Bytes Octets :=
  .derived (.shared s(.minted 0, .minted 1)) (.salt (.minted 0) (.minted 1)) first

def studio : Session Octets := ⟨2, 12, .new (half true), .new (half false)⟩

def laptop : Session Octets := ⟨1, 11, .new (half false), .new (half true)⟩

theorem studio_laptop : Connected 0 1 studio laptop :=
  let ends := @complete_both Octets _ ⟨1, 11⟩ ⟨2, 12⟩ (by decide) 0 1
  .dialled (by decide) ends.1 ends.2

def pingText : Octets :=
  [123, 34, 112, 105, 110, 103, 34, 58, 123, 34, 110, 111, 110, 99, 101, 34, 58, 49, 125, 125]

/-- Knows one message, and the ciphertexts under the studio's key; their bytes begin with the
counter. -/
def pings : Encoding where
  toVec m := if m = .ping 1 then .ok pingText else .error "no such message"
  fromSlice text := if text = pingText then .ok (.ping 1) else .error "expected value"
  toBytes t :=
    match t with
    | .sealed _ n (.message p) => List.replicate n 1 ++ 0 :: p
    | _ => []
  ofBytes bytes :=
    .sealed (half true) (bytes.takeWhile (· = 1)).length
      (.message (bytes.dropWhile (· = 1)).tail)

theorem ciphers_pings : pings.Ciphers (half true) := by
  intro n p
  simp only [pings]
  congr 2
  · simp
  · rw [List.dropWhile_append_of_pos (by simp)]
    rfl

theorem parses_pings : ∀ m ∈ [Message.ping 1], pings.Parses m := by
  intro m hm p hp
  obtain rfl := List.mem_singleton.mp hm
  obtain rfl : pingText = p := by simpa [pings] using hp
  rfl

/-- A ping arrives in two pieces, and then the connection ends. -/
theorem session_delivers_ping :
    ∃ k ≤ 1, recvAll pings laptop.receive
        (.new [[0, 0], [0, 21, 0] ++ pingText] "connection reset") =
      ([Message.ping 1].take k, .io "connection reset") ∧ k = 1 := by
  have hsent : sendAll pings studio.send ⟨[], none, ""⟩ [.ping 1] =
      (none, (studio.send.seal pingText).2, ⟨[0, 0, 0, 21, 0] ++ pingText, none, ""⟩) := rfl
  have harrived : [[0, 0], [0, 21, 0] ++ pingText].flatten <+: [0, 0, 0, 21, 0] ++ pingText :=
    List.prefix_refl _
  obtain ⟨k, hk, hall, hwhole, -⟩ :=
    session_delivers studio_laptop ciphers_pings parses_pings hsent harrived
  exact ⟨k, hk, hall, hwhole rfl⟩

/-- The studio's ping is delivered to the laptop twice. -/
theorem session_under_attack_repeated :
    let bytes := frame (pings.toBytes (studio.send.seal pingText).1)
    let t : SessionTask := ⟨0, none, "10.0.0.1", begin ⟨2, 12⟩ 1, .running 1, none, []⟩
    ∃ l, Run (Reading.step pings) Any ⟨t, laptop.receive, .new [bytes, bytes] "", []⟩
        [.receive (.ofDoc together), .receive (.ofDoc together)] l ∧
      l.task.stage = .closing 1 (.error (.crypto "frame failed authentication")) ∧
      ∃ es, Run Reading.taskStep Any (t, []) es (l.task, l.results) ∧
        Reading.messages es <+: [.ping 1] := by
  intro bytes t
  obtain ⟨l, hrun, hl⟩ := run_of_replay (Reading.step pings) Any
    ⟨t, laptop.receive, .new [bytes, bytes] "", []⟩
    [.receive (.ofDoc together), .receive (.ofDoc together)] (fun l => l.task.stage)
    (b := .closing 1 (.error (.crypto "frame failed authentication"))) (by decide +kernel)
  have htext : List.Forall₂ (fun m p => pings.toVec m = .ok p) [Message.ping 1] [pingText] :=
    .cons rfl .nil
  have hone : [pingText].length < 18446744073709551616 := by decide
  have hnone : ([] : List Octets).length < 18446744073709551616 := by decide
  refine ⟨l, hrun, hl,
    session_under_attack studio_laptop parses_pings htext hone hnone (fun f hf => ?_) hrun⟩
  -- every frame is the one that was overheard
  have hall : ∀ b ∈ List.replicate 2 (pings.toBytes (studio.send.seal pingText).1),
      b.length ≤ SessionTask.maxFrame := by
    intro b hb
    rw [List.eq_of_mem_replicate hb]
    decide
  obtain ⟨last, hlast, -⟩ := readFrames_frames hall (r := .new [bytes, bytes] "") rfl
  rw [hlast] at hf
  rw [List.eq_of_mem_replicate hf, show (studio.send.seal pingText).1 =
    .sealed (half true) 0 (.message pingText) from rfl, ciphers_pings]
  exact .known (.frame List.mem_cons_self)

end Transport
end InputShare

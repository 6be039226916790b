import InputShare.Net.Connections

/-! What two machines that complete handshakes with the same keys know of each other. -/
namespace InputShare
open Symbolic Runs

namespace Network

def Minted (f : Fleet) (w : Network) (h : Hello Message) : Prop :=
  ∃ j d, w.connections[j]? = some d ∧ d.machine = h.machineId ∧ f.key d.machine = h.identityKey ∧
    h.ephemeral = .minted j ∧ h.nonce = .minted j

/-- The session is what came of the message `h`. -/
structure Met (f : Fleet) (w : Network) (c : Connection) (s : Session Message)
    (h : Hello Message) : Prop where
  other : h.machineId ≠ c.machine
  machine : s.peerMachine = h.machineId
  key : s.peerKey = h.identityKey
  send : s.send.key = c.initiation.keyOf h c.dialled c.dialled
  receive : s.receive.key = c.initiation.keyOf h c.dialled (!c.dialled)
  minted : f.Owns h.identityKey → Minted f w h

structure ConnectionOk (f : Fleet) (w : Network) (i : ℕ) (c : Connection) : Prop where
  member : c.machine ∈ f.machines
  initiation : c.initiation = InputShare.begin (f.identity c.machine) i
  met : ∀ s ∈ c.session, ∃ h, c.peerHello = some h ∧ Met f w c s h
  sending : ∀ s ∈ c.session, s.send.counter = c.sent.length % 18446744073709551616
  receiving : ∀ s ∈ c.session, s.receive.counter = c.received % 18446744073709551616
  idle : c.session = none → c.sent = [] ∧ c.received = 0
  fresh : c.stage = .begun → c.session = none
  unasked : c.stage = .begun ∨ c.stage = .completed → c.admitted = none

/-- What the honest machines keep to themselves, have signed and have sealed. -/
def honest (f : Fleet) (w : Network) : Honest (Datum Message) Random PubKey where
  exponent x := ∃ i, x = .minted i
  signer := f.Owns
  signed k d := ∃ (j : ℕ) (c : Connection), w.connections[j]? = some c ∧ f.key c.machine = k ∧
    d = .transcript c.machine (.minted j) (.minted j)
  «sealed» key n d := ∃ (j : ℕ) (c : Connection) (s : Session Message) (p : ℕ) (m : Message),
    w.connections[j]? = some c ∧ c.session = some s ∧ s.send.key = key ∧ c.sent[p]? = some m ∧
      p % 18446744073709551616 = n ∧ d = .message m

structure Inv (f : Fleet) (w : Network) : Prop where
  connections : ∀ i c, w.connections[i]? = some c → ConnectionOk f w i c
  seen : ∀ t ∈ w.seen, Safe (honest f w) t

structure Grown (c d : Connection) : Prop where
  machine : d.machine = c.machine
  session : ∀ s ∈ c.session, ∃ t, d.session = some t ∧ t.peerMachine = s.peerMachine ∧
    t.peerKey = s.peerKey ∧ t.send.key = s.send.key ∧ t.receive.key = s.receive.key
  sent : ∃ ms, d.sent = c.sent ++ ms
  admitted : ∀ x ∈ c.admitted, d.admitted = some x

theorem Grown.refl (c : Connection) : Grown c c :=
  ⟨rfl, fun s hs => ⟨s, hs, rfl, rfl, rfl, rfl⟩, ⟨[], (List.append_nil _).symm⟩, fun _ hx => hx⟩

def Grew (w t : Network) : Prop :=
  ∀ (i : ℕ) (c : Connection), w.connections[i]? = some c →
    ∃ d, t.connections[i]? = some d ∧ Grown c d

section Growth
variable {f : Fleet} {w t : Network}

theorem Minted.mono (hg : Grew w t) {h : Hello Message} (hm : Minted f w h) : Minted f t h := by
  obtain ⟨j, d, hd, hmach, hkey, he, hn⟩ := hm
  obtain ⟨e, he', hgr⟩ := hg j d hd
  exact ⟨j, e, he', hgr.machine.trans hmach, by rw [hgr.machine, hkey], he, hn⟩

theorem Met.mono (hg : Grew w t) {c : Connection} {s : Session Message} {h : Hello Message}
    (hm : Met f w c s h) :
    Met f t c s h :=
  ⟨hm.other, hm.machine, hm.key, hm.send, hm.receive, fun ho => (hm.minted ho).mono hg⟩

theorem ConnectionOk.mono (hg : Grew w t) {i : ℕ} {c : Connection} (h : ConnectionOk f w i c) :
    ConnectionOk f t i c :=
  ⟨h.member, h.initiation, fun s hs => (h.met s hs).imp fun _ hm => ⟨hm.1, hm.2.mono hg⟩, h.sending,
    h.receiving, h.idle, h.fresh, h.unasked⟩

theorem safe_mono (hg : Grew w t) {x : Bytes Message} (h : Safe (honest f w) x) :
    Safe (honest f t) x := by
  refine Safe.mono (h := honest f w) (k := honest f t) (fun _ hx => hx) (fun _ hx => hx) ?_ ?_ h
  · rintro k d ⟨j, c, hc, hk, rfl⟩
    obtain ⟨e, he, hgr⟩ := hg j c hc
    exact ⟨j, e, he, by rw [hgr.machine, hk], by rw [hgr.machine]⟩
  · rintro key n d ⟨j, c, s, p, m, hc, hs, hkey, hp, hn, rfl⟩
    obtain ⟨e, he, hgr⟩ := hg j c hc
    obtain ⟨u, hu, -, -, hsend, -⟩ := hgr.session s hs
    obtain ⟨ms, hms⟩ := hgr.sent
    refine ⟨j, e, u, p, m, he, hu, hsend.trans hkey, ?_, hn, rfl⟩
    rw [hms, List.getElem?_append_left (List.getElem?_eq_some_iff.mp hp).1, hp]

end Growth

theorem get_set {l : List Connection} {i j : ℕ} {c d : Connection}
    (h : (l.set i c)[j]? = some d) : (j = i ∧ d = c) ∨ l[j]? = some d := by
  by_cases hij : i = j
  · subst hij
    obtain ⟨hi, hd⟩ := List.getElem?_eq_some_iff.mp h
    refine .inl ⟨rfl, ?_⟩
    simpa using hd.symm
  · exact .inr (by rwa [List.getElem?_set_ne hij] at h)

theorem grew_set {w t : Network} {i : ℕ} {c d : Connection} (hc : w.connections[i]? = some c)
    (ht : t.connections = w.connections.set i d) (hg : Grown c d) : Grew w t := by
  intro j e he
  rw [ht]
  by_cases hij : i = j
  · subst hij
    obtain rfl := Option.some.inj (hc.symm.trans he)
    have hlt := (List.getElem?_eq_some_iff.mp hc).1
    exact ⟨d, by simp [hlt], hg⟩
  · exact ⟨e, by rw [List.getElem?_set_ne hij, he], .refl e⟩

theorem Inv.set {f : Fleet} {w t : Network} {i : ℕ} {c d : Connection} (new : List (Bytes Message))
    (h : Inv f w) (hc : w.connections[i]? = some c) (ht : t.connections = w.connections.set i d)
    (hseen : t.seen = w.seen ++ new) (hg : Grown c d) (hd : ConnectionOk f w i d)
    (hnew : ∀ x ∈ new, Safe (honest f t) x) : Inv f t := by
  have hgrew := grew_set hc ht hg
  refine ⟨fun j e he => ?_, fun x hx => ?_⟩
  · rw [ht] at he
    obtain ⟨rfl, rfl⟩ | he := get_set he
    · exact hd.mono hgrew
    · exact (h.connections j e he).mono hgrew
  · rw [hseen] at hx
    exact (List.mem_append.mp hx).elim (fun hx => safe_mono hgrew (h.seen x hx)) (hnew x)

/-! What a connection does. -/

theorem grown_closed (c : Connection) : Grown c { c with stage := .closed } :=
  ⟨rfl, fun s hs => ⟨s, hs, rfl, rfl, rfl, rfl⟩, ⟨[], by simp⟩, fun _ hx => hx⟩

theorem ConnectionOk.grown_hello {f : Fleet} {w : Network} {i : ℕ} {c : Connection}
    (k : ConnectionOk f w i c) (hb : c.stage = .begun) (x : Hello Message) (s : Session Message)
    (stage : Stage) :
    Grown c { c with peerHello := some x, session := some s, stage := stage } :=
  ⟨rfl, by simp [k.fresh hb], ⟨[], by simp⟩, fun _ hx => hx⟩

theorem Inv.close {f : Fleet} {w t : Network} {i : ℕ} {c : Connection} (h : Inv f w)
    (hc : w.connections[i]? = some c)
    (ht : t.connections = w.connections.set i { c with stage := .closed })
    (hseen : t.seen = w.seen) : Inv f t := by
  have k := h.connections i c hc
  refine h.set [] hc ht (by simp [hseen]) (grown_closed c) ?_ (by simp)
  exact ⟨k.member, k.initiation, fun s hs => (k.met s hs).imp fun _ ⟨hp, m⟩ =>
      ⟨hp, m.other, m.machine, m.key, m.send, m.receive, m.minted⟩, k.sending, k.receiving, k.idle,
      fun e => (by cases e), fun e => (by rcases e with e | e <;> cases e)⟩

theorem Grown.sealed {c d : Connection} {s : Session Message} (h : Grown c d)
    (hs : d.session = some s)
    (m : Message) : Grown c (d.sealed s m) := by
  refine ⟨h.machine, fun u hu => ?_, ?_, h.admitted⟩
  · obtain ⟨v, hv, h₁, h₂, h₃, h₄⟩ := h.session u hu
    obtain rfl := Option.some.inj (hs.symm.trans hv)
    exact ⟨_, rfl, h₁, h₂, h₃, h₄⟩
  · obtain ⟨ms, hms⟩ := h.sent
    exact ⟨ms ++ [m], by simp [Connection.sealed, hms]⟩

theorem ConnectionOk.sealed {f : Fleet} {w : Network} {i : ℕ} {d : Connection} {s : Session Message}
    (h : ConnectionOk f w i d) (hs : d.session = some s)
    (hstage : d.stage ≠ .begun ∧ d.stage ≠ .completed) (m : Message) :
    ConnectionOk f w i (d.sealed s m) := by
  have hcount := h.sending s hs
  refine ⟨h.member, h.initiation, ?_, ?_, ?_, fun k => (by cases k), fun k => absurd k hstage.1,
    fun k => absurd k (not_or.mpr hstage)⟩
  · intro u hu
    obtain rfl := Option.some.inj hu
    obtain ⟨x, hp, hx⟩ := h.met s hs
    exact ⟨x, hp, hx.other, hx.machine, hx.key, hx.send, hx.receive, hx.minted⟩
  · intro u hu
    obtain rfl := Option.some.inj hu
    simp only [Crypto.Direction.seal, Crypto.Direction.nextNonce, Connection.sealed,
      List.length_append, List.length_singleton, hcount]
    omega
  · intro u hu
    obtain rfl := Option.some.inj hu
    exact h.receiving s hs

theorem Inv.send {f : Fleet} {w : Network} {i : ℕ} {c d : Connection} {s : Session Message}
    (h : Inv f w)
    (hc : w.connections[i]? = some c) (hd : ConnectionOk f w i d) (hg : Grown c d)
    (hs : d.session = some s) (hstage : d.stage ≠ .begun ∧ d.stage ≠ .completed) (m : Message) :
    Inv f (w.send i d s m) := by
  refine h.set [(s.send.seal m).1] hc rfl rfl (hg.sealed hs m) (hd.sealed hs hstage m) ?_
  intro x hx
  obtain rfl := List.mem_singleton.mp hx
  have hlt := (List.getElem?_eq_some_iff.mp hc).1
  refine .inr ⟨i, d.sealed s m, _, d.sent.length, m, ?_, rfl, rfl, ?_, ?_, rfl⟩
  · simp [Network.send, Network.set, hlt]
  · simp [Connection.sealed]
  · simpa [Crypto.Direction.nextNonce] using (hd.sending s hs).symm

theorem grew_append (w : Network) (c : Connection) (seen : List (Bytes Message)) :
    Grew w { w with connections := w.connections ++ [c], seen := seen } := by
  intro j d hd
  refine ⟨d, ?_, .refl d⟩
  simpa [List.getElem?_append_left (List.getElem?_eq_some_iff.mp hd).1] using hd

theorem Inv.begin {f : Fleet} {w : Network} {m : MachineId} (h : Inv f w) (hm : m ∈ f.machines)
    (dialled : Bool) (expect : Option MachineId) :
    Inv f { w with
      connections := w.connections ++ [⟨m, dialled, expect,
        InputShare.begin (f.identity m) w.connections.length, none, none, .begun,
            none, none, [], 0⟩]
      seen := w.seen ++
        [(InputShare.begin (f.identity m) w.connections.length).hello.signature] } := by
  have hgrew := grew_append w ⟨m, dialled, expect,
    InputShare.begin (f.identity m) w.connections.length, none, none, .begun, none, none, [], 0⟩
    (w.seen ++ [(InputShare.begin (f.identity m) w.connections.length).hello.signature])
  refine ⟨fun i c hc => ?_, fun x hx => ?_⟩
  · by_cases hi : i < w.connections.length
    · rw [List.getElem?_append_left hi] at hc
      exact (h.connections i c hc).mono hgrew
    · have hlen : i = w.connections.length := by
        have hlt := (List.getElem?_eq_some_iff.mp hc).1
        simp only [List.length_append, List.length_singleton] at hlt
        omega
      subst hlen
      rw [List.getElem?_concat_length] at hc
      obtain rfl := Option.some.inj hc
      exact ⟨hm, rfl, by simp, by simp, by simp, fun _ => ⟨rfl, rfl⟩, fun _ => rfl, fun _ => rfl⟩
  · obtain hx | hx := List.mem_append.mp hx
    · exact safe_mono hgrew (h.seen x hx)
    · obtain rfl := List.mem_singleton.mp hx
      exact fun _ => ⟨w.connections.length, _, List.getElem?_concat_length, rfl, rfl⟩

theorem safe_of_derives {f : Fleet} {w : Network} {x : Bytes Message} (h : Inv f w)
    (hx : Derives (w.known f) x) : Safe (honest f w) x := by
  refine hx.safe fun t ht => ?_
  unfold known at ht
  split at ht
  · rintro ⟨i, hi⟩
    cases hi
  · exact ht
  · exact h.seen t ht

/-- A message that verifies under a key of an honest machine was sent by that machine. -/
theorem minted_of_verify {f : Fleet} {w : Network} {x : Hello Message} (h : Inv f w)
    (hv : x.verify = true) (hd : Derives (w.known f) x.signature) (ho : f.Owns x.identityKey) :
    Minted f w x := by
  rw [x.signature_of_verify hv] at hd
  obtain ⟨j, c, hc, hk, heq⟩ := safe_of_derives h hd ho
  obtain ⟨hm, he, hn⟩ := Datum.transcript.inj heq
  exact ⟨j, c, hc, hm.symm, hk, he, hn⟩

theorem Inv.hello {f : Fleet} {w : Network} {i : ℕ} {c : Connection} {x : Hello Message}
    {s : Session Message}
    {stage : Stage} (h : Inv f w) (hc : w.connections[i]? = some c) (hb : c.stage = .begun)
    (hd : Derives (w.known f) x.signature) (hs : c.initiation.complete x c.dialled = .ok s)
    (hstage : stage ≠ .begun) :
    Inv f (w.set i { c with peerHello := some x, session := some s, stage := stage }) := by
  have k := h.connections i c hc
  obtain ⟨hv, hm, rfl⟩ := Initiation.complete_ok hs
  have hnone := k.fresh hb
  have hid : c.initiation.hello.machineId = c.machine := by
    rw [k.initiation]
    rfl
  refine h.set [] hc rfl (by simp [Network.set]) (k.grown_hello hb x _ stage) ?_ (by simp)
  refine ⟨k.member, k.initiation, ?_, ?_, ?_, fun e => (by cases e), fun e => absurd e hstage, ?_⟩
  · intro u hu
    obtain rfl := Option.some.inj hu
    exact ⟨x, rfl, hid ▸ hm, rfl, rfl, rfl, rfl, minted_of_verify h hv hd⟩
  · intro u hu
    obtain rfl := Option.some.inj hu
    simp [Crypto.Direction.new, (k.idle hnone).1]
  · intro u hu
    obtain rfl := Option.some.inj hu
    simp [Crypto.Direction.new, (k.idle hnone).2]
  · exact fun _ => k.unasked (.inl hb)

theorem ConnectionOk.opened {f : Fleet} {w : Network} {i : ℕ} {c : Connection} {s : Session Message}
    {frame : Bytes Message} {m : Message} {d : Crypto.Direction Message} {stage : Stage}
    (k : ConnectionOk f w i c)
    (hs : c.session = some s) (ho : s.receive.open frame = .ok (m, d))
    (hstage : stage ≠ .begun ∧ stage ≠ .completed) :
    ConnectionOk f w i (c.opened s d stage) := by
  obtain ⟨-, rfl⟩ := Crypto.Direction.open_ok ho
  have hrec := k.receiving s hs
  refine ⟨k.member, k.initiation, ?_, ?_, ?_, fun e => (by cases e), fun e => absurd e hstage.1,
    fun e => absurd e (not_or.mpr hstage)⟩
  · intro u hu
    obtain rfl := Option.some.inj hu
    obtain ⟨x, hp, hx⟩ := k.met s hs
    exact ⟨x, hp, hx.other, hx.machine, hx.key, hx.send, hx.receive, hx.minted⟩
  · intro u hu
    obtain rfl := Option.some.inj hu
    exact k.sending s hs
  · intro u hu
    obtain rfl := Option.some.inj hu
    simp only [Crypto.Direction.nextNonce, hrec, Connection.opened]
    omega

theorem grown_opened {c : Connection} {s : Session Message} {frame : Bytes Message} {m : Message}
    {d : Crypto.Direction Message}
    (hs : c.session = some s) (ho : s.receive.open frame = .ok (m, d)) (stage : Stage) :
    Grown c (c.opened s d stage) := by
  obtain ⟨-, rfl⟩ := Crypto.Direction.open_ok ho
  refine ⟨rfl, ?_, ⟨[], by simp [Connection.opened]⟩, fun _ hx => hx⟩
  intro u hu
  obtain rfl := Option.some.inj (hs.symm.trans hu)
  exact ⟨_, rfl, rfl, rfl, rfl, rfl⟩

theorem ConnectionOk.grown_authorised {f : Fleet} {w : Network} {i : ℕ} {c : Connection}
    (k : ConnectionOk f w i c) (hb : c.stage = .completed) (s : Session Message)
    (ours : Option WorkspaceId) : Grown c (c.authorised s ours) :=
  ⟨rfl, fun u hu => ⟨u, hu, rfl, rfl, rfl, rfl⟩, ⟨[], by simp [Connection.authorised]⟩,
    by simp [k.unasked (.inr hb)]⟩

theorem ConnectionOk.authorised {f : Fleet} {w : Network} {i : ℕ} {c : Connection}
    (k : ConnectionOk f w i c) (s : Session Message) (ours : Option WorkspaceId) :
    ConnectionOk f w i (c.authorised s ours) :=
  ⟨k.member, k.initiation, fun u hu => (k.met u hu).imp fun _ ⟨hp, m⟩ =>
    ⟨hp, m.other, m.machine, m.key, m.send, m.receive, m.minted⟩, k.sending, k.receiving, k.idle,
    fun e => (by cases e), fun e => (by rcases e with e | e <;> cases e)⟩

theorem Inv.grew {f : Fleet} {w t : Network} {a : Action} (h : Inv f w)
    (hstep : step f w a = some t) : Grew w t := by
  cases stepped hstep with
  | «begin» hm => exact grew_append _ _ _
  | @closed _ i c hc => exact grew_set hc rfl (grown_closed c)
  | hello hc hb hs => exact grew_set hc rfl ((h.connections _ _ hc).grown_hello hb _ _ _)
  | authorise hc hs hb ha =>
    exact grew_set hc rfl (((h.connections _ _ hc).grown_authorised hb _ _).sealed hs _)
  | established hc hs hb ho => exact grew_set hc rfl (grown_opened hs ho _)
  | parted hc hs hb ho => exact grew_set hc rfl ((grown_opened hs ho _).sealed rfl _)
  | read hc hs hb ho => exact grew_set hc rfl (grown_opened hs ho _)
  | ended hc hs hb ho => exact grew_set hc rfl (grown_opened hs ho _)
  | write hc hs => exact grew_set hc rfl ((Grown.refl _).sealed hs _)
  | agent => exact fun _ c hc => ⟨c, hc, .refl c⟩

theorem Inv.step {f : Fleet} {w t : Network} {a : Action} (h : Inv f w) (hok : Attacked f w a)
    (hstep : step f w a = some t) : Inv f t := by
  cases stepped hstep with
  | «begin» hm => exact h.begin hm _ _
  | closed hc => exact h.close hc rfl rfl
  | hello hc hb hs hst hst' => exact h.hello hc hb hok hs hst
  | authorise hc hs hb ha =>
    have k := h.connections _ _ hc
    exact h.send hc (k.authorised _ _) (k.grown_authorised hb _ _) hs
      (by simp [Connection.authorised]) _
  | established hc hs hb ho =>
    exact h.set [] hc rfl (by simp [Network.set]) (grown_opened hs ho _)
      ((h.connections _ _ hc).opened hs ho (by simp)) (by simp)
  | parted hc hs hb ho =>
    exact h.send hc ((h.connections _ _ hc).opened hs ho (by simp)) (grown_opened hs ho _) rfl
      (by simp [Connection.opened]) _
  | read hc hs hb ho =>
    exact h.set [] hc rfl (by simp [Network.set]) (grown_opened hs ho _)
      ((h.connections _ _ hc).opened hs ho (by simp)) (by simp)
  | ended hc hs hb ho =>
    exact h.set [] hc rfl (by simp [Network.set]) (grown_opened hs ho _)
      ((h.connections _ _ hc).opened hs ho (by simp)) (by simp)
  | write hc hs hb =>
    exact h.send hc (h.connections _ _ hc) (.refl _) hs (by simp [hb]) _
  | @agent m s =>
    have hg : Grew w { w with agents := Function.update w.agents m s } :=
      fun _ c hc => ⟨c, hc, .refl c⟩
    exact ⟨fun i c hc => (h.connections i c hc).mono hg, fun x hx => safe_mono hg (h.seen x hx)⟩

theorem inv_start (f : Fleet) (agents : MachineId → State) : Inv f (start agents) :=
  ⟨fun i c hc => by simp [start] at hc, fun t ht => by simp [start] at ht⟩

/-! The two ends of a session. -/

/-- The same two keys, whichever is for which direction. -/
def SameKeys (s t : Session Message) : Prop :=
  (s.send.key = t.send.key ∧ s.receive.key = t.receive.key) ∨
    (s.send.key = t.receive.key ∧ s.receive.key = t.send.key)

def Agree (f : Fleet) (c d : Connection) (s t : Session Message) : Prop :=
  (s.peerMachine = d.machine ∧ s.peerKey = f.key d.machine) ∧
    t.peerMachine = c.machine ∧ t.peerKey = f.key c.machine

/-- Two handshakes that come to the same key have each other's nonce, and opposite roles. -/
theorem keyOf_cross {a b : Identity} {i j : ℕ} {x y : Hello Message} {p q first : Bool}
    (h : (InputShare.begin a i).keyOf x p first = (InputShare.begin b j).keyOf y q first)
    (hij : i ≠ j) : q = !p ∧ x.nonce = .minted j ∧ y.nonce = .minted i := by
  simp only [Initiation.keyOf, InputShare.begin, Term.derived.injEq] at h
  obtain ⟨-, hsalt, -⟩ := h
  cases p <;> cases q <;> simp_all

theorem keyOf_congr {x y : Initiation Message} {h k : Hello Message} {p q first second : Bool}
    (he : x.keyOf h p first = y.keyOf k q second) :
    first = second ∧ ∀ side, x.keyOf h p side = y.keyOf k q side := by
  simp only [Initiation.keyOf, Term.derived.injEq] at he
  obtain ⟨hsecret, hsalt, hside⟩ := he
  exact ⟨hside, fun side => by simp only [Initiation.keyOf, hsecret, hsalt]⟩

theorem inv_run {f : Fleet} {agents : MachineId → State} {as : List Action} {w : Network}
    (h : Run (step f) (Attacked f) (start agents) as w) : Inv f w :=
  h.invariant (I := Inv f) (fun _ _ _ hi hok hs => hi.step hok hs) (inv_start f agents)

theorem crossed_of_sameKeys {f : Fleet} {w : Network} {i j : ℕ} {c d : Connection}
    {s t : Session Message}
    {x y : Hello Message} (hij : i ≠ j) (kc : ConnectionOk f w i c) (kd : ConnectionOk f w j d)
    (hx : Met f w c s x) (hy : Met f w d t y) (hk : SameKeys s t) :
    x.nonce = .minted j ∧ y.nonce = .minted i := by
  have hkey : ∃ first, c.initiation.keyOf x c.dialled first =
      d.initiation.keyOf y d.dialled first := by
    obtain ⟨hk, -⟩ | ⟨hk, -⟩ := hk
    · rw [hx.send, hy.send] at hk
      exact ⟨_, (keyOf_congr hk).2 true⟩
    · rw [hx.send, hy.receive] at hk
      exact ⟨_, (keyOf_congr hk).2 true⟩
  obtain ⟨first, hkey⟩ := hkey
  rw [kc.initiation, kd.initiation] at hkey
  exact (keyOf_cross hkey hij).2

theorem peer_of_owned {f : Fleet} {w : Network} {j : ℕ} {c d : Connection} {s : Session Message}
    {x : Hello Message} (hd : w.connections[j]? = some d) (hx : Met f w c s x)
    (ho : f.Owns x.identityKey)
    (hn : x.nonce = .minted j) : s.peerMachine = d.machine ∧ s.peerKey = f.key d.machine := by
  obtain ⟨k, e, he, hmach, hkey, -, hnonce⟩ := hx.minted ho
  obtain rfl : k = j := Random.minted.inj (hnonce.symm.trans hn)
  obtain rfl := Option.some.inj (he.symm.trans hd)
  exact ⟨hx.machine.trans hmach.symm, hx.key.trans hkey.symm⟩

/-- Two machines whose handshakes come to the same keys take each other for what they are exactly
when neither was shown a handshake message under a key of the attacker. -/
theorem agree_iff_owned {f : Fleet} {agents : MachineId → State} {as : List Action} {w : Network}
    {i j : ℕ} {c d : Connection} {s t : Session Message} {x y : Hello Message}
    (h : Run (step f) (Attacked f) (start agents) as w) (hij : i ≠ j)
    (hc : w.connections[i]? = some c) (hd : w.connections[j]? = some d)
    (hs : c.session = some s) (ht : d.session = some t) (hk : SameKeys s t)
    (hcx : c.peerHello = some x) (hdy : d.peerHello = some y) :
    Agree f c d s t ↔ f.Owns x.identityKey ∧ f.Owns y.identityKey := by
  have hi := inv_run h
  have kc := hi.connections i c hc
  have kd := hi.connections j d hd
  obtain ⟨x', hx', hx⟩ := kc.met s hs
  obtain ⟨y', hy', hy⟩ := kd.met t ht
  obtain rfl := Option.some.inj (hcx.symm.trans hx')
  obtain rfl := Option.some.inj (hdy.symm.trans hy')
  obtain ⟨hn, hn'⟩ := crossed_of_sameKeys hij kc kd hx hy hk
  constructor
  · rintro ⟨⟨-, hkey⟩, -, hkey'⟩
    exact ⟨⟨d.machine, kd.member, hkey.symm.trans hx.key⟩,
      c.machine, kc.member, hkey'.symm.trans hy.key⟩
  · rintro ⟨ho, ho'⟩
    exact ⟨peer_of_owned hd hx ho hn, peer_of_owned hc hy ho' hn'⟩

/-! Two machines and an attacker with the identity key 13 between them. -/

def pairOf : Fleet := ⟨{1, 2}, fun m => m + 10⟩

def blank : State := ⟨none, ∅, ∅, ∅⟩

theorem owns_pairOf (k : PubKey) : pairOf.Owns k ↔ k = 11 ∨ k = 12 := by
  simp [Fleet.Owns, pairOf, eq_comm]

/-- The first machine dials and gets the answer of the second. -/
def dialAndAnswer : List Action :=
  [.begin 1 true (some 2), .begin 2 false none,
    .hello 0 (InputShare.begin (pairOf.identity 2) 1).hello]

/-- What the second machine is handed in place of the first one's message: its ephemeral key and
nonce, signed with the attacker's key. -/
def resigned : Hello Message :=
  { protocol := protocolVersion
    machineId := 3
    identityKey := 13
    ephemeral := .minted 0
    nonce := .minted 0
    signature := .signed 13 (.transcript 3 (.minted 0) (.minted 0)) }

theorem sameKeys_swap (salt : Datum Message) (first : Bool) :
    (.derived (.shared s(Random.minted 0, Random.minted 1)) salt first : Bytes Message) =
      .derived (.shared s(Random.minted 1, Random.minted 0)) salt first :=
  congrArg (fun p => Term.derived (.shared p) salt first) Sym2.eq_swap

theorem agree_of_relayed : ∃ w c d s t,
    Run (step pairOf) (Attacked pairOf) (start fun _ => blank)
      (dialAndAnswer ++ [.hello 1 (InputShare.begin (pairOf.identity 1) 0).hello]) w ∧
    w.connections[0]? = some c ∧ w.connections[1]? = some d ∧ c.session = some s ∧
    d.session = some t ∧ Agree pairOf c d s t := by
  have hr : Run (step pairOf) (Attacked pairOf) (start fun _ => blank)
      (dialAndAnswer ++ [.hello 1 (InputShare.begin (pairOf.identity 1) 0).hello]) _ :=
    .cons trivial rfl (.cons trivial rfl (.cons (.known (List.mem_of_getElem? (i := 1) rfl)) rfl
      (.cons (.known (List.mem_of_getElem? (i := 0) rfl)) rfl (.nil _))))
  refine ⟨_, _, _, _, _, hr, rfl, rfl, rfl, rfl, ?_⟩
  refine (agree_iff_owned hr (i := 0) (j := 1) (by decide) rfl rfl rfl rfl ?_ rfl rfl).mpr ⟨?_, ?_⟩
  · exact .inr ⟨sameKeys_swap _ _, sameKeys_swap _ _⟩
  · exact (owns_pairOf 12).mpr (.inr rfl)
  · exact (owns_pairOf 11).mpr (.inl rfl)

/-- The second machine takes every frame of the first for one of the attacker's. -/
theorem misattributed_when_resigned : ∃ w c d s t,
    Run (step pairOf) (Attacked pairOf) (start fun _ => blank)
      (dialAndAnswer ++ [.hello 1 resigned]) w ∧
    w.connections[0]? = some c ∧ w.connections[1]? = some d ∧ c.session = some s ∧
    d.session = some t ∧ SameKeys s t ∧ s.peerMachine = 2 ∧ t.peerMachine = 3 ∧
    ¬ Agree pairOf c d s t := by
  have howned : ¬ pairOf.Owns 13 := fun h => by
    obtain h | h := (owns_pairOf 13).mp h <;> cases h
  have hr : Run (step pairOf) (Attacked pairOf) (start fun _ => blank)
      (dialAndAnswer ++ [.hello 1 resigned]) _ :=
    .cons trivial rfl (.cons trivial rfl (.cons (.known (List.mem_of_getElem? (i := 1) rfl)) rfl
      (.cons (.sign (.known howned) _) rfl (.nil _))))
  refine ⟨_, _, _, _, _, hr, rfl, rfl, rfl, rfl, ?_, rfl, rfl, ?_⟩
  · exact .inr ⟨sameKeys_swap _ _, sameKeys_swap _ _⟩
  · rintro ⟨-, hm, -⟩
    exact absurd hm (by decide)

end Network
end InputShare

import InputShare.Net.Handshake

/-! What an attacker can make a machine do whose keys no machine admits. -/
namespace InputShare
open Symbolic Runs

namespace Network

def Shut (f : Fleet) (w : Network) : Prop :=
  ∀ m ∈ f.machines, ∀ id key, (w.agents m).authorize id key = true → f.Owns key

/-- Everything that arrives could be made by an attacker that is admitted nowhere. -/
def FromOutside (f : Fleet) (w : Network) (a : Action) : Prop := Attacked f w a ∧ Shut f w

/-- What is known of a connection on which something was sealed. -/
structure Admitted (f : Fleet) (c : Connection) : Prop where
  owned : ∀ x ∈ c.admitted, f.Owns x.2
  asked : c.stage = .identifying ∨ c.stage = .established ∨ c.sent ≠ [] →
    ∃ s ∈ c.session, c.admitted = some (s.peerMachine, s.peerKey)

/-- The other end of the very session of `c`: the same two keys, held by the machine and under the
identity key that `c` has authorised. -/
structure OtherEnd (f : Fleet) (c d : Connection) (s t : Session Message) : Prop where
  send : t.send.key = s.receive.key
  receive : t.receive.key = s.send.key
  machine : d.machine = s.peerMachine
  key : f.key d.machine = s.peerKey
  admitted : c.admitted = some (s.peerMachine, s.peerKey)

/-- The message was sealed by the other end of the session, at this position of the stream as the
`u64` counters count it. -/
def Genuine (f : Fleet) (w : Network) (call : Call) : Prop :=
  ∃ (c : Connection) (s : Session Message) (j : ℕ) (d : Connection) (t : Session Message) (p : ℕ),
    w.connections[call.connection]? = some c ∧ c.session = some s ∧
    w.connections[j]? = some d ∧ d.session = some t ∧ OtherEnd f c d s t ∧
    d.sent[p]? = some call.message ∧ p % 18446744073709551616 = call.position % 18446744073709551616

def Mutual (f : Fleet) (w : Network) (i : ℕ) : Prop :=
  ∃ (c : Connection) (s : Session Message) (j : ℕ) (d : Connection) (t : Session Message),
    w.connections[i]? = some c ∧ c.session = some s ∧
    w.connections[j]? = some d ∧ d.session = some t ∧ OtherEnd f c d s t ∧
    d.admitted = some (c.machine, f.key c.machine)

structure Clean (f : Fleet) (w : Network) : Prop where
  inv : Inv f w
  admitted : ∀ (i : ℕ) (c : Connection), w.connections[i]? = some c → Admitted f c
  calls : ∀ call ∈ w.calls, Genuine f w call
  established : ∀ i ∈ w.established, Mutual f w i

section Growth
variable {f : Fleet} {w t : Network}

theorem OtherEnd.mono {c d c' d' : Connection} {s u s' u' : Session Message}
    (h : OtherEnd f c d s u)
    (hc : Grown c c') (hd : Grown d d') (hs : s'.peerMachine = s.peerMachine ∧
      s'.peerKey = s.peerKey ∧ s'.send.key = s.send.key ∧ s'.receive.key = s.receive.key)
    (hu : u'.send.key = u.send.key ∧ u'.receive.key = u.receive.key) :
    OtherEnd f c' d' s' u' := by
  obtain ⟨h₁, h₂, h₃, h₄⟩ := hs
  refine ⟨by rw [hu.1, h₄, h.send], by rw [hu.2, h₃, h.receive], by rw [hd.machine, h₁, h.machine],
    by rw [hd.machine, h₂, h.key], ?_⟩
  rw [hc.admitted _ h.admitted, h₁, h₂]

theorem Genuine.mono (hg : Grew w t) {call : Call} (h : Genuine f w call) : Genuine f t call := by
  obtain ⟨c, s, j, d, u, p, hc, hs, hd, hu, ho, hp, hpos⟩ := h
  obtain ⟨c', hc', hgc⟩ := hg _ c hc
  obtain ⟨d', hd', hgd⟩ := hg j d hd
  obtain ⟨s', hs', hss⟩ := hgc.session s hs
  obtain ⟨u', hu', -, -, huu⟩ := hgd.session u hu
  obtain ⟨ms, hms⟩ := hgd.sent
  refine ⟨c', s', j, d', u', p, hc', hs', hd', hu', ho.mono hgc hgd hss huu, ?_, hpos⟩
  rw [hms, List.getElem?_append_left (List.getElem?_eq_some_iff.mp hp).1, hp]

theorem Mutual.mono (hg : Grew w t) {i : ℕ} (h : Mutual f w i) : Mutual f t i := by
  obtain ⟨c, s, j, d, u, hc, hs, hd, hu, ho, hadm⟩ := h
  obtain ⟨c', hc', hgc⟩ := hg _ c hc
  obtain ⟨d', hd', hgd⟩ := hg j d hd
  obtain ⟨s', hs', hss⟩ := hgc.session s hs
  obtain ⟨u', hu', -, -, huu⟩ := hgd.session u hu
  refine ⟨c', s', j, d', u', hc', hs', hd', hu', ho.mono hgc hgd hss huu, ?_⟩
  rw [hgd.admitted _ hadm, hgc.machine]

end Growth

/-- A frame that opens on an admitted connection was sealed by the other end of its session, which
had admitted this machine. -/
theorem sealed_by_other_end {f : Fleet} {w : Network} {i : ℕ} {c : Connection} {s : Session Message}
    {frame : Bytes Message} {m : Message} {e : Crypto.Direction Message} (h : Clean f w)
    (hc : w.connections[i]? = some c) (hs : c.session = some s)
    (hst : c.stage = .identifying ∨ c.stage = .established)
    (hf : Derives (w.known f) frame) (ho : s.receive.open frame = .ok (m, e)) :
    ∃ (j : ℕ) (d : Connection) (t : Session Message) (p : ℕ), w.connections[j]? = some d ∧
      d.session = some t ∧ OtherEnd f c d s t ∧ d.sent[p]? = some m ∧
      p % 18446744073709551616 = c.received % 18446744073709551616 ∧
      d.admitted = some (c.machine, f.key c.machine) := by
  have kc := h.inv.connections i c hc
  obtain ⟨x, -, hx⟩ := kc.met s hs
  obtain ⟨rfl, -⟩ := Crypto.Direction.open_ok ho
  obtain ⟨s', hs', hadm⟩ := (h.admitted i c hc).asked (by tauto)
  obtain rfl := Option.some.inj (hs.symm.trans hs')
  have hpeer : f.Owns x.identityKey := by
    rw [← hx.key]
    exact (h.admitted i c hc).owned _ hadm
  obtain ⟨k, b, hb, hbm, hbk, heph, hnonce⟩ := hx.minted hpeer
  -- the key is between two honest handshakes, so the frame comes from an honest machine
  have hsafe : ¬ Safe (honest f w) s.receive.key := by
    rw [hx.receive, kc.initiation, Initiation.keyOf, heph]
    exact not_safe_shared ⟨i, rfl⟩ ⟨k, rfl⟩
  obtain ⟨j, d, t, p, m', hd, ht, hkey, hp, hpos, heq⟩ :=
    (safe_of_derives h.inv hf).resolve_left hsafe
  obtain rfl := Datum.message.inj heq
  have kd := h.inv.connections j d hd
  obtain ⟨y, -, hy⟩ := kd.met t ht
  -- this end seals with the other key, so it was the other end
  have hji : j ≠ i := by
    rintro rfl
    obtain rfl := Option.some.inj (hd.symm.trans hc)
    obtain rfl := Option.some.inj (ht.symm.trans hs)
    rw [hx.send, hx.receive] at hkey
    have hside := (keyOf_congr hkey).1
    cases hdial : d.dialled <;> simp [hdial] at hside
  rw [hy.send, hx.receive] at hkey
  obtain ⟨hside, hcongr⟩ := keyOf_congr hkey
  have hother : t.receive.key = s.send.key := by
    rw [hy.receive, hx.send, hcongr, hside, Bool.not_not]
  have hcross := crossed_of_sameKeys (Ne.symm hji) kc kd hx hy
    (.inr ⟨hother.symm, by rw [hx.receive, hy.send, hkey]⟩)
  obtain rfl : k = j := Random.minted.inj (hnonce.symm.trans hcross.1)
  obtain rfl := Option.some.inj (hb.symm.trans hd)
  have hend : OtherEnd f c b s t :=
    ⟨by rw [hy.send, hx.receive, hkey], hother, hbm.trans hx.machine.symm,
      hbk.trans hx.key.symm, hadm⟩
  refine ⟨k, b, t, p, hb, ht, hend, hp, ?_, ?_⟩
  · rw [hpos, kc.receiving s hs]
  · -- what it sealed, it sealed for a machine it had admitted
    have hsent : b.sent ≠ [] := fun hnil => by simp [hnil] at hp
    obtain ⟨t', ht', hadm'⟩ := (h.admitted k b hb).asked (.inr (.inr hsent))
    obtain rfl := Option.some.inj (ht.symm.trans ht')
    have howned : f.Owns y.identityKey := by
      rw [← hy.key]
      exact (h.admitted k b hb).owned _ hadm'
    obtain ⟨hm, hk⟩ := peer_of_owned hc hy howned hcross.2
    rw [hadm', hm, hk]

theorem Admitted.turn {f : Fleet} {c d : Connection} (h : Admitted f c)
    (hst : c.stage = .identifying ∨ c.stage = .established) (hg : Grown c d)
    (hd : d.admitted = c.admitted) : Admitted f d := by
  refine ⟨fun x hx => h.owned x (hd ▸ hx), fun _ => ?_⟩
  obtain ⟨s, hs, hadm⟩ := h.asked (by tauto)
  obtain ⟨t, ht, hm, hk, -⟩ := hg.session s hs
  exact ⟨t, ht, by rw [hd, hadm, hm, hk]⟩

theorem admitted_set {f : Fleet} {w t : Network} {i : ℕ} {d : Connection} (h : Clean f w)
    (ht : t.connections = w.connections.set i d) (hd : Admitted f d) (j : ℕ) (e : Connection)
    (he : t.connections[j]? = some e) : Admitted f e := by
  rw [ht] at he
  obtain ⟨-, rfl⟩ | he := get_set he
  · exact hd
  · exact h.admitted j e he

theorem Clean.admitted_step {f : Fleet} {w t : Network} {a : Action} (h : Clean f w)
    (hok : FromOutside f w a) (hstep : step f w a = some t) (j : ℕ) (e : Connection)
    (he : t.connections[j]? = some e) : Admitted f e := by
  cases stepped hstep with
  | «begin» hm =>
    by_cases hj : j < w.connections.length
    · rw [List.getElem?_append_left hj] at he
      exact h.admitted j e he
    · obtain ⟨hlt, rfl⟩ := List.getElem?_eq_some_iff.mp he
      rw [List.getElem_append_right (by omega)]
      simp only [List.getElem_singleton]
      exact ⟨by simp, by simp⟩
  | @closed _ i c hc =>
    have k := h.admitted i c hc
    refine admitted_set h (d := { c with stage := .closed }) rfl ⟨k.owned, fun hs => ?_⟩ j e he
    exact k.asked (.inr (.inr (by simpa using hs)))
  | hello hc hb hs hst hst' =>
    have k := h.inv.connections _ _ hc
    refine admitted_set h rfl ⟨by simp [k.unasked (.inl hb)], fun hs' => ?_⟩ j e he
    simp [hst', (k.idle (k.fresh hb)).1] at hs'
  | authorise hc hs hb ha =>
    refine admitted_set h rfl ⟨?_, fun _ => ⟨_, rfl, rfl⟩⟩ j e he
    intro x hx
    obtain rfl := Option.some.inj hx
    exact hok.2 _ (h.inv.connections _ _ hc).member _ _ ha
  | established hc hs hb ho =>
    exact admitted_set h rfl ((h.admitted _ _ hc).turn (.inl hb) (grown_opened hs ho _) rfl) j e he
  | parted hc hs hb ho =>
    exact admitted_set h rfl ((h.admitted _ _ hc).turn (.inl hb)
      ((grown_opened hs ho _).sealed rfl _) rfl) j e he
  | read hc hs hb ho =>
    exact admitted_set h rfl ((h.admitted _ _ hc).turn (.inr hb) (grown_opened hs ho _) rfl) j e he
  | ended hc hs hb ho =>
    exact admitted_set h rfl ((h.admitted _ _ hc).turn hb (grown_opened hs ho _) rfl) j e he
  | write hc hs hb =>
    exact admitted_set h rfl ((h.admitted _ _ hc).turn (.inr hb) ((Grown.refl _).sealed hs _) rfl)
      j e he
  | agent => exact h.admitted j e he

theorem Clean.step {f : Fleet} {w t : Network} {a : Action} (h : Clean f w)
    (hok : FromOutside f w a) (hstep : step f w a = some t) : Clean f t := by
  have hg := h.inv.grew hstep
  refine ⟨h.inv.step hok.1 hstep, h.admitted_step hok hstep, ?_, ?_⟩
  · cases stepped hstep with
    | @read i c s frame m e hc hs hb ho =>
      intro call hcall
      obtain hcall | hcall := List.mem_append.mp hcall
      · exact (h.calls call hcall).mono hg
      · have hm : call = ⟨i, c.received, m⟩ := by
          split_ifs at hcall
          · exact List.mem_singleton.mp hcall
          · cases hcall
        subst hm
        obtain ⟨j, d, u, p, hd, hu, hend, hp, hpos, -⟩ :=
          sealed_by_other_end h hc hs (.inr hb) hok.1 ho
        exact Genuine.mono hg ⟨c, s, j, d, u, p, hc, hs, hd, hu, hend, hp, hpos⟩
    | _ => exact fun call hcall => (h.calls call hcall).mono hg
  · cases stepped hstep with
    | @established i c s frame m e hc hs hb ho =>
      intro k hk
      obtain hk | hk := List.mem_append.mp hk
      · exact (h.established k hk).mono hg
      · obtain rfl := List.mem_singleton.mp hk
        obtain ⟨j, d, u, p, hd, hu, hend, -, -, hadm⟩ :=
          sealed_by_other_end h hc hs (.inl hb) hok.1 ho
        exact Mutual.mono hg ⟨c, s, j, d, u, hc, hs, hd, hu, hend, hadm⟩
    | _ => exact fun k hk => (h.established k hk).mono hg

/-- An attacker that is admitted nowhere can pass on what machines that admitted each other send,
in order, and nothing else. -/
theorem nothing_from_outside {f : Fleet} {agents : MachineId → State} {as : List Action}
    {w : Network} (h : Run (step f) (FromOutside f) (start agents) as w) :
    (∀ call ∈ w.calls, Genuine f w call) ∧ ∀ i ∈ w.established, Mutual f w i := by
  have hstart : Clean f (start agents) :=
    ⟨inv_start f agents, fun i c hc => by simp [start] at hc, fun _ hc => by simp [start] at hc,
      fun _ hi => by simp [start] at hi⟩
  have hi := h.invariant (I := Clean f) (fun _ _ _ hi hok hs => hi.step hok hs) hstart
  exact ⟨hi.calls, hi.established⟩

/-! Two machines that were told to join each other, and an attacker that passes everything on. -/

def trusting (m : MachineId) : State :=
  match m with
  | 1 => { blank with pendingTrust := (∅ : Std.ExtTreeMap MachineId PubKey).insert 2 12 }
  | 2 => { blank with pendingTrust := (∅ : Std.ExtTreeMap MachineId PubKey).insert 1 11 }
  | _ => blank

theorem shut_trusting {w : Network} (h : w.agents = trusting) : Shut pairOf w := by
  intro m hm id key ha
  rw [h] at ha
  have hm' : m = 1 ∨ m = 2 := by simpa [pairOf] using hm
  rw [owns_pairOf]
  obtain rfl | rfl := hm'
  · right
    simp [trusting, blank, State.authorize, State.machine, Std.ExtTreeMap.getElem?_insert] at ha
    exact ha.2.symm
  · left
    simp [trusting, blank, State.authorize, State.machine, Std.ExtTreeMap.getElem?_insert] at ha
    exact ha.2.symm

def dialler : Initiation Message := InputShare.begin (pairOf.identity 1) 0
def answerer : Initiation Message := InputShare.begin (pairOf.identity 2) 1

/-- The `n`th frame of one of them. -/
def frameOf (x : Initiation Message) (h : Hello Message) (dialled : Bool) (n : ℕ)
    (m : Message) : Bytes Message :=
  .sealed (x.keyOf h dialled dialled) n (.message m)

def passedOn : List Action :=
  [.begin 1 true (some 2), .begin 2 false none, .hello 0 answerer.hello, .hello 1 dialler.hello,
    .authorise 0 "Desk", .authorise 1 "Loft",
    .frame 0 (frameOf answerer dialler.hello false 0 (identify (trusting 2) 2 "Loft")),
    .frame 1 (frameOf dialler answerer.hello true 0 (identify (trusting 1) 1 "Desk")),
    .write 0 (.cursorOwner 1),
    .frame 1 (frameOf dialler answerer.hello true 1 (.cursorOwner 1))]

theorem genuine_when_passed_on : ∃ w,
    Run (step pairOf) (FromOutside pairOf) (start trusting) passedOn w ∧
    Genuine pairOf w ⟨1, 1, .cursorOwner 1⟩ ∧ Mutual pairOf w 0 ∧ Mutual pairOf w 1 := by
  have hr : Run (step pairOf) (FromOutside pairOf) (start trusting) passedOn _ :=
    .cons ⟨trivial, shut_trusting rfl⟩ rfl <| .cons ⟨trivial, shut_trusting rfl⟩ rfl <|
    .cons ⟨.known (List.mem_of_getElem? (i := 1) rfl), shut_trusting rfl⟩ rfl <|
    .cons ⟨.known (List.mem_of_getElem? (i := 0) rfl), shut_trusting rfl⟩ rfl <|
    .cons ⟨trivial, shut_trusting rfl⟩ rfl <| .cons ⟨trivial, shut_trusting rfl⟩ rfl <|
    .cons ⟨.known (List.mem_of_getElem? (i := 3) rfl), shut_trusting rfl⟩ rfl <|
    .cons ⟨.known (List.mem_of_getElem? (i := 2) rfl), shut_trusting rfl⟩ rfl <|
    .cons ⟨trivial, shut_trusting rfl⟩ rfl <|
    .cons ⟨.known (List.mem_of_getElem? (i := 4) rfl), shut_trusting rfl⟩ rfl <| .nil _
  obtain ⟨hcalls, hest⟩ := nothing_from_outside hr
  exact ⟨_, hr, hcalls _ (List.mem_of_getElem? (i := 0) rfl),
    hest _ (List.mem_of_getElem? (i := 0) rfl), hest _ (List.mem_of_getElem? (i := 1) rfl)⟩

end Network
end InputShare

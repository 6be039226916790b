import InputShare.Net.Dialling

/-! Whom a tick has to dial. -/
namespace InputShare.Dialling
open Runs Retries

def lastSighting (id : MachineId) (log : List (ℕ × Note)) : Option (ℕ × String) :=
  log.findSome? fun e => (addrOf id e.2).map fun addr => (e.1, addr)

def cap (_ : ℕ) : ℕ := 30000

theorem backoff_le_cap (n : ℕ) : Actor.backoff n ≤ 30000 := min_le_right _ _

/-- Whatever the slot of a machine has to hold for it to be dialled in time. -/
structure Eager (id : MachineId) (now : ℕ) (log : List (ℕ × Note)) (slot : PeerSlot) : Prop where
  addr : ∀ t addr, lastSighting id log = some (t, addr) → now < t + PeerSlot.hintTtl →
    slot.addr = some addr
  idle : busy (tried id log) = false → slot.status = .offline
  due : busy (tried id log) = false → slot.nextAttempt ≤ max now (notBefore cap (tried id log))

def Held (id : MachineId) (now : ℕ) (log : List (ℕ × Note)) : Option PeerSlot → Prop
  | some slot => Eager id now log slot
  | none => lastSighting id log = none ∧ busy (tried id log) = false

section Held
variable {id : MachineId} {now : ℕ} {log new : List (ℕ × Note)} {slot s : PeerSlot}
  {o : Option PeerSlot} {ns : List Note}

theorem lastSighting_append (h : ∀ e ∈ new, addrOf id e.2 = none) :
    lastSighting id (new ++ log) = lastSighting id log := by
  have hnone : new.findSome? (fun e => (addrOf id e.2).map fun addr => (e.1, addr)) = none := by
    rw [List.findSome?_eq_none_iff]
    intro e he
    rw [h e he, Option.map_none]
  rw [lastSighting, List.findSome?_append, hnone, Option.none_or]
  rfl

theorem exists_lastContact (ho : log.Pairwise fun a b => b.1 ≤ a.1) {t : ℕ} {addr : String}
    (h : lastSighting id log = some (t, addr)) : ∃ c, lastContact id log = some c ∧ t ≤ c := by
  induction log with
  | nil => simp [lastSighting] at h
  | cons e log ih =>
    obtain ⟨hfirst, hrest⟩ := List.pairwise_cons.mp ho
    by_cases hc : contacts id e.2 = true
    · refine ⟨e.1, by simp [lastContact, hc], ?_⟩
      obtain ⟨e', he', heq⟩ := List.exists_of_findSome?_eq_some h
      obtain ⟨addr', -, hpair⟩ := Option.map_eq_some_iff.mp heq
      obtain ⟨rfl, -⟩ := Prod.mk.inj hpair
      obtain rfl | he' := List.mem_cons.mp he'
      · exact le_rfl
      · exact hfirst e' he'
    · have hnone : addrOf id e.2 = none := by
        cases hn : e.2 with
        | sighted i a => simpa [hn, contacts, addrOf] using hc
        | _ => rfl
      have hlast : lastSighting id log = some (t, addr) := by
        simpa [lastSighting, hnone] using h
      obtain ⟨c, hcontact, hle⟩ := ih hrest hlast
      exact ⟨c, by simpa [lastContact, hc] using hcontact, hle⟩

theorem Eager.congr (h : Eager id now log slot) (haddr : s.addr = slot.addr)
    (hstatus : s.status = slot.status) (hnext : s.nextAttempt = slot.nextAttempt) :
    Eager id now log s :=
  ⟨by rw [haddr]; exact h.addr, by rw [hstatus]; exact h.idle, by rw [hnext]; exact h.due⟩

theorem Held.foreign (h : Held id now log o) (hns : ∀ n ∈ ns, Foreign id n) :
    Held id now (ns.map (now, ·) ++ log) o := by
  have hforeign : ∀ e ∈ ns.map (now, ·), Foreign id e.2 := by
    intro e he
    obtain ⟨n, hn, rfl⟩ := List.mem_map.mp he
    exact hns n hn
  have hlast : lastSighting id (ns.map (now, ·) ++ log) = lastSighting id log :=
    lastSighting_append fun e he => (hforeign e he).addr
  have hdue : notBefore cap (tried id (ns.map (now, ·) ++ log)) = notBefore cap (tried id log) := by
    rw [tried_append]
    refine notBefore_append fun e he => .inr ?_
    obtain ⟨x, hx, rfl⟩ := mem_tried he
    exact (hforeign x hx).mark
  cases o with
  | some slot =>
    refine ⟨?_, ?_, ?_⟩
    · rw [hlast]
      exact h.addr
    · rw [busy_foreign hns]
      exact h.idle
    · rw [busy_foreign hns, hdue]
      exact h.due
  | none =>
    constructor
    · rw [hlast]
      exact h.1
    · rw [busy_foreign hns]
      exact h.2

theorem Held.later (h : Held id now log o) {later : ℕ} (hle : now ≤ later) :
    Held id later log o := by
  cases o with
  | some slot =>
    refine ⟨fun t addr hs hfresh => h.addr t addr hs (lt_of_le_of_lt hle hfresh), h.idle,
      fun hidle => le_trans (h.due hidle) (max_le_max_right _ hle)⟩
  | none => exact h

end Held

section Handled
variable {a : Actor} {id : MachineId} {now : ℕ} {log : List (ℕ × Note)}

theorem Held.sighting (h : Held id now log a.peers[id]?) (agent : State) (s : Sighting) :
    Held id now ((notes a agent now (.sighting s)).map (now, ·) ++ log)
      (a.onSighting (agent.authorize s.machineId s.identityKey) now s).1.peers[id]? := by
  by_cases hme : s.machineId = a.me
  · simpa [notes, hme, Actor.onSighting] using h
  cases hauth : agent.authorize s.machineId s.identityKey with
  | false => simpa [notes, hme, hauth, Actor.onSighting] using h
  | true =>
    rw [onSighting_peers hme]
    by_cases hid : s.machineId = id
    · obtain rfl := hid
      simp only [Std.ExtTreeMap.getElem?_insert_self]
      have hidle : busy (tried s.machineId log) = false →
          ((a.peers[s.machineId]?).getD (.new s.displayName now)).status = .offline := by
        intro hbusy
        cases hold : a.peers[s.machineId]? with
        | none => rfl
        | some old =>
          rw [hold] at h
          exact h.idle hbusy
      cases hr : renews a now s with
      | true =>
        have hnotes : notes a agent now (.sighting s) =
            [.renewed s.machineId, .sighted s.machineId s.addr] := by simp [notes, hme, hauth, hr]
        rw [hnotes]
        refine ⟨?_, ?_, ?_⟩
        · simp [heard, lastSighting, addrOf]
        · simpa [heard, tried, mark, busy] using hidle
        · simp [heard]
      | false =>
        obtain ⟨old, hold⟩ : ∃ old, a.peers[s.machineId]? = some old := by
          cases hold : a.peers[s.machineId]? with
          | none => simp [renews, hold] at hr
          | some old => exact ⟨old, rfl⟩
        have hnotes : notes a agent now (.sighting s) = [.sighted s.machineId s.addr] := by
          simp [notes, hme, hauth, hr]
        rw [hold] at h
        rw [hnotes, hold, Option.getD_some]
        refine ⟨?_, ?_, ?_⟩
        · simp [heard, lastSighting, addrOf]
        · simpa [heard, tried, mark, busy] using h.idle
        · simpa [heard, tried, mark, busy, notBefore] using h.due
    · simp only [Std.ExtTreeMap.getElem?_insert, compare_eq_iff_eq, if_neg hid]
      refine h.foreign fun n hn => ?_
      simp only [notes, hme, hauth, Bool.true_eq_false, or_self, if_false] at hn
      split at hn <;> simp only [List.mem_cons, List.not_mem_nil, or_false] at hn
      · obtain rfl | rfl := hn
        · exact ⟨by simp [mark, hid], rfl, rfl⟩
        · exact ⟨rfl, by simp [addrOf, hid], by simp [contacts, hid]⟩
      · obtain rfl := hn
        exact ⟨rfl, by simp [addrOf, hid], by simp [contacts, hid]⟩

/-- A session with a machine has ended, or was refused: it is waited for as long as ever at most. -/
theorem Held.ended (h : Held id now log a.peers[id]?) {p : MachineId} {n : Note}
    {f : PeerSlot → PeerSlot} (hn : ∀ i, p ≠ i → Foreign i n) (haddr : addrOf p n = none)
    (hbusy : busy ((now, mark p n) :: tried p log) = false)
    (hf : ∀ slot, (f slot).addr = slot.addr ∧ (f slot).status = .offline ∧
      (f slot).nextAttempt ≤ now + 30000)
    (hdue : now + 30000 ≤ notBefore cap ((now, mark p n) :: tried p log)) :
    Held id now ((now, n) :: log) (match a.peers[p]? with
      | some slot => a.peers.insert p (f slot)
      | none => a.peers)[id]? := by
  have hlast : lastSighting p ((now, n) :: log) = lastSighting p log := by
    simp [lastSighting, haddr]
  by_cases hid : p = id
  · obtain rfl := hid
    cases hold : a.peers[p]? with
    | none =>
      rw [hold] at h
      simp only [hold]
      exact ⟨hlast.trans h.1, hbusy⟩
    | some old =>
      rw [hold] at h
      simp only [Std.ExtTreeMap.getElem?_insert_self]
      obtain ⟨hkept, hoff, hnext⟩ := hf old
      refine ⟨?_, fun _ => hoff, fun _ => le_max_of_le_right (le_trans hnext hdue)⟩
      rw [hlast, hkept]
      exact h.addr
  · have hkept : (match a.peers[p]? with
        | some slot => a.peers.insert p (f slot)
        | none => a.peers)[id]? = a.peers[id]? := by
      cases a.peers[p]? with
      | none => rfl
      | some old => simp only [Std.ExtTreeMap.getElem?_insert, compare_eq_iff_eq, if_neg hid]
    rw [hkept]
    exact h.foreign fun x hx => List.mem_singleton.mp hx ▸ hn id hid

theorem Held.session (h : Held id now log a.peers[id]?) (agent : State) (i : ℕ)
    (o : SessionOutcome) :
    Held id now ((notes a agent now (.session i o)).map (now, ·) ++ log)
      (a.onSession now o).1.peers[id]? := by
  cases o with
  | established p name n =>
    simp only [Actor.onSession, notes, Std.ExtTreeMap.getElem?_insert, compare_eq_iff_eq]
    split
    · rename_i hid
      obtain rfl := hid
      have hbusy : busy (tried p ([Note.established p].map (now, ·) ++ log)) = true := by
        simp [tried, mark, busy]
      refine ⟨fun t addr hs hfresh => ?_, fun hidle => ?_, fun hidle => ?_⟩
      · rw [lastSighting_append (by simp [addrOf])] at hs
        cases hold : a.peers[p]? with
        | none =>
          rw [hold] at h
          rw [h.1] at hs
          cases hs
        | some old =>
          rw [hold] at h
          exact h.addr t addr hs hfresh
      · rw [hbusy] at hidle
        cases hidle
      · rw [hbusy] at hidle
        cases hidle
    · rename_i hid
      refine h.foreign fun x hx => ?_
      obtain rfl := List.mem_singleton.mp hx
      exact ⟨by simp [mark, hid], rfl, by simp [contacts, hid]⟩
  | closed p reason =>
    refine h.ended (fun i hid => ⟨by simp [mark, hid], rfl, rfl⟩) rfl (by simp [mark, busy])
      (fun slot => ⟨rfl, rfl, ?_⟩) (by simp [mark, notBefore, cap])
    exact Nat.add_le_add_left (backoff_le_cap _) now
  | differentWorkspaces p name key theirs size =>
    exact h.ended (fun i hid => ⟨by simp [mark, hid], rfl, rfl⟩) rfl (by simp [mark, busy])
      (fun slot => ⟨rfl, rfl, le_rfl⟩) (by simp [mark, notBefore, cap])
  | rejected p key addr => exact h
  | workspaceChanged => exact h

theorem Held.keepUp {o : Option PeerSlot} (h : Held id now log o) :
    Held id now log (o.map a.keepUp) := by
  cases o with
  | none => exact h
  | some slot =>
    have hkept : (a.keepUp slot).addr = slot.addr ∧ (a.keepUp slot).status = slot.status ∧
        (a.keepUp slot).nextAttempt = slot.nextAttempt := by
      unfold Actor.keepUp
      split <;> exact ⟨rfl, rfl, rfl⟩
    exact h.congr hkept.1 hkept.2.1 hkept.2.2

theorem Held.rescan (h : Held id now log a.peers[id]?) :
    Held id now ((now, .rescanned) :: log) (a.onRescan now).peers[id]? := by
  simp only [Actor.onRescan, Std.ExtTreeMap.getElem?_map]
  cases hold : a.peers[id]? with
  | none =>
    rw [hold] at h
    exact h
  | some slot =>
    rw [hold] at h
    have hidle : busy (tried id log) = false → slot.status = .offline := h.idle
    refine ⟨fun t addr hs hfresh => ?_, fun hbusy => ?_, fun hbusy => ?_⟩
    · rw [← h.addr t addr hs hfresh]
      dsimp only
      split <;> rfl
    · dsimp only
      rw [if_pos (hidle hbusy)]
      exact hidle hbusy
    · dsimp only
      rw [if_pos (hidle hbusy)]
      exact le_max_left _ _

theorem mem_dials_iff {addr : String} : (id, addr) ∈ (a.onTick now).2 ↔
    ∃ slot, a.peers[id]? = some slot ∧ a.due now id slot = some addr := by
  simp only [Actor.onTick, List.mem_filterMap, Option.map_eq_some_iff, Prod.exists]
  constructor
  · rintro ⟨p, slot, hmem, addr', hdue, hpair⟩
    obtain ⟨rfl, rfl⟩ := Prod.mk.inj hpair
    exact ⟨slot, Std.ExtTreeMap.mem_toList_iff_getElem?_eq_some.mp hmem, hdue⟩
  · rintro ⟨slot, hslot, hdue⟩
    exact ⟨id, slot, Std.ExtTreeMap.mem_toList_iff_getElem?_eq_some.mpr hslot, addr, hdue, rfl⟩

theorem busy_dials {addr : String} (hd : (id, addr) ∈ (a.onTick now).2) :
    busy (tried id ((dialNotes (a.onTick now).2).map (now, ·) ++ log)) = true := by
  generalize (a.onTick now).2 = dials at hd
  induction dials with
  | nil => cases hd
  | cons d dials ih =>
    obtain rfl | hd := List.mem_cons.mp hd
    · simp [dialNotes, tried, mark, busy]
    · by_cases hid : d.1 = id
      · simp [dialNotes, tried, mark, busy, hid]
      · simpa [dialNotes, tried, mark, busy, hid] using ih hd

theorem Held.tick (hs : Slots a log) (ho : log.Pairwise fun a b => b.1 ≤ a.1)
    (h : Held id now log a.peers[id]?) :
    Held id now ((dialNotes (a.onTick now).2).map (now, ·) ++ log)
      (a.onTick now).1.peers[id]? := by
  by_cases hdialled : ∃ addr, (id, addr) ∈ (a.onTick now).2
  · obtain ⟨addr, hd⟩ := hdialled
    have hbusy : busy (tried id ((dialNotes (a.onTick now).2).map (now, ·) ++ log)) = true :=
      busy_dials hd
    obtain ⟨slot, hslot, hdue⟩ := mem_dials_iff.mp hd
    simp only [Actor.onTick, Std.ExtTreeMap.getElem?_map, hslot, Option.map_some, hdue,
      Option.isSome_some, if_true]
    rw [hslot] at h
    refine ⟨fun t addr hlast hfresh => ?_, fun hidle => ?_, fun hidle => ?_⟩
    · rw [lastSighting_append fun e he => ?_] at hlast
      · exact h.addr t addr hlast hfresh
      · obtain ⟨d, -, rfl⟩ := mem_dialNotes he
        rfl
    · exact absurd (hbusy.symm.trans hidle) (by simp)
    · exact absurd (hbusy.symm.trans hidle) (by simp)
  · refine Held.foreign ?_ (foreign_dialNotes fun d hd hid => hdialled ⟨d.2, by rwa [← hid]⟩)
    simp only [Actor.onTick, Std.ExtTreeMap.getElem?_map]
    cases hold : a.peers[id]? with
    | none =>
      rw [hold] at h
      exact h
    | some slot =>
      rw [hold] at h
      have hdue : a.due now id slot = none := by
        rw [Option.eq_none_iff_forall_ne_some]
        exact fun addr hdue => hdialled ⟨addr, mem_dials_iff.mpr ⟨slot, hold, hdue⟩⟩
      rw [Option.map_some, hdue, Option.isSome_none, if_neg Bool.false_ne_true]
      split
      · -- the address is forgotten only after a silence
        rename_i hstale
        refine ⟨fun t addr hlast hfresh => ?_, h.idle, h.due⟩
        obtain ⟨c, hcontact, hle⟩ := exists_lastContact ho hlast
        have hseen : slot.lastSeen = some c := (hs.tracked id slot hold).seen.trans hcontact
        have hsilent := hstale.2
        simp only [PeerSlot.fresh, hseen, decide_eq_false_iff_not, not_lt] at hsilent
        simp only [PeerSlot.hintTtl] at hfresh hsilent
        omega
      · exact h

end Handled

theorem Held.handle {w : World} (hw : Inv w) {id : MachineId}
    (h : Held id w.now w.log w.actor.peers[id]?) (m : Internal) (agent : State) :
    Held id w.now ((dialNotes (w.actor.handle agent w.now m).2.2 ++
      notes w.actor agent w.now m).map (w.now, ·) ++ w.log)
      (w.actor.handle agent w.now m).1.peers[id]? := by
  cases m with
  | sighting s => exact h.sighting agent s
  | session i o => exact h.session agent i o
  | broadcast k u =>
    simp only [Actor.handle, Actor.onBroadcast, Std.ExtTreeMap.getElem?_map]
    exact h.keepUp
  | sendInput dest events =>
    simp only [Actor.handle, Actor.onSendInput, Std.ExtTreeMap.getElem?_modify]
    split
    · rename_i hid
      rw [compare_eq_iff_eq] at hid
      subst hid
      exact h.keepUp
    · exact h
  | announceCursorOwner machine => exact h
  | rescan => exact h.rescan
  | tick =>
    simp only [notes, List.append_nil]
    exact h.tick hw.slots hw.ordered

theorem held_run {me : MachineId} {now : ℕ} {as : List Action} {w : World}
    (h : Run step Any (start me now) as w) (id : MachineId) :
    Held id w.now w.log w.actor.peers[id]? := by
  suffices hboth : Inv w ∧ Held id w.now w.log w.actor.peers[id]? from hboth.2
  refine h.invariant (I := fun w => Inv w ∧ Held id w.now w.log w.actor.peers[id]?)
    (fun w act v hw _ hs => ⟨hw.1.step hs, ?_⟩) ⟨(inv_run (.nil _)).1, ?_⟩
  · cases act with
    | handle m agent =>
      obtain rfl := Option.some.inj hs
      exact hw.2.handle hw.1 m agent
    | elapse ms =>
      obtain rfl := Option.some.inj hs
      exact hw.2.later (Nat.le_add_right _ _)
  · simp [start, Held, lastSighting, tried, busy]

/-- Whatever has happened: a machine with a higher id that has announced itself within the time for
which an address is believed is dialled there by the next tick, if the last dial of it and the
session that it led to are over (they were closed, or ended for a mismatch of the workspaces) and a
failure with it lies back at least the longest wait. A dial that was rejected is not over. -/
theorem dials_resume {me id : MachineId} {now t : ℕ} {as : List Action} {w v : World}
    {addr : String} {agent : State} (h : Run step Any (start me now) as w) (hlower : me < id)
    (hidle : busy (tried id w.log) = false) (hlast : lastSighting id w.log = some (t, addr))
    (hfresh : w.now < t + PeerSlot.hintTtl) (hdue : notBefore cap (tried id w.log) ≤ w.now)
    (hs : step w (.handle .tick agent) = some v) : (w.now, .dialled id addr) ∈ v.log := by
  obtain ⟨hinv, hme⟩ := inv_run h
  have hheld := held_run h id
  obtain rfl := Option.some.inj hs
  cases hslot : w.actor.peers[id]? with
  | none =>
    rw [hslot] at hheld
    rw [hheld.1] at hlast
    cases hlast
  | some slot =>
    rw [hslot] at hheld
    have haddr : slot.addr = some addr := hheld.addr t addr hlast hfresh
    have hnext : slot.nextAttempt ≤ w.now := le_trans (hheld.due hidle) (max_le le_rfl hdue)
    have hheard : slot.fresh w.now = true := by
      obtain ⟨c, hcontact, hle⟩ := exists_lastContact hinv.ordered hlast
      have hseen : slot.lastSeen = some c := (hinv.slots.tracked id slot hslot).seen.trans hcontact
      simp only [PeerSlot.fresh, hseen, decide_eq_true_eq]
      simp only [PeerSlot.hintTtl] at hfresh ⊢
      omega
    have hdial : (id, addr) ∈ (w.actor.onTick w.now).2 :=
      mem_dials_iff.mpr ⟨slot, hslot, due_iff.mpr
        ⟨⟨hheld.idle hidle, hme ▸ hlower, hheard, hnext⟩, haddr⟩⟩
    refine List.mem_append_left _ (List.mem_map_of_mem (List.mem_append_left _ ?_))
    exact List.mem_map_of_mem (f := fun d : MachineId × String => Note.dialled d.1 d.2) hdial

/-- The laptop goes on announcing itself after connecting to it has failed. -/
theorem dials_resume_announced : ∃ w v,
    Run step Any (start 1 0) (redialled.take 4 ++ [.elapse 15000,
      .handle (.sighting ⟨2, "Laptop", 12, some 7, [], "10.0.0.3"⟩) (.ofDoc together),
      .elapse 15500]) w ∧
    step w (.handle .tick (.ofDoc together)) = some v ∧
    (31000, .dialled 2 "10.0.0.3") ∈ v.log := by
  obtain ⟨w, hrun, hw⟩ := run_of_replay step Any (start 1 0)
    (redialled.take 4 ++ [.elapse 15000,
      .handle (.sighting ⟨2, "Laptop", 12, some 7, [], "10.0.0.3"⟩) (.ofDoc together),
      .elapse 15500]) (fun w => (w.now, w.log))
    (b := (31000, [(15500, .sighted 2 "10.0.0.3"), (500, .closed 2), (0, .dialled 2 "10.0.0.2"),
      (0, .renewed 2), (0, .sighted 2 "10.0.0.2")])) (by decide +kernel)
  obtain ⟨hnow, hlog⟩ := Prod.mk.inj hw
  refine ⟨w, _, hrun, rfl, ?_⟩
  rw [← hnow]
  refine dials_resume hrun (t := 15500) (by decide) ?_ ?_ ?_ ?_ rfl
  · rw [hlog]
    rfl
  · rw [hlog]
    rfl
  · rw [hnow]
    decide
  · rw [hnow, hlog]
    decide

end InputShare.Dialling

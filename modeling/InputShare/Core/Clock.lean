import InputShare.Core.Merging

/-! Where the clock of a document stands against the stamps in it, as updates and documents
arrive. `apply` observes the stamp it takes in; `merge` observes the clock of the other document
and the stamps of its slots, but not the stamps of its name and of its settings, and nothing
bounds what arrives. -/
namespace InputShare
open LastWriter

/-- What a peer sends: one change, or the whole document. -/
inductive Incoming where
  | update (u : WorkspaceUpdate)
  | document (other : WorkspaceDoc)

def Incoming.workspaceId : Incoming → WorkspaceId
  | .update u => u.workspaceId
  | .document other => other.workspaceId

namespace WorkspaceDoc

/-- The document after `apply` or `merge`, unchanged where that returns an error. -/
def receive (d : WorkspaceDoc) : Incoming → WorkspaceDoc
  | .update u =>
    match d.apply u with
    | .ok (e, _) => e
    | .error _ => d
  | .document other =>
    match d.merge other with
    | .ok (e, _) => e
    | .error _ => d

def receiveAll (d : WorkspaceDoc) (arrivals : List Incoming) : WorkspaceDoc :=
  arrivals.foldl receive d

/-- The clock is past every stamp in the document, and the next local edit is stamped past the
clock and past every stamp. -/
def SortsAfter (d : WorkspaceDoc) : Prop :=
  d.Clocked ∧ ∀ origin now, d.lamport < (d.tick origin now).2.lamport ∧
    d.name.stamp.key < (d.tick origin now).2.key ∧
    d.settings.stamp.key < (d.tick origin now).2.key ∧
    ∀ (id : MachineId) (s : MachineSlot), d.machines[id]? = some s →
      s.stamp.key < (d.tick origin now).2.key

def observed (other : WorkspaceDoc) : List ℕ :=
  other.lamport :: other.machines.toList.map (·.2.stamp.lamport)

/-- What arrives leaves room for one more tick, and a document's name and settings are stamped no
later than a clock that is known or observed with it. -/
def Orderly (d : WorkspaceDoc) : Incoming → Prop
  | .update u => u.stamp.lamport + 1 < u64Size
  | .document other =>
    (∀ n ∈ other.observed, n + 1 < u64Size) ∧
      (∃ n ∈ d.lamport :: other.observed, other.name.stamp.lamport ≤ n) ∧
      ∃ n ∈ d.lamport :: other.observed, other.settings.stamp.lamport ≤ n

theorem key_lt_of_lamport_lt {s t : Stamp} (h : s.lamport < t.lamport) : s.key < t.key :=
  Prod.Lex.toLex_lt_toLex.mpr (Or.inl h)

theorem lamport_lt_tick_iff (d : WorkspaceDoc) (origin : MachineId) (now : ℕ) :
    d.lamport < (d.tick origin now).2.lamport ↔ d.lamport + 1 < u64Size := by
  rw [tick_lamport]
  unfold u64Size
  omega

/-- All there is to check is the clock: against the stamps, and against the end of its range. -/
theorem sortsAfter_iff {d : WorkspaceDoc} : d.SortsAfter ↔ d.Clocked ∧ d.lamport + 1 < u64Size := by
  constructor
  · intro h
    exact ⟨h.1, (d.lamport_lt_tick_iff 0 0).mp (h.2 0 0).1⟩
  · intro h
    obtain ⟨hc, hroom⟩ := h
    refine ⟨hc, fun origin now => ?_⟩
    have htick := (d.lamport_lt_tick_iff origin now).mpr hroom
    obtain ⟨hn, hs, hm⟩ := hc
    refine ⟨htick, key_lt_of_lamport_lt (hn.trans_lt htick),
      key_lt_of_lamport_lt (hs.trans_lt htick), fun id s hslot => ?_⟩
    exact key_lt_of_lamport_lt ((hm id s hslot).trans_lt htick)

theorem le_mergeSlots_lamport (l : List (MachineId × MachineSlot)) (d : WorkspaceDoc) (c : Bool)
    (n : ℕ) : n ≤ (mergeSlots (d, c) l).1.lamport ↔
      n ≤ d.lamport ∨ ∃ p ∈ l, n ≤ p.2.stamp.lamport := by
  induction l generalizing d c with
  | nil => simp [mergeSlots]
  | cons p l ih =>
    rw [mergeSlots, ih, mergeSlot_lamport]
    simp only [observe, le_max_iff, List.mem_cons, exists_eq_or_imp, or_assoc]

theorem le_merge_lamport {d other e : WorkspaceDoc} {c : Bool} (h : d.merge other = .ok (e, c))
    (n : ℕ) : n ≤ e.lamport ↔ ∃ m ∈ d.lamport :: other.observed, n ≤ m := by
  have hfst : e = (mergeSlots _ _).1 := congrArg Prod.fst (merge_eq h).2
  rw [hfst, le_mergeSlots_lamport]
  simp [observe, observed, or_assoc]

theorem apply_lamport {d e : WorkspaceDoc} {u : WorkspaceUpdate} {c : Bool}
    (h : d.apply u = .ok (e, c)) : e.lamport = max d.lamport u.stamp.lamport :=
  congrArg Replica.clock (apply_spec h).2.1

theorem apply_clocked {d e : WorkspaceDoc} {u : WorkspaceUpdate} {c : Bool}
    (h : d.apply u = .ok (e, c)) (hd : d.Clocked) : e.Clocked := by
  rw [clocked_iff, (apply_spec h).2.1]
  exact (clocked_iff.mp hd).take u.write

theorem merge_clocked_iff {d other e : WorkspaceDoc} {c : Bool} (h : d.merge other = .ok (e, c))
    (hd : d.Clocked) : e.Clocked ↔
      other.name.stamp.lamport ≤ e.lamport ∧ other.settings.stamp.lamport ≤ e.lamport := by
  have hclock : d.lamport ≤ e.lamport := (le_merge_lamport h _).mpr ⟨_, List.mem_cons_self, le_rfl⟩
  rw [clocked_iff,
    Replica.clocked_iff_of_newer (R := d.replica) (T := e.replica) (merge_held h) hclock
      (clocked_iff.mp hd)]
  constructor
  · intro hall
    exact ⟨hall .name _ rfl, hall .settings _ rfl⟩
  · intro hboth r w hw
    obtain ⟨hn, hs⟩ := hboth
    cases r with
    | name =>
      obtain rfl := Option.some.inj hw
      exact hn
    | settings =>
      obtain rfl := Option.some.inj hw
      exact hs
    | slot id =>
      obtain ⟨s, hslot, rfl⟩ := Option.map_eq_some_iff.mp hw
      have hmem := Std.ExtTreeMap.mem_toList_iff_getElem?_eq_some.mpr hslot
      refine (le_merge_lamport h _).mpr ⟨s.stamp.lamport, ?_, le_rfl⟩
      exact List.mem_cons_of_mem _ (List.mem_cons_of_mem _ (List.mem_map.mpr ⟨_, hmem, rfl⟩))

/-- One arrival keeps the order exactly when it is orderly. -/
theorem receive_sortsAfter_iff {d : WorkspaceDoc} {i : Incoming}
    (hw : i.workspaceId = d.workspaceId) (hd : d.SortsAfter) :
    (d.receive i).SortsAfter ↔ d.Orderly i := by
  obtain ⟨hc, hroom⟩ := sortsAfter_iff.mp hd
  rw [sortsAfter_iff]
  cases i with
  | update u =>
    obtain ⟨e, c, h⟩ := apply_ok_of_workspace hw
    have he : d.receive (.update u) = e := by simp only [receive, h]
    rw [he, apply_lamport h, Orderly]
    have := apply_clocked h hc
    simp only [this, true_and]
    omega
  | document other =>
    obtain ⟨e, c, h⟩ := merge_ok_of_workspace hw
    have he : d.receive (.document other) = e := by simp only [receive, h]
    have hend : e.lamport + 1 < u64Size ↔ ∀ n ∈ other.observed, n + 1 < u64Size := by
      have hle := le_merge_lamport h (u64Size - 1)
      have hiff : e.lamport + 1 < u64Size ↔ ¬ u64Size - 1 ≤ e.lamport := by omega
      rw [hiff, hle]
      simp only [List.mem_cons, exists_eq_or_imp, not_or, not_exists, not_and]
      constructor
      · intro hnot n hn
        have := hnot.2 n hn
        omega
      · intro hall
        refine ⟨by omega, fun n hn => ?_⟩
        have := hall n hn
        omega
    rw [he, merge_clocked_iff h hc, hend, le_merge_lamport h, le_merge_lamport h, Orderly]
    tauto

theorem receive_workspaceId (d : WorkspaceDoc) (i : Incoming) :
    (d.receive i).workspaceId = d.workspaceId := by
  cases i with
  | update u =>
    cases h : d.apply u with
    | ok p => simpa only [receive, h] using (apply_spec h).2.2
    | error err => simp only [receive, h]
  | document other =>
    cases h : d.merge other with
    | ok p => simpa only [receive, h] using merge_workspaceId h
    | error err => simp only [receive, h]

/-- Over a whole run of arrivals the order is kept throughout exactly when there is room at the
start and each arrival is orderly where it arrives. -/
theorem receiveAll_sortsAfter_iff {d : WorkspaceDoc} {arrivals : List Incoming}
    (hw : ∀ i ∈ arrivals, i.workspaceId = d.workspaceId) (hd : d.Clocked) :
    (∀ k, (d.receiveAll (arrivals.take k)).SortsAfter) ↔
      d.lamport + 1 < u64Size ∧
        ∀ k i, arrivals[k]? = some i → (d.receiveAll (arrivals.take k)).Orderly i := by
  induction arrivals generalizing d with
  | nil => simp [receiveAll, sortsAfter_iff, hd]
  | cons i rest ih =>
    have hi : i.workspaceId = d.workspaceId := hw i List.mem_cons_self
    have hrest : ∀ j ∈ rest, j.workspaceId = (d.receive i).workspaceId := by
      intro j hj
      rw [receive_workspaceId]
      exact hw j (List.mem_cons_of_mem _ hj)
    have hhead : (∀ k, (d.receiveAll ((i :: rest).take k)).SortsAfter) ↔
        d.SortsAfter ∧ ∀ k, ((d.receive i).receiveAll (rest.take k)).SortsAfter :=
      Nat.and_forall_add_one.symm
    have htail : (∀ k j, (i :: rest)[k]? = some j →
          (d.receiveAll ((i :: rest).take k)).Orderly j) ↔
        d.Orderly i ∧ ∀ k j, rest[k]? = some j →
          ((d.receive i).receiveAll (rest.take k)).Orderly j := by
      rw [← Nat.and_forall_add_one]
      simp [receiveAll]
    rw [hhead, htail]
    constructor
    · intro h
      obtain ⟨hs, hall⟩ := h
      have hnext : (d.receive i).SortsAfter := hall 0
      obtain ⟨-, hlater⟩ := (ih hrest hnext.1).mp hall
      exact ⟨(sortsAfter_iff.mp hs).2, (receive_sortsAfter_iff hi hs).mp hnext, hlater⟩
    · intro h
      obtain ⟨hroom, horderly, hlater⟩ := h
      have hs : d.SortsAfter := sortsAfter_iff.mpr ⟨hd, hroom⟩
      have hnext := sortsAfter_iff.mp ((receive_sortsAfter_iff hi hs).mpr horderly)
      exact ⟨hs, (ih hrest hnext.1).mpr ⟨hnext.2, hlater⟩⟩

/-- The workspace of the two machines, its name stamped past its clock. -/
def lateName : WorkspaceDoc := { together with name := ⟨"Desk", ⟨9, 2, 0⟩⟩ }

/-- The name is taken in but not its stamp, so the next local edit sorts before it; and after an
update stamped with the last clock value the next stamp is zero. -/
theorem late_name_sorts_last :
    together.Clocked ∧ lateName.workspaceId = together.workspaceId ∧
      ¬ (together.receiveAll [.document lateName]).SortsAfter ∧
      ((together.receiveAll [.document lateName]).tick 1 0).2.key <
        (together.receiveAll [.document lateName]).name.stamp.key ∧
      ((together.receiveAll
        [.update ⟨7, 0, ⟨u64Size - 1, 2, 0⟩, .setName "Desk"⟩]).tick 1 0).2.lamport = 0 := by
  rw [sortsAfter_iff]
  decide +kernel

theorem receiveAll_sortsAfter_two :
    let arrivals : List Incoming :=
      [.document (together.removeMachine 2 4 1).1, .update (together.setName 2 3 "Desk").2]
    (together.receiveAll arrivals).name.value = "Desk" ∧
      ∀ k, (together.receiveAll (arrivals.take k)).SortsAfter := by
  refine ⟨by decide +kernel, (receiveAll_sortsAfter_iff (by simp [Incoming.workspaceId]; decide)
    (by decide +kernel)).mpr ⟨by decide, fun k i hk => ?_⟩⟩
  match k with
  | 0 =>
    obtain rfl := Option.some.inj hk
    unfold Orderly
    decide +kernel
  | 1 =>
    obtain rfl := Option.some.inj hk
    unfold Orderly
    decide +kernel
  | k + 2 => cases hk

end WorkspaceDoc
end InputShare

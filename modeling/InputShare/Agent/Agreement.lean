import InputShare.Agent.Ownership

/-! When every machine knows which one has the pointer. -/
namespace InputShare
open Links Runs

namespace Room

theorem nth_append {α : Type*} {l : List α} (xs : List α) {k : ℕ} {x : α} (h : l[k]? = some x) :
    (l ++ xs)[k]? = some x := by
  rw [List.getElem?_append_left (List.getElem?_eq_some_iff.mp h).1]
  exact h

/-- Every handoff among the events belongs to a change that gives the pointer to `dest`. -/
def Handoffs (changes : List MachineId) (dest : MachineId) (events : List (Sample ℕ)) : Prop :=
  ∀ s ∈ events, fromHook s.event = false → changes[s.tag]? = some dest

def FrameOk (changes : List MachineId) (dest : MachineId) : Frame → Prop
  | .input events => Handoffs changes dest events
  | .cursorOwner machine change => changes[change]? = some machine

def OutputOk (changes : List MachineId) : Output ℕ → Prop
  | .sendInput dest events => Handoffs changes dest events
  | .announceCursorOwner machine change => changes[change]? = some machine
  | _ => True

/-- What one machine knows is what happened, if not the last of it. -/
structure DeskOk (changes : List MachineId) (n : MachineId) (d : Desk) : Prop where
  me : d.router.me = n
  names : changes[d.seen]? = some d.router.owner
  /-- A machine that had the pointer made the next change itself. -/
  ahead : ∀ k, k + 1 < changes.length → changes[k]? = some n → k < d.seen
  hook : ∀ s ∈ d.router.pending, fromHook s.event = true
  suppress : d.router.capture.suppressing = decide (d.router.owner ≠ n)
  mailbox : ∀ o ∈ d.mailbox, OutputOk changes o
  announced : ∀ p ∈ d.announced, changes[p.2]? = some p.1
  remote : ∀ events ∈ d.remoteInput, Handoffs changes n events
  batch : Handoffs changes n d.batch

/-- A notice of the change `k` is on its way to `n`. -/
def OnTheWay (w : Room) (n : MachineId) (m : MachineId) (k : ℕ) : Prop :=
  (w.desk n).announced = some (m, k) ∨ ∃ p ∈ w.present, p ≠ n ∧
    (.announceCursorOwner m k ∈ (w.desk p).mailbox ∨ .cursorOwner m k ∈ (w.link p n).inFlight)

def Informed (w : Room) (n : MachineId) : Prop :=
  (w.desk n).seen + 1 = w.changes.length ∨
    ∃ m k, k + 1 = w.changes.length ∧ OnTheWay w n m k

structure Good (w : Room) : Prop where
  desk : ∀ n ∈ w.present, DeskOk w.changes n (w.desk n)
  frames : ∀ p q, ∀ f ∈ (w.link p q).inFlight, FrameOk w.changes q f
  informed : ∀ n ∈ w.present, Informed w n

section Changes
variable {changes : List MachineId}

theorem Handoffs.mono {dest : MachineId} {events : List (Sample ℕ)}
    (h : Handoffs changes dest events) (ms : List MachineId) :
    Handoffs (changes ++ ms) dest events := fun s hs he => nth_append ms (h s hs he)

theorem FrameOk.mono {dest : MachineId} {f : Frame} (h : FrameOk changes dest f)
    (ms : List MachineId) : FrameOk (changes ++ ms) dest f := by
  cases f with
  | input events => exact Handoffs.mono h ms
  | cursorOwner m k => exact nth_append ms h

theorem OutputOk.mono {o : Output ℕ} (h : OutputOk changes o) (ms : List MachineId) :
    OutputOk (changes ++ ms) o := by
  cases o with
  | sendInput dest events => exact Handoffs.mono h ms
  | announceCursorOwner m k => exact nth_append ms h
  | _ => trivial

theorem Handoffs.of_hook {dest : MachineId} {events : List (Sample ℕ)}
    (h : ∀ s ∈ events, fromHook s.event = true) : Handoffs changes dest events :=
  fun s hs he => by rw [h s hs] at he; cases he

theorem Handoffs.append {dest : MachineId} {xs ys : List (Sample ℕ)}
    (hx : Handoffs changes dest xs) (hy : Handoffs changes dest ys) :
    Handoffs changes dest (xs ++ ys) :=
  fun s hs => (List.mem_append.mp hs).elim (hx s) (hy s)

theorem DeskOk.latest {n : MachineId} {d : Desk} (h : DeskOk changes n d)
    (ho : d.router.owner = n) : d.seen + 1 = changes.length := by
  have hlt := (List.getElem?_eq_some_iff.mp h.names).1
  by_contra hne
  exact absurd (h.ahead d.seen (by omega) (h.names.trans (congrArg some ho))) (lt_irrefl _)

end Changes

@[simp] theorem setDesk_same (w : Room) (a : MachineId) (d : Desk) :
    (w.setDesk a d).desk a = d := by simp [setDesk]
theorem setDesk_other (w : Room) {a n : MachineId} (d : Desk) (h : n ≠ a) :
    (w.setDesk a d).desk n = w.desk n := by simp [setDesk, h]
@[simp] theorem setDesk_link (w : Room) (a : MachineId) (d : Desk) :
    (w.setDesk a d).link = w.link := rfl
@[simp] theorem setDesk_present (w : Room) (a : MachineId) (d : Desk) :
    (w.setDesk a d).present = w.present := rfl
@[simp] theorem setDesk_changes (w : Room) (a : MachineId) (d : Desk) :
    (w.setDesk a d).changes = w.changes := rfl

theorem Informed.of_kept {w t : Room} {n : MachineId} (h : Informed w n)
    (hc : t.changes = w.changes) (hseen : (w.desk n).seen ≤ (t.desk n).seen)
    (hlt : (t.desk n).seen < t.changes.length)
    (hway : ∀ m k, k + 1 = w.changes.length → OnTheWay w n m k →
      OnTheWay t n m k ∨ (t.desk n).seen + 1 = w.changes.length) : Informed t n := by
  rw [hc] at hlt
  obtain h | ⟨m, k, hk, h⟩ := h
  · exact .inl (by rw [hc]; omega)
  · obtain h | h := hway m k hk h
    · exact .inr ⟨m, k, by rw [hc, hk], h⟩
    · exact .inl (by rw [hc, h])

theorem Good.update {w : Room} {a : MachineId} {d : Desk} (h : w.Good) (ha : a ∈ w.present)
    (hd : DeskOk w.changes a d) (hseen : (w.desk a).seen ≤ d.seen)
    (hslot : ∀ p ∈ (w.desk a).announced, p.2 + 1 = w.changes.length →
      p ∈ d.announced ∨ d.seen + 1 = w.changes.length)
    (hmail : ∀ o ∈ (w.desk a).mailbox, o ∈ d.mailbox) : (w.setDesk a d).Good := by
  have hlt := (List.getElem?_eq_some_iff.mp hd.names).1
  have hsend : ∀ n m k, n ≠ a → OnTheWay w n m k → OnTheWay (w.setDesk a d) n m k := by
    rintro n m k hn (hs | ⟨p, hp, hpn, ho | hf⟩)
    · exact .inl (by rw [setDesk_other w d hn, hs])
    · refine .inr ⟨p, hp, hpn, .inl ?_⟩
      by_cases hpa : p = a
      · subst hpa
        rw [setDesk_same]
        exact hmail _ ho
      · rwa [setDesk_other w d hpa]
    · exact .inr ⟨p, hp, hpn, .inr hf⟩
  refine ⟨fun n hn => ?_, h.frames, fun n hn => ?_⟩
  · by_cases hna : n = a
    · subst hna
      rw [setDesk_same]
      exact hd
    · rw [setDesk_other w d hna]
      exact h.desk n hn
  · by_cases hna : n = a
    · subst hna
      refine (h.informed n hn).of_kept rfl (by simpa using hseen) (by simpa using hlt) ?_
      rintro m k hk (hs | ⟨p, hp, hpn, ho | hf⟩)
      · rcases hslot (m, k) hs hk with hs | hs
        · exact .inl (.inl (by rw [setDesk_same]; exact hs))
        · exact .inr (by rw [setDesk_same]; exact hs)
      · exact .inl (.inr ⟨p, hp, hpn, .inl (by rwa [setDesk_other w d hpn])⟩)
      · exact .inl (.inr ⟨p, hp, hpn, .inr hf⟩)
    · refine (h.informed n hn).of_kept rfl ?_ ?_ fun m k _ hw => .inl (hsend n m k hna hw)
      · rw [setDesk_other w d hna]
      · rw [setDesk_other w d hna]
        exact (List.getElem?_eq_some_iff.mp (h.desk n hn).names).1

theorem Good.change {w : Room} {a m : MachineId} {d : Desk} (h : w.Good) (ha : a ∈ w.present)
    (hd : DeskOk (w.changes ++ [m]) a d) (hseen : d.seen = w.changes.length)
    (hlast : ∀ n ∈ w.present, n ≠ a → ∀ k, k + 1 = w.changes.length →
      w.changes[k]? ≠ some n)
    (hmail : .announceCursorOwner m w.changes.length ∈ d.mailbox) :
    ({ w.setDesk a d with changes := w.changes ++ [m] } : Room).Good := by
  refine ⟨fun n hn => ?_, fun p q f hf => (h.frames p q f hf).mono [m], fun n hn => ?_⟩
  · by_cases hna : n = a
    · subst hna
      simpa [setDesk] using hd
    · have ho := h.desk n hn
      simp only [setDesk, ne_eq, hna, not_false_iff, Function.update_of_ne]
      refine ⟨ho.me, nth_append _ ho.names, ?_, ho.hook, ho.suppress, fun o hm =>
        (ho.mailbox o hm).mono _, fun p hp => nth_append _ (ho.announced p hp),
        fun es hes => (ho.remote es hes).mono _, ho.batch.mono _⟩
      intro k hk hkn
      have hklt : k < w.changes.length := by simpa using hk
      rw [List.getElem?_append_left hklt] at hkn
      by_cases hkl : k + 1 = w.changes.length
      · exact absurd hkn (hlast n hn hna k hkl)
      · exact ho.ahead k (by omega) hkn
  · by_cases hna : n = a
    · subst hna
      exact .inl (by simp [setDesk, hseen])
    · refine .inr ⟨m, w.changes.length, by simp, .inr ⟨a, ha, fun e => hna e.symm, .inl ?_⟩⟩
      simpa [setDesk] using hmail

/-! A turn of a loop. -/

def fresh (r : Router ℕ) : Router ℕ := { r with out := [] }

theorem loop_of_none {w : Room} {a : MachineId} {d : Desk} {heard : ℕ}
    {f : Router ℕ → Router ℕ} (h : ∀ o ∈ (f (fresh d.router)).outgoing, announcedIn o = none) :
    w.loop a d heard f = w.setDesk a { d with
      router := f (fresh d.router)
      seen := max d.seen heard
      mailbox := d.mailbox ++ (f (fresh d.router)).outgoing } := by
  have hm : (f (fresh d.router)).outgoing.filterMap announcedIn = [] :=
    List.filterMap_eq_nil_iff.mpr h
  have hm' : (f { d.router with out := [] }).outgoing.filterMap announcedIn = [] := hm
  simp only [loop, hm', List.isEmpty_nil, if_true, List.append_nil]
  rfl

theorem loop_of_made {w : Room} {a m : MachineId} {d : Desk} {heard : ℕ}
    {f : Router ℕ → Router ℕ} (h : (f (fresh d.router)).outgoing.filterMap announcedIn = [m]) :
    w.loop a d heard f = { w.setDesk a { d with
      router := f (fresh d.router)
      seen := w.changes.length
      mailbox := d.mailbox ++ (f (fresh d.router)).outgoing } with
        changes := w.changes ++ [m] } := by
  have hm' : (f { d.router with out := [] }).outgoing.filterMap announcedIn = [m] := h
  simp only [loop, hm', List.isEmpty_cons, Bool.false_eq_true, if_false]
  rfl

/-- The router is left with what it had, or has taken in what it heard. -/
structure Calm (changes : List MachineId) (n m : MachineId) (t : Router ℕ) : Prop where
  me : t.me = n
  owner : t.owner = m
  suppress : t.capture.suppressing = decide (m ≠ n)
  hook : ∀ s ∈ t.pending, fromHook s.event = true
  silent : ∀ o ∈ t.outgoing, announcedIn o = none
  sent : ∀ o ∈ t.outgoing, OutputOk changes o

theorem Calm.quiet {changes : List MachineId} {n : MachineId} {d : Desk} {t : Router ℕ}
    (hd : DeskOk changes n d) (h : (fresh d.router).Quiet t) :
    Calm changes n d.router.owner t := by
  have hout : t.outgoing = [] := h.outgoing
  refine ⟨h.me.trans hd.me, h.owner, ?_, ?_, by simp [hout], by simp [hout]⟩
  · rw [h.capture]
    exact hd.suppress
  · rw [h.pending]
    exact hd.hook

theorem Calm.named {changes : List MachineId} {os : Os} {now : ℕ} {n m : MachineId} {d : Desk}
    {t : Router ℕ} (hd : DeskOk changes n d)
    (h : Router.Named os now m [] [] (fresh d.router) t) : Calm changes n m t := by
  have hout : t.outgoing = [] := h.outgoing
  refine ⟨h.me.trans hd.me, h.owner, ?_, by simp [h.pending], by simp [hout], by simp [hout]⟩
  rw [h.capture, Capture.setSuppressing_suppressing]
  exact congrArg (fun x => decide (m ≠ x)) hd.me

theorem Good.calm {w : Room} {a owner : MachineId} {d : Desk} {heard : ℕ}
    {f : Router ℕ → Router ℕ} (h : w.Good) (ha : a ∈ w.present) (hd : DeskOk w.changes a d)
    (hseen : d.seen = (w.desk a).seen) (hmail : d.mailbox = (w.desk a).mailbox)
    (hslot : ∀ p ∈ (w.desk a).announced, p ∈ d.announced ∨ p.2 ≤ heard)
    (ht : Calm w.changes a owner (f (fresh d.router)))
    (hnames : w.changes[max d.seen heard]? = some owner) : (w.loop a d heard f).Good := by
  have hlt := (List.getElem?_eq_some_iff.mp hnames).1
  rw [loop_of_none ht.silent]
  refine h.update ha ?_ ?_ ?_ ?_
  · refine ⟨ht.me, hnames.trans (by rw [ht.owner]), ?_, ht.hook,
      ht.suppress.trans (by rw [ht.owner]), ?_, hd.announced, hd.remote, hd.batch⟩
    · exact fun k hk hkn => (hd.ahead k hk hkn).trans_le (le_max_left _ _)
    · exact fun o ho => (List.mem_append.mp ho).elim (hd.mailbox o) (ht.sent o)
  · simp [hseen]
  · intro p hp hk
    refine (hslot p hp).imp id fun hle => ?_
    have hle' : p.2 ≤ max d.seen heard := hle.trans (le_max_right _ _)
    show max d.seen heard + 1 = _
    omega
  · exact fun o ho => List.mem_append_left _ (hmail ▸ ho)

theorem Good.moved {w : Room} {a m : MachineId} {d : Desk} {heard now : ℕ} {os : Os}
    {f : Router ℕ → Router ℕ} (sent : List (Output ℕ)) (h : w.Good) (ha : a ∈ w.present)
    (hd : DeskOk w.changes a d)
    (hlast : ∀ n ∈ w.present, n ≠ a → ∀ k, k + 1 = w.changes.length → w.changes[k]? ≠ some n)
    (hsent : ∀ o ∈ sent, announcedIn o = none ∧ OutputOk (w.changes ++ [m]) o)
    (ht : Router.Named os now m [] (sent ++ [.announceCursorOwner m w.nextChange])
      (fresh d.router) (f (fresh d.router))) : (w.loop a d heard f).Good := by
  have hout : (f (fresh d.router)).outgoing = sent ++ [.announceCursorOwner m w.nextChange] :=
    ht.outgoing
  have hnone : sent.filterMap announcedIn = [] :=
    List.filterMap_eq_nil_iff.mpr fun o ho => (hsent o ho).1
  have hlen : (w.changes ++ [m])[w.changes.length]? = some m := by simp
  rw [loop_of_made (m := m) (by rw [hout, List.filterMap_append, hnone]; rfl)]
  refine h.change ha ?_ rfl hlast ?_
  · refine ⟨ht.me.trans hd.me, hlen.trans (by rw [ht.owner]), ?_, by simp [ht.pending], ?_, ?_,
      fun p hp => nth_append _ (hd.announced p hp), fun es hes => (hd.remote es hes).mono _,
      hd.batch.mono _⟩
    · intro k hk _
      simpa using hk
    · have hc : (f (fresh d.router)).capture.suppressing = decide (m ≠ d.router.me) := by
        rw [ht.capture, Capture.setSuppressing_suppressing]
        rfl
      rw [hc, ht.owner, hd.me]
    · intro o ho
      rw [hout] at ho
      obtain ho | ho := List.mem_append.mp ho
      · exact (hd.mailbox o ho).mono _
      · obtain ho | ho := List.mem_append.mp ho
        · exact (hsent o ho).2
        · obtain rfl := List.mem_singleton.mp ho
          exact hlen
  · show _ ∈ d.mailbox ++ (f (fresh d.router)).outgoing
    rw [hout]
    simp [nextChange]

theorem heardIn_of_hook {s : Sample ℕ} (h : fromHook s.event = true) : heardIn s = 0 := if_pos h

theorem fromHook_enter {s : Sample ℕ} (h : fromHook s.event = false) :
    ∃ x y, s.event = .cursorEnter x y := by
  cases he : s.event with
  | cursorEnter x y => exact ⟨x, y, rfl⟩
  | _ => simp [fromHook, he] at h

theorem Good.handle {w : Room} {a : MachineId} {d : Desk} (h : w.Good) (env : Env) (s : Sample ℕ)
    (source : Source) (ha : a ∈ w.present) (hd : DeskOk w.changes a d)
    (hseen : d.seen = (w.desk a).seen) (hmail : d.mailbox = (w.desk a).mailbox)
    (hslot : d.announced = (w.desk a).announced)
    (hlocal : source = .local → fromHook s.event = true)
    (hgiven : fromHook s.event = false → w.changes[s.tag]? = some a)
    (horder : fromHook s.event = false → d.router.owner = a ∨ d.seen ≤ s.tag) :
    (w.loop a d (heardIn s) fun r => r.handle d.os env w.nextChange s source).Good := by
  have hkeep : ∀ p ∈ (w.desk a).announced, p ∈ d.announced ∨ p.2 ≤ heardIn s :=
    fun p hp => .inl (hslot ▸ hp)
  have hme : (fresh d.router).me = a := hd.me
  cases Router.handle_spec d.os env w.nextChange s source (fresh d.router) with
  | quiet hs hq =>
    refine h.calm ha hd hseen hmail hkeep (.quiet hd hq) ?_
    cases he : fromHook s.event with
    | true =>
      rw [heardIn_of_hook he, max_eq_left (Nat.zero_le _)]
      exact hd.names
    | false =>
      obtain ⟨x, y, hxy⟩ := fromHook_enter he
      have hsrc : source = .remote := by
        cases source with
        | «local» => simp [he] at hlocal
        | remote => rfl
      have ho : d.router.owner = a := (hs x y hxy hsrc).trans hme
      have hh : heardIn s = s.tag := by simp [heardIn, he]
      obtain hmax | hmax := max_choice d.seen (heardIn s) <;> rw [hmax]
      · exact hd.names
      · rw [hh, ho]
        exact hgiven he
  | queued hs ho hq =>
    have hev := hlocal hs
    have hc : Calm w.changes a d.router.owner { fresh d.router with
        pending := (fresh d.router).pending ++ [s] } := by
      refine ⟨hd.me, rfl, hd.suppress, ?_, by simp [Router.outgoing, fresh],
        by simp [Router.outgoing, fresh]⟩
      intro x hx
      obtain hx | hx := List.mem_append.mp hx
      · exact hd.hook x hx
      · obtain rfl := List.mem_singleton.mp hx
        exact hev
    refine h.calm ha hd hseen hmail hkeep (hq ▸ hc) ?_
    rw [heardIn_of_hook hev, max_eq_left (Nat.zero_le _)]
    exact hd.names
  | entered x y hs he ho hn =>
    have hev : fromHook s.event = false := by rw [he]; rfl
    have hh : heardIn s = s.tag := by simp [heardIn, hev]
    have hle := (horder hev).resolve_left fun k => ho (k.trans hme.symm)
    rw [hme] at hn
    refine h.calm ha hd hseen hmail hkeep (.named hd hn) ?_
    rw [hh, max_eq_right hle]
    exact hgiven hev
  | crossed doc m p ho hdoc hm hon he hn =>
    have hown : d.router.owner = a := ho.trans hme
    have hlatest := hd.latest hown
    refine h.moved _ ha hd ?_ ?_ hn
    · intro n hn hna k hk hkn
      obtain rfl : k = d.seen := by omega
      rw [hd.names, hown] at hkn
      exact hna (Option.some.inj hkn).symm
    · intro o hout
      unfold Router.delivery at hout
      split_ifs at hout
      · cases hout
      · obtain rfl := List.mem_singleton.mp hout
        refine ⟨rfl, Handoffs.append (.of_hook hd.hook) fun x hx _ => ?_⟩
        rw [(Router.mem_handoff hx).2]
        simp [nextChange]

theorem Good.heartbeat {w : Room} {a : MachineId} {env : Env} (h : w.Good) (ha : a ∈ w.present)
    (henv : env.online = (w.desk a).online)
    (hok : (w.desk a).router.owner ≠ a → (w.desk a).router.owner ∉ (w.desk a).online →
      (w.desk a).router.owner ∉ w.present ∧ (w.desk a).seen + 1 = w.changes.length) :
    (w.loop a (w.desk a) 0 fun r => r.onHeartbeat (w.desk a).os env w.nextChange).Good := by
  have hd := h.desk a ha
  have hme : (fresh (w.desk a).router).me = a := hd.me
  rcases Router.onHeartbeat_spec (w.desk a).os env w.nextChange (fresh (w.desk a).router) with
    hq | ⟨ho, hon, hn⟩
  · have hc : Calm w.changes a (w.desk a).router.owner
        ((fresh (w.desk a).router).onHeartbeat (w.desk a).os env w.nextChange) := by
      rw [hq]
      exact ⟨hd.me, rfl, hd.suppress, hd.hook, by simp [Router.outgoing, fresh],
        by simp [Router.outgoing, fresh]⟩
    exact h.calm ha hd rfl rfl (fun p hp => .inl hp) hc (by simpa using hd.names)
  · rw [hme] at hn ho
    obtain ⟨hgone, hlatest⟩ := hok ho (henv ▸ hon)
    refine h.moved [] ha hd ?_ ?_ hn
    · intro n hnp hna k hk hkn
      obtain rfl : k = (w.desk a).seen := by omega
      rw [hd.names] at hkn
      exact hgone (Option.some.inj hkn ▸ hnp)
    · simp

theorem Good.flush {w : Room} {a : MachineId} {env : Env} (h : w.Good) (ha : a ∈ w.present)
    (hok : ∀ p ∈ (w.desk a).announced,
      p.1 = (w.desk a).router.owner ∨ (w.desk a).seen ≤ p.2) :
    (w.loop a { w.desk a with announced := none } (((w.desk a).announced.map Prod.snd).getD 0)
      fun r => r.onFlush (w.desk a).os env ((w.desk a).announced.map Prod.fst)).Good := by
  have hd₀ := h.desk a ha
  have hd : DeskOk w.changes a { w.desk a with announced := none } :=
    ⟨hd₀.me, hd₀.names, hd₀.ahead, hd₀.hook, hd₀.suppress, hd₀.mailbox, by simp, hd₀.remote,
      hd₀.batch⟩
  have hkeep : ∀ p ∈ (w.desk a).announced, p ∈ (none : Option (MachineId × ℕ)) ∨
      p.2 ≤ ((w.desk a).announced.map Prod.snd).getD 0 := by
    intro p hp
    rw [Option.mem_def.mp hp]
    exact .inr le_rfl
  rcases Router.onFlush_spec (w.desk a).os env ((w.desk a).announced.map Prod.fst)
    (fresh (w.desk a).router) with ⟨hsame, hq⟩ | ⟨m, hm, ho, hn⟩
  · obtain ⟨hme, hown, hpend, hcap, hout⟩ := (fresh (w.desk a).router).flush_spec
    have hsent : ∀ o ∈ (fresh (w.desk a).router).flush.outgoing, ∃ es dest,
        o = .sendInput dest es ∧ ∀ s ∈ es, fromHook s.event = true := by
      rw [hout]
      intro o hm
      have hm' : o ∈ (fresh (w.desk a).router).flushed := by
        simpa [Router.outgoing, fresh] using hm
      unfold Router.flushed Router.delivery at hm'
      split_ifs at hm'
      · cases hm'
      · cases hm'
      · obtain rfl := List.mem_singleton.mp hm'
        exact ⟨_, _, rfl, hd.hook⟩
    have hc : Calm w.changes a (w.desk a).router.owner (fresh (w.desk a).router).flush := by
      refine ⟨hme.trans hd.me, hown, ?_, by simp [hpend], ?_, ?_⟩
      · rw [hcap]
        exact hd.suppress
      · intro o hm
        obtain ⟨es, dest, rfl, -⟩ := hsent o hm
        rfl
      · intro o hm
        obtain ⟨es, dest, rfl, hes⟩ := hsent o hm
        exact Handoffs.of_hook hes
    refine h.calm ha hd rfl rfl hkeep (hq ▸ hc) ?_
    cases hs : (w.desk a).announced with
    | none => simpa using hd.names
    | some p =>
      have hp : p.1 = (w.desk a).router.owner := by simpa [hs, fresh] using hsame
      show w.changes[max (w.desk a).seen p.2]? = _
      obtain hmax | hmax := max_choice (w.desk a).seen p.2 <;> rw [hmax]
      · exact hd.names
      · rw [← hp]
        exact hd₀.announced p hs
  · obtain ⟨p, hp, rfl⟩ := Option.map_eq_some_iff.mp hm
    have hle : (w.desk a).seen ≤ p.2 := (hok p hp).resolve_left ho
    refine h.calm ha hd rfl rfl hkeep (.named hd hn) ?_
    rw [hp]
    show w.changes[max (w.desk a).seen p.2]? = _
    rw [max_eq_right hle]
    exact hd₀.announced p hp

theorem Good.receive {w : Room} {a : MachineId} {events : List (Sample ℕ)}
    {rest : List (List (Sample ℕ))} (h : w.Good) (ha : a ∈ w.present)
    (hr : (w.desk a).remoteInput = events :: rest) :
    (w.setDesk a { w.desk a with remoteInput := rest, batch := events }).Good := by
  have hd := h.desk a ha
  refine h.update ha ?_ le_rfl (fun p hp _ => .inl hp) fun o ho => ho
  exact ⟨hd.me, hd.names, hd.ahead, hd.hook, hd.suppress, hd.mailbox, hd.announced,
    fun es hes => hd.remote es (by rw [hr]; exact List.mem_cons_of_mem _ hes),
    hd.remote events (by rw [hr]; exact List.mem_cons_self)⟩

/-! The networking actor and the sessions. -/

theorem Good.relink {w : Room} (h : w.Good) (link : MachineId → MachineId → Link Frame)
    (hnew : ∀ p q, ∀ f ∈ (link p q).inFlight, FrameOk w.changes q f)
    (hkeep : ∀ p ∈ w.present, ∀ n ∈ w.present, ∀ m k,
      .cursorOwner m k ∈ (w.link p n).inFlight → .cursorOwner m k ∈ (link p n).inFlight) :
    ({ w with link := link } : Room).Good := by
  refine ⟨h.desk, hnew, fun n hn => ?_⟩
  refine (h.informed n hn).of_kept rfl le_rfl
    (List.getElem?_eq_some_iff.mp (h.desk n hn).names).1 ?_
  rintro m k - (hs | ⟨p, hp, hpn, ho | hf⟩)
  · exact .inl (.inl hs)
  · exact .inl (.inr ⟨p, hp, hpn, .inl ho⟩)
  · exact .inl (.inr ⟨p, hp, hpn, .inr (hkeep p hp n hn m k hf)⟩)

theorem setLink_same (w : Room) (a b : MachineId) (l : Link Frame) :
    (w.setLink a b l).link a b = l := by simp [setLink]

theorem mem_setLink {w : Room} {a b p q : MachineId} {l : Link Frame} {f : Frame}
    (h : f ∈ ((w.setLink a b l).link p q).inFlight) :
    (p = a ∧ q = b ∧ f ∈ l.inFlight) ∨ f ∈ (w.link p q).inFlight := by
  by_cases hp : p = a
  · by_cases hq : q = b
    · subst hp hq
      exact .inl ⟨rfl, rfl, by rwa [setLink_same] at h⟩
    · exact .inr (by simpa [setLink, hp, hq] using h)
  · exact .inr (by simpa [setLink, hp] using h)

theorem setLink_other (w : Room) {a b p q : MachineId} (l : Link Frame) (h : ¬ (p = a ∧ q = b)) :
    (w.setLink a b l).link p q = w.link p q := by
  by_cases hp : p = a
  · have hq : q ≠ b := fun hq => h ⟨hp, hq⟩
    subst hp
    simp [setLink, hq]
  · simp [setLink, hp]

theorem Good.setLink {w : Room} {a b : MachineId} {l : Link Frame} (h : w.Good)
    (hl : l.inFlight = (w.link a b).inFlight) : (w.setLink a b l).Good := by
  refine h.relink (w.setLink a b l).link (fun p q f hf => ?_) fun p _ n _ m k hf => ?_
  · obtain ⟨rfl, rfl, hf'⟩ | hf' := mem_setLink hf
    · exact h.frames p q f (hl ▸ hf')
    · exact h.frames p q f hf'
  · by_cases hpn : p = a ∧ n = b
    · obtain ⟨rfl, rfl⟩ := hpn
      rw [setLink_same, hl]
      exact hf
    · rwa [setLink_other w l hpn]

@[simp] theorem onFrame_mailbox (f : Frame) (d : Desk) : (onFrame f d).mailbox = d.mailbox := by
  cases f <;> simp only [onFrame]
  split_ifs <;> rfl

@[simp] theorem onFrame_seen (f : Frame) (d : Desk) : (onFrame f d).seen = d.seen := by
  cases f <;> simp only [onFrame]
  split_ifs <;> rfl

theorem DeskOk.onFrame {changes : List MachineId} {n : MachineId} {d : Desk} {f : Frame}
    (h : DeskOk changes n d) (hf : FrameOk changes n f) : DeskOk changes n (Room.onFrame f d) := by
  cases f with
  | cursorOwner m k =>
    refine ⟨h.me, h.names, h.ahead, h.hook, h.suppress, h.mailbox, ?_, h.remote, h.batch⟩
    intro p hp
    obtain rfl := Option.some.inj hp
    exact hf
  | input events =>
    simp only [Room.onFrame]
    split_ifs
    · refine ⟨h.me, h.names, h.ahead, h.hook, h.suppress, h.mailbox, h.announced, ?_, h.batch⟩
      intro es hes
      obtain hes | hes := List.mem_append.mp hes
      · exact h.remote es hes
      · obtain rfl := List.mem_singleton.mp hes
        exact hf
    · exact h

theorem announced_onFrame {changes : List MachineId} {d : Desk} {f : Frame} {n m : MachineId}
    {k : ℕ} (hd : DeskOk changes n d) (hf : FrameOk changes n f)
    (hok : ∀ p ∈ d.announced, f.notBefore p.2 = true) (hk : k + 1 = changes.length)
    (hs : d.announced = some (m, k)) :
    (onFrame f d).announced = some (m, k) := by
  cases f with
  | cursorOwner m' k' =>
    have hle : k ≤ k' := of_decide_eq_true (hok (m, k) hs)
    have hlt := (List.getElem?_eq_some_iff.mp hf).1
    obtain rfl : k' = k := by omega
    have hm : changes[k']? = some m := hd.announced (m, k') hs
    obtain rfl : m' = m := Option.some.inj (Eq.trans hf.symm hm)
    rfl
  | input events =>
    simp only [onFrame]
    split_ifs <;> exact hs

theorem Good.read {w : Room} {a b : MachineId} {f : Frame} {l : Link Frame} (h : w.Good)
    (hb : b ∈ w.present) (hl : (w.link a b).inFlight = f :: l.inFlight)
    (hok : ∀ p ∈ (w.desk b).announced, f.notBefore p.2 = true) :
    ((w.setLink a b l).setDesk b (onFrame f (w.desk b))).Good := by
  have hf : FrameOk w.changes b f := h.frames a b f (by rw [hl]; exact List.mem_cons_self)
  have hd := (h.desk b hb).onFrame hf
  have hkeep : ∀ p n, ∀ g ∈ (w.link p n).inFlight,
      g ∈ ((w.setLink a b l).link p n).inFlight ∨ (g = f ∧ n = b) := by
    intro p n g hg
    by_cases hpn : p = a ∧ n = b
    · obtain ⟨rfl, rfl⟩ := hpn
      rw [hl] at hg
      rw [setLink_same]
      exact (List.mem_cons.mp hg).elim (fun e => .inr ⟨e, rfl⟩) .inl
    · rw [setLink_other w l hpn]
      exact .inl hg
  refine ⟨fun n hn => ?_, fun p q g hg => ?_, fun n hn => ?_⟩
  · by_cases hnb : n = b
    · subst hnb
      rw [setDesk_same]
      exact hd
    · rw [setDesk_other _ _ hnb]
      exact h.desk n hn
  · obtain ⟨rfl, rfl, hg'⟩ | hg' := mem_setLink hg
    · exact h.frames p q g (by rw [hl]; exact List.mem_cons_of_mem _ hg')
    · exact h.frames p q g hg'
  · by_cases hnb : n = b
    · subst hnb
      have hlt := (List.getElem?_eq_some_iff.mp (h.desk n hn).names).1
      refine (h.informed n hn).of_kept rfl (by simp)
        (by rw [setDesk_same, onFrame_seen]; exact hlt) ?_
      rintro m k hk (hs | ⟨p, hp, hpn, ho | hg⟩)
      · refine .inl (.inl ?_)
        rw [setDesk_same]
        exact announced_onFrame (h.desk n hn) hf hok hk hs
      · exact .inl (.inr ⟨p, hp, hpn, .inl (by rwa [setDesk_other _ _ hpn])⟩)
      · obtain hg' | ⟨rfl, -⟩ := hkeep p n _ hg
        · exact .inl (.inr ⟨p, hp, hpn, .inr hg'⟩)
        · exact .inl (.inl (by rw [setDesk_same]; rfl))
    · refine (h.informed n hn).of_kept rfl ?_ ?_ ?_
      · rw [setDesk_other _ _ hnb]
        rfl
      · rw [setDesk_other _ _ hnb]
        exact (List.getElem?_eq_some_iff.mp (h.desk n hn).names).1
      rintro m k - (hs | ⟨p, hp, hpn, ho | hg⟩)
      · exact .inl (.inl (by rwa [setDesk_other _ _ hnb]))
      · refine .inl (.inr ⟨p, hp, hpn, .inl ?_⟩)
        by_cases hpb : p = b
        · subst hpb
          rw [setDesk_same, onFrame_mailbox]
          exact ho
        · rwa [setDesk_other _ _ hpb]
      · obtain hg' | ⟨-, e⟩ := hkeep p n _ hg
        · exact .inl (.inr ⟨p, hp, hpn, .inr hg'⟩)
        · exact absurd e hnb

theorem mem_onOutput {a p q : MachineId} {o : Output ℕ}
    {link : MachineId → MachineId → Link Frame} {f : Frame}
    (h : f ∈ (onOutput a o link p q).inFlight) : f ∈ (link p q).inFlight ∨
      (∃ m k, o = .announceCursorOwner m k ∧ f = .cursorOwner m k) ∨
      ∃ es, o = .sendInput q es ∧ f = .input es := by
  cases o with
  | announceCursorOwner m k =>
    by_cases hp : p = a
    · subst hp
      simp only [onOutput, onAnnounceOwner, Function.update_self, Link.inFlight_offer,
        List.mem_append] at h
      refine h.imp id fun hf => .inl ⟨m, k, rfl, ?_⟩
      split_ifs at hf
      · exact List.mem_singleton.mp hf
      · cases hf
    · exact .inl (by simpa [onOutput, onAnnounceOwner, hp] using h)
  | sendInput dest es =>
    by_cases hpq : p = a ∧ q = dest
    · obtain ⟨rfl, rfl⟩ := hpq
      simp only [onOutput, onSendInput, Function.update_self, Link.inFlight_send,
        List.mem_append] at h
      refine h.imp id fun hf => .inr ⟨es, rfl, ?_⟩
      split_ifs at hf
      · exact List.mem_singleton.mp hf
      · cases hf
    · refine .inl ?_
      by_cases hp : p = a
      · have hq : q ≠ dest := fun hq => hpq ⟨hp, hq⟩
        subst hp
        simpa [onOutput, onSendInput, hq] using h
      · simpa [onOutput, onSendInput, hp] using h
  | _ => exact .inl h

theorem onOutput_keeps {a p q : MachineId} {o : Output ℕ}
    {link : MachineId → MachineId → Link Frame} {f : Frame} (h : f ∈ (link p q).inFlight) :
    f ∈ (onOutput a o link p q).inFlight := by
  cases o with
  | announceCursorOwner m k =>
    by_cases hp : p = a
    · subst hp
      simp only [onOutput, onAnnounceOwner, Function.update_self, Link.inFlight_offer]
      exact List.mem_append_left _ h
    · simpa [onOutput, onAnnounceOwner, hp] using h
  | sendInput dest es =>
    by_cases hpq : p = a ∧ q = dest
    · obtain ⟨rfl, rfl⟩ := hpq
      simp only [onOutput, onSendInput, Function.update_self, Link.inFlight_send]
      exact List.mem_append_left _ h
    · by_cases hp : p = a
      · have hq : q ≠ dest := fun hq => hpq ⟨hp, hq⟩
        subst hp
        simpa [onOutput, onSendInput, hq] using h
      · simpa [onOutput, onSendInput, hp] using h
  | _ => exact h

theorem Good.post {w : Room} {a : MachineId} {o : Output ℕ} {rest : List (Output ℕ)}
    (h : w.Good) (ha : a ∈ w.present) (hm : (w.desk a).mailbox = o :: rest)
    (hok : (announcedIn o).isSome = true →
      ∀ b ∈ w.present, b ≠ a → (w.link a b).hasRoom queueLimit = true) :
    ({ w.setDesk a { w.desk a with mailbox := rest } with
      link := onOutput a o w.link } : Room).Good := by
  have hd := h.desk a ha
  have ho : OutputOk w.changes o := hd.mailbox o (by rw [hm]; exact List.mem_cons_self)
  refine ⟨fun n hn => ?_, fun p q f hf => ?_, fun n hn => ?_⟩
  · by_cases hna : n = a
    · subst hna
      have hd' : DeskOk w.changes n { w.desk n with mailbox := rest } :=
        ⟨hd.me, hd.names, hd.ahead, hd.hook, hd.suppress,
          fun o' h' => hd.mailbox o' (by rw [hm]; exact List.mem_cons_of_mem _ h'), hd.announced,
          hd.remote, hd.batch⟩
      simpa [setDesk] using hd'
    · simpa [setDesk, hna] using h.desk n hn
  · obtain hf' | ⟨m, k, rfl, rfl⟩ | ⟨es, rfl, rfl⟩ := mem_onOutput hf
    · exact h.frames p q f hf'
    · exact ho
    · exact ho
  · have hdesk : ∀ p, ((w.setDesk a { w.desk a with mailbox := rest }).desk p).announced =
        (w.desk p).announced ∧ ((w.setDesk a { w.desk a with mailbox := rest }).desk p).seen =
        (w.desk p).seen := by
      intro p
      by_cases hp : p = a
      · subst hp
        simp
      · rw [setDesk_other _ _ hp]
        exact ⟨rfl, rfl⟩
    refine (h.informed n hn).of_kept rfl (hdesk n).2.ge
      ((hdesk n).2.trans_lt (List.getElem?_eq_some_iff.mp (h.desk n hn).names).1) ?_
    rintro m k - (hs | ⟨p, hp, hpn, hmail | hf⟩)
    · exact .inl (.inl ((hdesk n).1.trans hs))
    · refine .inl (.inr ⟨p, hp, hpn, ?_⟩)
      by_cases hpa : p = a
      · subst hpa
        rw [hm] at hmail
        obtain rfl | hmail := List.mem_cons.mp hmail
        · refine .inr ?_
          have hroom := hok rfl n hn (Ne.symm hpn)
          simp [onOutput, onAnnounceOwner, Link.inFlight_offer, hroom]
        · exact .inl (by simpa [setDesk] using hmail)
      · exact .inl (by simpa [setDesk, hpa] using hmail)
    · exact .inl (.inr ⟨p, hp, hpn, .inr (onOutput_keeps hf)⟩)

theorem Good.cut {w : Room} (h : w.Good) (lost : MachineId → MachineId → Bool)
    (hok : ∀ p ∈ w.present, ∀ q ∈ w.present, lost p q = true →
      ∀ f ∈ (w.link p q).inFlight, f.isNotice = false) :
    ({ w with
      link := fun p q => if lost p q then (w.link p q).cut else w.link p q } : Room).Good := by
  refine h.relink _ (fun p q f hf => ?_) fun p hp n hn m k hf => ?_
  · by_cases hl : lost p q = true
    · simp [hl] at hf
    · exact h.frames p q f (by simpa [hl] using hf)
  · by_cases hl : lost p n = true
    · exact absurd (hok p hp n hn hl _ hf) (by simp [Frame.isNotice])
    · simpa [hl] using hf

theorem Good.leave {w : Room} {a : MachineId} (h : w.Good)
    (hmail : ∀ o ∈ (w.desk a).mailbox, announcedIn o = none)
    (hlink : ∀ b ∈ w.present, ∀ f ∈ (w.link a b).inFlight, f.isNotice = false) :
    ({ w with
      present := w.present.erase a
      link := fun p q => if p = a ∨ q = a then (w.link p q).cut else w.link p q } : Room).Good := by
  refine ⟨fun n hn => h.desk n (Finset.mem_of_mem_erase hn), fun p q f hf => ?_, fun n hn => ?_⟩
  · by_cases hl : p = a ∨ q = a
    · simp [hl] at hf
    · exact h.frames p q f (by simpa [hl] using hf)
  · obtain ⟨hna, hn'⟩ := Finset.mem_erase.mp hn
    refine (h.informed n hn').of_kept rfl le_rfl
      (List.getElem?_eq_some_iff.mp (h.desk n hn').names).1 ?_
    rintro m k - (hs | ⟨p, hp, hpn, hway⟩)
    · exact .inl (.inl hs)
    · have hpa : p ≠ a := by
        rintro rfl
        obtain ho | hf := hway
        · exact absurd (hmail _ ho) (by simp [announcedIn])
        · exact absurd (hlink n hn' _ hf) (by simp [Frame.isNotice])
      refine .inl (.inr ⟨p, Finset.mem_erase.mpr ⟨hpa, hp⟩, hpn, hway.imp id fun hf => ?_⟩)
      simpa [hpa, hna] using hf

theorem mem_present_of_waiting {w : Room} {a : MachineId} (h : w.waiting a = true) :
    a ∈ w.present := of_decide_eq_true (Bool.and_eq_true_iff.mp h).1

theorem Good.step {w t : Room} {a : Action} (h : w.Good) (hok : InOrder w a)
    (hs : w.step a = some t) : t.Good := by
  cases a with
  | «local» a event m =>
    simp only [Room.step, Option.ite_none_right_eq_some, Bool.and_eq_true_iff,
      Option.some.injEq] at hs
    obtain ⟨⟨hw, hf⟩, rfl⟩ := hs
    have ha := mem_present_of_waiting hw
    have k := h.handle (envOf (w.desk a) m) ⟨event, w.nextChange⟩ .local ha (h.desk a ha) rfl rfl
      rfl (fun _ => hf) (fun e => by simp [hf] at e) (fun e => by simp [hf] at e)
    rwa [heardIn_of_hook (s := ⟨event, w.nextChange⟩) hf] at k
  | receive a =>
    cases hr : (w.desk a).remoteInput with
    | nil => simp [Room.step, hr] at hs
    | cons events rest =>
      simp only [Room.step, hr, Option.ite_none_right_eq_some, Option.some.injEq] at hs
      obtain ⟨hw, rfl⟩ := hs
      exact h.receive (mem_present_of_waiting hw) hr
  | next a m =>
    cases hb : (w.desk a).batch with
    | nil => simp [Room.step, hb] at hs
    | cons s rest =>
      simp only [Room.step, hb, Option.ite_none_right_eq_some, Option.some.injEq] at hs
      obtain ⟨ha, rfl⟩ := hs
      have hd := h.desk a ha
      have hd' : DeskOk w.changes a { w.desk a with batch := rest } :=
        ⟨hd.me, hd.names, hd.ahead, hd.hook, hd.suppress, hd.mailbox, hd.announced, hd.remote,
          fun x hx => hd.batch x (by rw [hb]; exact List.mem_cons_of_mem _ hx)⟩
      exact h.handle _ s .remote ha hd' rfl rfl rfl (fun e => by cases e)
        (hd.batch s (by rw [hb]; exact List.mem_cons_self)) (hok s (by simp [hb]))
  | heartbeat a m =>
    simp only [Room.step, Option.ite_none_right_eq_some, Option.some.injEq] at hs
    obtain ⟨hw, rfl⟩ := hs
    exact h.heartbeat (mem_present_of_waiting hw) rfl hok
  | flush a m =>
    simp only [Room.step, Option.ite_none_right_eq_some, Option.some.injEq] at hs
    obtain ⟨hw, rfl⟩ := hs
    exact h.flush (mem_present_of_waiting hw) hok
  | post a =>
    cases hm : (w.desk a).mailbox with
    | nil => simp [Room.step, hm] at hs
    | cons o rest =>
      simp only [Room.step, hm, Option.ite_none_right_eq_some, Option.some.injEq] at hs
      obtain ⟨ha, rfl⟩ := hs
      exact h.post ha hm (hok o (by simp [hm]))
  | write a b =>
    obtain ⟨l, hl, rfl⟩ := Option.map_eq_some_iff.mp hs
    exact h.setLink (Link.inFlight_write hl)
  | read a b =>
    cases hr : (w.link a b).read with
    | none => simp [Room.step, hr] at hs
    | some fl =>
      obtain ⟨f, l⟩ := fl
      simp only [Room.step, hr, Option.ite_none_right_eq_some, Option.some.injEq] at hs
      obtain ⟨hb, rfl⟩ := hs
      exact h.read hb (Link.inFlight_read hr) (hok f (Link.head_of_read hr))
  | cut a b =>
    obtain rfl := Option.some.inj hs
    refine h.cut (joins a b) fun p _ q _ hj f hf => hok f ?_
    simp only [joins, Bool.or_eq_true, Bool.and_eq_true, decide_eq_true_eq] at hj
    obtain ⟨rfl, rfl⟩ | ⟨rfl, rfl⟩ := hj
    · exact List.mem_append_left _ hf
    · exact List.mem_append_right _ hf
  | offline a b =>
    simp only [Room.step, Option.ite_none_left_eq_some, Option.some.injEq, Bool.or_eq_true,
      decide_eq_true_eq, not_or, not_not] at hs
    obtain ⟨⟨-, ha⟩, rfl⟩ := hs
    have k : (w.setLink a b (w.link a b).forget).Good := h.setLink rfl
    have hd := h.desk a ha
    exact k.update ha ⟨hd.me, hd.names, hd.ahead, hd.hook, hd.suppress, hd.mailbox, hd.announced,
      hd.remote, hd.batch⟩ le_rfl (fun p hp _ => .inl hp) fun o ho => ho
  | leave a =>
    obtain rfl := Option.some.inj hs
    exact h.leave hok.1 hok.2

theorem Starts.good {w : Room} {o : MachineId} (h : Starts w o) : w.Good := by
  refine ⟨fun n hn => ?_, fun p q f hf => ?_, fun n hn => .inl ?_⟩
  · obtain ⟨hme, hown, hsup, hpend⟩ := h.router n hn
    obtain ⟨hseen, -, hmail, hslot, hrem, hbatch⟩ := h.desk n hn
    refine ⟨hme, by simp [h.changes, hseen, hown], ?_, hpend, by rw [hsup, hown], by simp [hmail],
      by simp [hslot], by simp [hrem], by simp [hbatch, Handoffs]⟩
    intro k hk
    simp [h.changes] at hk
  · simp [(h.link p q).1] at hf
  · rw [(h.desk n hn).1, h.changes]
    rfl

/-- Where nothing is on its way, everything known is the last change. -/
theorem Good.agreed {w : Room} (h : w.Good) (hs : Settled w) : Agreed w := by
  have hlatest : ∀ n ∈ w.present, (w.desk n).seen + 1 = w.changes.length := by
    intro n hn
    obtain hi | ⟨m, k, -, hslot | ⟨p, hp, -, ho | hf⟩⟩ := h.informed n hn
    · exact hi
    · simp [(hs n hn).1.2.1] at hslot
    · simp [(hs p hp).1.1] at ho
    · simp [(hs p hp).2.2.2 n hn] at hf
  by_cases hne : w.present.Nonempty
  · obtain ⟨n, hn⟩ := hne
    refine ⟨(w.desk n).router.owner, fun b hb => ?_⟩
    have hown : (w.desk b).router.owner = (w.desk n).router.owner := by
      have hseen : (w.desk b).seen = (w.desk n).seen := by
        have h₁ := hlatest b hb
        have h₂ := hlatest n hn
        omega
      have hb' := (h.desk b hb).names
      rw [hseen, (h.desk n hn).names] at hb'
      exact (Option.some.inj hb').symm
    refine ⟨?_, hown, hown ▸ (h.desk b hb).suppress⟩
    obtain ho | ho := (hs n hn).2.2.1
    · rw [ho]
      exact hn
    · exact (hs n hn).2.1 ho
  · exact ⟨0, fun b hb => absurd ⟨b, hb⟩ hne⟩

/-- As long as changes are taken in in order and none is lost, all machines agree on the owner
whenever nothing is on its way. -/
theorem agreed_of_settled {w₀ w : Room} {o : MachineId} {as : List Action} (h₀ : Starts w₀ o)
    (h : Run step InOrder w₀ as w) (hs : Settled w) : Agreed w :=
  (h.invariant (I := Good) (fun _ _ _ hi hok hs => hi.step hok hs) h₀.good).agreed hs

/-! Three machines, the pointer on the third. -/

def deskOf (present : Finset MachineId) (o n : MachineId) : Desk :=
  { os := .windows
    router :=
      { me := n, owner := o, cursor := ⟨0, 0⟩, pending := [],
        capture := ⟨decide (o ≠ n), false, 0⟩, out := [] }
    seen := 0
    online := present.erase n
    mailbox := []
    announced := none
    remoteInput := []
    batch := [] }

def roomOf (present : Finset MachineId) (o : MachineId) : Room :=
  { present := present
    desk := deskOf present o
    link := fun a b => if a ∈ present ∧ b ∈ present ∧ a ≠ b then .fresh else Link.fresh.cut.forget
    changes := [o] }

theorem starts_roomOf {present : Finset MachineId} {o : MachineId} (h : o ∈ present) :
    Starts (roomOf present o) o := by
  refine ⟨h, rfl, fun n _ => ⟨rfl, rfl, rfl, by simp [roomOf, deskOf]⟩,
    fun n _ => ⟨rfl, rfl, rfl, rfl, rfl, rfl⟩, fun a b => ⟨?_, fun ha hb hab => ?_⟩⟩
  · simp only [roomOf]
    split_ifs <;> rfl
  · exact if_pos ⟨ha, hb, hab⟩

def moment (now : ℕ) : Moment := ⟨none, none, now⟩

def departure : List Action := [.leave 3, .offline 1 3, .offline 2 3]

instance (w : Room) : Decidable (Settled w) := Finset.decidableDforallFinset

instance (w : Room) : (a : Action) → Decidable (InOrder w a)
  | .heartbeat a _ => inferInstanceAs (Decidable ((w.desk a).router.owner ≠ a →
      (w.desk a).router.owner ∉ (w.desk a).online →
      (w.desk a).router.owner ∉ w.present ∧ (w.desk a).seen + 1 = w.changes.length))
  | .flush a _ => inferInstanceAs (Decidable (∀ p ∈ (w.desk a).announced,
      p.1 = (w.desk a).router.owner ∨ (w.desk a).seen ≤ p.2))
  | .next a _ => inferInstanceAs (Decidable (∀ s ∈ (w.desk a).batch.head?,
      fromHook s.event = false → (w.desk a).router.owner = a ∨ (w.desk a).seen ≤ s.tag))
  | .post a => inferInstanceAs (Decidable (∀ o ∈ (w.desk a).mailbox.head?,
      (announcedIn o).isSome = true → ∀ b ∈ w.present, b ≠ a →
        (w.link a b).hasRoom queueLimit = true))
  | .read a b => inferInstanceAs (Decidable (∀ f ∈ (w.link a b).wire.head?,
      ∀ p ∈ (w.desk b).announced, f.notBefore p.2 = true))
  | .cut a b => inferInstanceAs (Decidable (∀ f ∈ (w.link a b).inFlight ++ (w.link b a).inFlight,
      f.isNotice = false))
  | .leave a => inferInstanceAs (Decidable ((∀ o ∈ (w.desk a).mailbox, announcedIn o = none) ∧
      ∀ b ∈ w.present, ∀ f ∈ (w.link a b).inFlight, f.isNotice = false))
  | .local .. | .receive _ | .write .. | .offline .. => .isTrue trivial

/-- The first machine takes the pointer back, and the second is told. -/
def takeBack : List Action :=
  departure ++ [.heartbeat 1 (moment 400), .post 1, .write 1 2, .read 1 2, .flush 2 (moment 404)]

theorem agreed_after_takeBack : ∃ w, Run step InOrder (roomOf {1, 2, 3} 3) takeBack w ∧
    Settled w ∧ Agreed w := by
  obtain ⟨w, hr, hs⟩ := run_of_replay step InOrder (roomOf {1, 2, 3} 3) takeBack
    (fun w => decide (Settled w)) (b := true) (by decide +kernel)
  have h := of_decide_eq_true hs
  exact ⟨w, hr, h, agreed_of_settled (starts_roomOf (by decide)) hr h⟩

/-- Both remaining machines take the pointer back before either has heard of the other. -/
def bothTakeBack : List Action :=
  departure ++ [.heartbeat 1 (moment 400), .heartbeat 2 (moment 401), .post 1, .post 2,
    .write 1 2, .write 2 1, .read 1 2, .read 2 1, .flush 1 (moment 404), .flush 2 (moment 405)]

/-- When two machines take the pointer back at once, both end up deaf to their own keyboards. -/
theorem deaf_after_both : Starts (roomOf {1, 2, 3} 3) 3 ∧
    ∃ w, Run step Any (roomOf {1, 2, 3} 3) bothTakeBack w ∧ Settled w ∧ ¬ Agreed w ∧
      w.present = {1, 2} ∧ ∀ n ∈ w.present, (w.desk n).router.capture.suppressing = true := by
  refine ⟨starts_roomOf (by decide), ?_⟩
  obtain ⟨w, hr, hs⟩ := run_of_replay step Any (roomOf {1, 2, 3} 3) bothTakeBack
    (fun w => decide (Settled w ∧ w.present = {1, 2} ∧ (w.desk 1).router.owner = 2 ∧
      (w.desk 2).router.owner = 1 ∧
      ∀ n ∈ w.present, (w.desk n).router.capture.suppressing = true))
    (b := true) (by decide +kernel)
  obtain ⟨hset, hp, h₁, h₂, hdeaf⟩ := of_decide_eq_true hs
  refine ⟨w, hr, hset, ?_, hp, hdeaf⟩
  rintro ⟨o, ho⟩
  have k₁ := (ho 1 (by simp [hp])).2.1
  have k₂ := (ho 2 (by simp [hp])).2.1
  rw [h₁] at k₁
  rw [h₂] at k₂
  exact absurd (k₁.trans k₂.symm) (by decide)

end Room
end InputShare

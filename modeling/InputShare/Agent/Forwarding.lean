import InputShare.Agent.Sharing

/-! Where a captured event takes effect: on this desktop, when the hook lets it through, and on
the machine it is forwarded to. -/
namespace InputShare
open Runs

namespace Router
variable {τ : Type}

def inputs (out : List (Output τ)) : List (MachineId × Sample τ) :=
  out.flatMap fun
    | .sendInput dest events => events.map (dest, ·)
    | _ => []

theorem inputs_append (xs ys : List (Output τ)) : inputs (xs ++ ys) = inputs xs ++ inputs ys := by
  simp [inputs]

@[simp] theorem inputs_announce (m : MachineId) (tag : τ) :
    inputs [.announceCursorOwner m tag] = [] := rfl

@[simp] theorem inputs_nil : inputs ([] : List (Output τ)) = [] := rfl

@[simp] theorem inputs_delivery (m : MachineId) (events : List (Sample τ)) :
    inputs (delivery m events) = events.map (m, ·) := by
  unfold delivery
  split_ifs with h
  · simp [h]
  · simp [inputs]

def sends (r : Router τ) : List (MachineId × Sample τ) := inputs r.outgoing

theorem mem_sends {r : Router τ} {dest : MachineId} {events : List (Sample τ)} {x : Sample τ}
    (h : .sendInput dest events ∈ r.out) (hx : x ∈ events) : (dest, x) ∈ r.sends := by
  refine List.mem_flatMap.mpr ⟨.sendInput dest events, ?_, List.mem_map.mpr ⟨x, hx, rfl⟩⟩
  exact List.mem_filter.mpr ⟨h, rfl⟩

theorem Named.sends {os : Os} {now : ℕ} {m : MachineId} {q : List (Sample τ)}
    {sent : List (Output τ)} {r t : Router τ} (h : Named os now m q sent r t) :
    t.sends = r.sends ++ inputs sent := by
  rw [Router.sends, h.outgoing, inputs_append, Router.sends]

section Taken
variable [DecidableEq τ] {os : Os} {env : Env} {tag : τ} {r t : Router τ}

def taken (r : Router τ) (x : Sample τ) : ℕ :=
  r.pending.count x + (r.sends.map Prod.snd).count x

theorem Quiet.taken (h : r.Quiet t) (x : Sample τ) : t.taken x = r.taken x := by
  rw [Router.taken, Router.sends, h.pending, h.outgoing, Router.taken, Router.sends]

theorem Named.taken {now : ℕ} {m : MachineId} {sent : List (Output τ)}
    (h : Named os now m [] sent r t) (x : Sample τ) :
    t.taken x = (r.sends.map Prod.snd).count x + ((inputs sent).map Prod.snd).count x := by
  rw [Router.taken, h.pending, h.sends, List.map_append, List.count_append, List.count_nil,
    Nat.zero_add]

theorem Named.taken_le {now : ℕ} {m : MachineId} {sent : List (Output τ)}
    (h : Named os now m [] sent r t) (hs : inputs sent = []) (x : Sample τ) :
    t.taken x ≤ r.taken x := by
  rw [h.taken, hs]
  simp [Router.taken]

theorem count_handoff {doc : WorkspaceDoc} {m : MachineId} {p : Point} {x : Sample τ}
    (hx : x.tag ≠ tag) : (handoff tag doc m p).count x = 0 :=
  List.count_eq_zero.mpr fun h => hx (mem_handoff h).2

theorem flush_taken (r : Router τ) (x : Sample τ) : r.flush.taken x ≤ r.taken x := by
  obtain ⟨-, -, hpend, -, hout⟩ := r.flush_spec
  rw [taken, sends, hpend, hout, inputs_append, List.map_append, List.count_append, taken, sends]
  unfold flushed
  split_ifs <;> simp
  omega

theorem handle_taken (os : Os) (env : Env) {tag : τ} (r : Router τ) (s : Sample τ)
    (source : Source) {x : Sample τ} (hx : x.tag ≠ tag) : (r.handle os env tag s source).taken x ≤
      r.taken x + if source = .local ∧ r.owner ≠ r.me ∧ s = x then 1 else 0 := by
  cases handle_spec os env tag s source r with
  | quiet _ h => exact (h.taken x).trans_le (Nat.le_add_right _ _)
  | queued hs ho h =>
    rw [h, hs]
    by_cases hsx : s = x
    · simp [taken, sends, ho, hsx, outgoing]
      omega
    · simp [taken, sends, hsx, outgoing]
  | entered a b hs he ho h => exact (h.taken_le rfl x).trans (Nat.le_add_right _ _)
  | crossed doc m p ho hd hm hon he h =>
    refine le_trans (le_of_eq ?_) (Nat.le_add_right _ _)
    rw [h.taken, inputs_append, inputs_delivery, inputs_announce, List.append_nil, List.map_map]
    have hmap : (r.pending ++ handoff tag doc m p).map (Prod.snd ∘ (m, ·)) =
        r.pending ++ handoff tag doc m p := by simp [Function.comp_def]
    rw [hmap, List.count_append, count_handoff hx, taken]
    omega

theorem onHeartbeat_taken (x : Sample τ) : (r.onHeartbeat os env tag).taken x ≤ r.taken x := by
  obtain h | ⟨-, -, h⟩ := onHeartbeat_spec os env tag r
  · rw [h]
    rfl
  · exact h.taken_le rfl x

theorem onFlush_taken (announced : Option MachineId) (x : Sample τ) :
    (r.onFlush os env announced).taken x ≤ r.taken x := by
  obtain ⟨-, h⟩ | ⟨m, -, -, h⟩ := onFlush_spec os env announced r
  · rw [h]
    exact r.flush_taken x
  · exact h.taken_le rfl x

theorem finish_taken (x : Sample τ) : (r.finish os env).taken x = r.taken x := by
  simp [finish, taken, sends, outgoing, emit, setSuppressing]

end Taken

def gives (env : Env) (event : InputEvent) (source : Source) (r : Router τ) : Option MachineId :=
  match event, source with
  | .cursorEnter .., .remote => if r.owner = r.me then none else some r.me
  | event, _ => if r.owner = r.me then r.destination env event else none

theorem gives_ne {env : Env} {event : InputEvent} {source : Source} {r : Router τ} {m : MachineId}
    (h : r.gives env event source = some m) : m ≠ r.owner := by
  unfold gives at h
  split at h
  · split_ifs at h with ho
    obtain rfl := Option.some.inj h
    exact Ne.symm ho
  · split_ifs at h with ho
    rw [ho]
    exact destination_ne h

theorem handle_owner (os : Os) (env : Env) (tag : τ) (s : Sample τ) (source : Source)
    (r : Router τ) : (r.handle os env tag s source).owner =
      (r.gives env s.event source).getD r.owner := by
  by_cases ho : r.owner = r.me
  · cases he : s.event with
    | mouseMove dx dy =>
      have heq : r.handle os env tag s source = r.onMotion os env tag dx dy source := by
        simp [handle, he, ho]
      have hgives : r.gives env (.mouseMove dx dy) source = r.destination env (.mouseMove dx dy) :=
        if_pos ho
      rw [heq, onMotion_owner, hgives]
    | cursorEnter x y =>
      obtain ⟨-, h⟩ | ⟨hne, -⟩ := enter_spec os env x y r
      · cases source with
        | «local» => simp [handle, gives, destination, he, ho]
        | remote => simpa [handle, gives, he, ho] using h.owner
      · exact absurd ho hne
    | _ => cases source <;> simp [handle, gives, destination, he, ho]
  · cases he : s.event with
    | cursorEnter x y =>
      obtain ⟨hown, -⟩ | ⟨-, h⟩ := enter_spec os env x y r
      · exact absurd hown ho
      · cases source with
        | «local» => simp [handle, gives, he, ho]
        | remote => simpa [handle, gives, he, ho] using h.owner
    | _ => cases source <;> simp [handle, gives, he, ho]

/-- The loop gives the pointer to `o`, if to anyone, and swallows local input accordingly. -/
structure Gave (o : Option MachineId) (r t : Router τ) : Prop where
  me : t.me = r.me
  owner : t.owner = o.getD r.owner
  suppressing : t.capture.suppressing =
    (o.map fun m => decide (m ≠ r.me)).getD r.capture.suppressing

section Gave
variable {os : Os} {env : Env} {tag : τ} {o : Option MachineId} {r t : Router τ}

theorem gave_handle (os : Os) (env : Env) (tag : τ) (s : Sample τ) (source : Source)
    (r : Router τ) : Gave (r.gives env s.event source) r (r.handle os env tag s source) := by
  have howner := r.handle_owner os env tag s source
  -- whom it names it gives the pointer to, and where nobody is named nothing changes
  have hnone : (r.handle os env tag s source).owner = r.owner →
      r.gives env s.event source = none := by
    intro hsame
    cases hg : r.gives env s.event source with
    | none => rfl
    | some m =>
      rw [hg, Option.getD_some, hsame] at howner
      exact absurd howner.symm (gives_ne hg)
  have hsome : ∀ {now : ℕ} {m : MachineId} {sent : List (Output τ)}, m ≠ r.owner →
      Named os now m [] sent r (r.handle os env tag s source) →
      r.gives env s.event source = some m := by
    intro now m sent hne h
    cases hg : r.gives env s.event source with
    | none =>
      rw [hg, Option.getD_none, h.owner] at howner
      exact absurd howner hne
    | some k =>
      rw [hg, Option.getD_some, h.owner] at howner
      rw [howner]
  refine ⟨handle_me .., howner, ?_⟩
  cases handle_spec os env tag s source r with
  | quiet _ h => rw [hnone h.owner, h.capture]; rfl
  | queued _ _ h => rw [hnone (by rw [h]), h]; rfl
  | entered x y _ _ ho h =>
    rw [hsome (Ne.symm ho) h, h.capture, Capture.setSuppressing_suppressing]
    rfl
  | crossed doc m p ho _ hm _ _ h =>
    rw [hsome (by rwa [ho]) h, h.capture, Capture.setSuppressing_suppressing]
    rfl

theorem gave_onHeartbeat (os : Os) (env : Env) (tag : τ) (r : Router τ) :
    Gave (if r.owner ≠ r.me ∧ r.owner ∉ env.online then some r.me else none) r
      (r.onHeartbeat os env tag) := by
  have howner := r.onHeartbeat_owner os env tag
  by_cases hgone : r.owner ≠ r.me ∧ r.owner ∉ env.online
  · rw [if_pos hgone]
    rw [if_neg (not_or.mpr hgone)] at howner
    obtain h | ⟨-, -, h⟩ := onHeartbeat_spec os env tag r
    · rw [h] at howner
      exact absurd howner hgone.1
    · exact ⟨h.me, howner, by rw [h.capture, Capture.setSuppressing_suppressing]; rfl⟩
  · rw [if_neg hgone]
    obtain h | ⟨ho, hoff, -⟩ := onHeartbeat_spec os env tag r
    · rw [h]
      exact ⟨rfl, rfl, rfl⟩
    · exact absurd ⟨ho, hoff⟩ hgone

theorem gave_onFlush (os : Os) (env : Env) (announced : Option MachineId) (r : Router τ) :
    Gave (announced.filter (· ≠ r.owner)) r (r.onFlush os env announced) := by
  obtain ⟨ha, h⟩ | ⟨m, rfl, hne, h⟩ := onFlush_spec os env announced r
  · have hnone : announced.filter (· ≠ r.owner) = none := by
      obtain rfl | rfl := ha <;> simp
    obtain ⟨hme, hown, -, hcap, -⟩ := r.flush_spec
    rw [hnone, h]
    exact ⟨hme, hown, by rw [hcap]; rfl⟩
  · have hsome : (some m).filter (· ≠ r.owner) = some m := by simp [hne]
    rw [hsome]
    exact ⟨h.me, h.owner, by rw [h.capture, Capture.setSuppressing_suppressing]; rfl⟩

end Gave

theorem eq_of_count_le_one [DecidableEq τ] {l : List (MachineId × Sample τ)} {x : Sample τ}
    (h : (l.map Prod.snd).count x ≤ 1) {m m' : MachineId} (hm : (m, x) ∈ l) (hm' : (m', x) ∈ l) :
    m = m' := by
  induction l with
  | nil => cases hm
  | cons p l ih =>
    by_cases hp : p.2 = x
    · have hnone : ∀ k, (k, x) ∉ l := by
        intro k hk
        have hpos : 0 < (l.map Prod.snd).count x :=
          List.count_pos_iff.mpr (List.mem_map.mpr ⟨(k, x), hk, rfl⟩)
        simp only [List.map_cons, hp, List.count_cons_self] at h
        omega
      have h₁ := (List.mem_cons.mp hm).resolve_right (hnone m)
      have h₂ := (List.mem_cons.mp hm').resolve_right (hnone m')
      exact congrArg Prod.fst (h₁.trans h₂.symm)
    · have hne : ∀ k, (k, x) ∈ p :: l → (k, x) ∈ l := fun k hk =>
        (List.mem_cons.mp hk).resolve_left fun e => hp (by rw [← e])
      refine ih ?_ (hne m hm) (hne m' hm')
      simpa [hp] using h

end Router

namespace Sharing

inductive Lands (s : Sharing) (x : Captured) : MachineId → Prop where
  /-- The hook let it through. -/
  | here (h : x ∈ s.passed) : Lands s x s.router.me
  | there {m : MachineId} {events : List Captured} (h : .sendInput m events ∈ s.router.out)
      (hx : x ∈ events) : Lands s x m

/-- Each captured key, button or wheel event takes effect on at most one machine. -/
def OneMachine (s : Sharing) : Prop :=
  ∀ e n, e.discrete = true → ∀ m m', s.Lands ⟨e, some n⟩ m → s.Lands ⟨e, some n⟩ m' → m = m'

/-- Whom a step gives the pointer to, if to anyone; a loop that ends leaves it here. -/
def gives (s : Sharing) : Action → Option MachineId
  | .take env => s.channel.head?.bind fun x => s.router.gives env x.event .local
  | .next env => s.batch.head?.bind fun e => s.router.gives env e .remote
  | .heartbeat env =>
    if s.router.owner ≠ s.router.me ∧ s.router.owner ∉ env.online then some s.router.me else none
  | .flush _ announced => announced.filter (· ≠ s.router.owner)
  | .stop _ => some s.router.me
  | _ => none

/-- The hook stops swallowing by itself: the escape hatch, or the watchdog. -/
def releases (os : Os) (s : Sharing) : Action → Bool
  | .escape => s.router.capture.suppressing
  | .decide now | .glance now =>
    s.router.capture.suppressing && !(s.router.capture.suppressingNow os now).2
  | _ => false

/-- Keeps a record of whether the hook has released since the loop last gave the pointer away. -/
def note (os : Os) (x : Sharing × Bool) (a : Action) : Bool :=
  releases os x.1 a || x.2 && (x.1.gives a).isNone

/-- No key, button or wheel event waits in the channel that the hook has let through. -/
def Cleared (s : Sharing) : Prop :=
  ∀ x ∈ s.channel, x.event.discrete = true → x ∉ s.passed

/-- The loop has not taken in the key, button or wheel event the hook is about to decide on. -/
def Ahead (s : Sharing) : Prop :=
  ∀ x ∈ s.deciding, x.event.discrete = true → x ∈ s.channel

/-- The hook decides on no key, button or wheel event while a release of its own stands; another
machine gets the pointer when none that was let through is still on its way to the loop, and this
one when none is on its way that may yet be. -/
def Timely (os : Os) (x : Sharing × Bool) : Action → Prop
  | .decide now => ∀ y ∈ x.1.deciding, y.event.discrete = true →
      x.2 = false ∧ releases os x.1 (.decide now) = false
  | a => ∀ m ∈ x.1.gives a, if m = x.1.router.me then x.1.Ahead else x.1.Cleared

instance (s : Sharing) : Decidable s.Cleared :=
  inferInstanceAs (Decidable (∀ x ∈ s.channel, x.event.discrete = true → x ∉ s.passed))

instance (s : Sharing) : Decidable s.Ahead :=
  inferInstanceAs (Decidable (∀ x ∈ s.deciding, x.event.discrete = true → x ∈ s.channel))

instance (os : Os) (x : Sharing × Bool) : (a : Action) → Decidable (Timely os x a)
  | .decide now => inferInstanceAs (Decidable (∀ y ∈ x.1.deciding, y.event.discrete = true →
      x.2 = false ∧ releases os x.1 (.decide now) = false))
  | .report _ | .glance _ | .rawInput .. | .escape | .take _ | .batch _ | .next _ | .heartbeat _
  | .flush .. | .stop _ => inferInstanceAs (Decidable (∀ m ∈ x.1.gives _,
      if m = x.1.router.me then x.1.Ahead else x.1.Cleared))

/-- How often an event is in the channel, waiting for the owner, or sent. -/
def load (s : Sharing) (x : Captured) : ℕ := s.channel.count x + s.router.taken x

structure Single (s : Sharing) : Prop where
  once : ∀ e n, s.load ⟨e, some n⟩ ≤ 1
  fresh : ∀ e n, s.reported ≤ n → s.load ⟨e, some n⟩ = 0

theorem single_start (os : Os) (me : MachineId) (env : Env) : (start os me env).Single := by
  have h : ∀ x, (start os me env).load x = 0 := fun x => rfl
  exact ⟨fun e n => by rw [h]; omega, fun e n _ => h _⟩

theorem Single.of_le {s t : Sharing} (h : s.Single) (hr : t.reported = s.reported)
    (hl : ∀ e n, t.load ⟨e, some n⟩ ≤ s.load ⟨e, some n⟩) : t.Single :=
  ⟨fun e n => (hl e n).trans (h.once e n), fun e n hn =>
    Nat.le_zero.mp ((hl e n).trans_eq (h.fresh e n (hr ▸ hn)))⟩

theorem Single.emit {s : Sharing} (h : s.Single) (event : InputEvent) : (s.emit event).Single := by
  have hl : ∀ e n, (s.emit event).load ⟨e, some n⟩ =
      s.load ⟨e, some n⟩ + if e = event ∧ n = s.reported then 1 else 0 := by
    intro e n
    simp only [Sharing.emit, load, List.count_append, List.count_singleton, beq_iff_eq,
      Sample.mk.injEq, Option.some.injEq]
    split_ifs <;> first | omega | (exfalso; simp_all)
  constructor
  · intro e n
    have h₁ := h.once e n
    have h₀ := h.fresh e n
    rw [hl]
    split_ifs with he
    · have := h₀ he.2.ge
      omega
    · omega
  · intro e n hn
    have hn' : s.reported + 1 ≤ n := hn
    have h₀ := h.fresh e n (by omega)
    rw [hl, h₀, if_neg (by omega)]

theorem Single.step {os : Os} {s t : Sharing} {a : Action} (h : s.Single)
    (hs : s.step os a = some t) : t.Single := by
  cases stepped hs with
  | report => exact ⟨(h.emit _).once, (h.emit _).fresh⟩
  | rawInput => exact h.emit _
  | swallow | pass | glance | escape | batch => exact h.of_le rfl fun _ _ => le_rfl
  | @take env x rest hc =>
    refine h.of_le rfl fun e n => ?_
    have hn : (⟨e, some n⟩ : Captured).tag ≠ none := by simp
    have k := s.router.handle_taken os env x .local hn
    simp only [load, hc, List.count_cons, beq_iff_eq]
    split_ifs at k ⊢ <;> simp_all <;> omega
  | @next env e =>
    refine h.of_le rfl fun e' n => Nat.add_le_add_left ?_ _
    have hn : (⟨e', some n⟩ : Captured).tag ≠ none := by simp
    simpa using s.router.handle_taken os env ⟨e, none⟩ .remote hn
  | heartbeat => exact h.of_le rfl fun _ _ => Nat.add_le_add_left (Router.onHeartbeat_taken _) _
  | flush => exact h.of_le rfl fun _ _ => Nat.add_le_add_left (Router.onFlush_taken _ _) _
  | stop => exact h.of_le rfl fun _ _ => Nat.add_le_add_left (Router.finish_taken _).le _

/-- Nothing that was let through is on its way to the owner. -/
def Apart (s : Sharing) : Prop :=
  ∀ e n, e.discrete = true → ⟨e, some n⟩ ∈ s.passed → s.router.taken ⟨e, some n⟩ = 0

theorem Apart.of_le {s t : Sharing} (h : s.Apart) (hp : t.passed = s.passed)
    (hl : ∀ e n, t.router.taken ⟨e, some n⟩ ≤ s.router.taken ⟨e, some n⟩) : t.Apart :=
  fun e n he hx => Nat.le_zero.mp ((hl e n).trans_eq (h e n he (hp ▸ hx)))

/-- A turn of the loop, by which `o` is given the pointer. -/
structure Turned (s t : Sharing) (o : Option MachineId) : Prop where
  gave : Router.Gave o s.router t.router
  running : t.running = s.running
  channel : t.channel ⊆ s.channel
  passed : t.passed = s.passed
  deciding : t.deciding = s.deciding
  reported : t.reported = s.reported
  /-- What it takes for the owner is for another machine, which stays the owner. -/
  taken : ∀ e n, t.router.taken ⟨e, some n⟩ ≤ s.router.taken ⟨e, some n⟩ ∨
    o = none ∧ s.router.owner ≠ s.router.me ∧ ⟨e, some n⟩ ∈ s.channel

/-- What keeps hook and loop together as long as the steps are timely. -/
structure InStep (x : Sharing × Bool) : Prop where
  single : x.1.Single
  apart : x.1.Apart
  numbered : ∀ e n, ⟨e, some n⟩ ∈ x.1.passed ∨ x.1.deciding = some ⟨e, some n⟩ → n < x.1.reported
  /-- Only a release of the hook keeps it from swallowing what is for another machine. -/
  swallows : x.1.running = true → x.1.router.owner ≠ x.1.router.me → x.2 = false →
    x.1.router.capture.suppressing = true
  cleared : x.1.running = true → x.1.router.owner ≠ x.1.router.me → x.1.Cleared
  /-- What the loop has taken before the hook decides is for another machine. -/
  taken : ∀ e n, x.1.deciding = some ⟨e, some n⟩ → e.discrete = true →
    x.1.router.taken ⟨e, some n⟩ ≠ 0 → x.1.running = true ∧ x.1.router.owner ≠ x.1.router.me

theorem Single.not_taken {s : Sharing} (h : s.Single) {e : InputEvent} {n : ℕ}
    (hc : ⟨e, some n⟩ ∈ s.channel) : s.router.taken ⟨e, some n⟩ = 0 := by
  have hpos := List.count_pos_iff.mpr hc
  have hone := h.once e n
  unfold load at hone
  omega

theorem InStep.turned {s t : Sharing} {b : Bool} {o : Option MachineId} (h : InStep (s, b))
    (ht : Turned s t o) (hrun : s.running = true) (hsingle : t.Single)
    (hok : ∀ m ∈ o, if m = s.router.me then s.Ahead else s.Cleared) :
    InStep (t, b && o.isNone) := by
  have howner : t.router.owner ≠ t.router.me →
      o = none ∧ s.router.owner ≠ s.router.me ∨ ∃ m, o = some m ∧ m ≠ s.router.me := by
    rw [ht.gave.owner, ht.gave.me]
    cases o with
    | none => exact fun ho => .inl ⟨rfl, ho⟩
    | some m => exact fun ho => .inr ⟨m, rfl, ho⟩
  constructor
  case single => exact hsingle
  case apart =>
    intro e n he hx
    rw [ht.passed] at hx
    obtain hle | ⟨-, ho, hc⟩ := ht.taken e n
    · exact Nat.le_zero.mp (hle.trans_eq (h.apart e n he hx))
    · exact absurd hx (h.cleared hrun ho _ hc he)
  case numbered =>
    intro e n hx
    rw [ht.passed, ht.deciding] at hx
    rw [ht.reported]
    exact h.numbered e n hx
  case swallows =>
    intro _ hnow hb
    rw [ht.gave.suppressing]
    obtain ⟨rfl, ho⟩ | ⟨m, rfl, hm⟩ := howner hnow
    · exact h.swallows hrun ho (by simpa using hb)
    · exact decide_eq_true hm
  case cleared =>
    intro _ hnow
    have hclear : s.Cleared := by
      obtain ⟨rfl, ho⟩ | ⟨m, rfl, hm⟩ := howner hnow
      · exact h.cleared hrun ho
      · simpa only [if_neg hm] using hok m rfl
    intro x hx he
    rw [ht.passed]
    exact hclear x (ht.channel hx) he
  case taken =>
    intro e n hd he hpos
    rw [ht.deciding] at hd
    -- it was on its way to another machine, or has just been taken for one
    obtain hle | ⟨rfl, ho, -⟩ := ht.taken e n
    swap
    · exact ⟨ht.running.trans hrun, by rwa [ht.gave.owner, ht.gave.me]⟩
    have htaken : s.router.taken ⟨e, some n⟩ ≠ 0 := fun h0 => hpos (Nat.le_zero.mp (h0 ▸ hle))
    refine ⟨ht.running.trans hrun, ?_⟩
    rw [ht.gave.owner, ht.gave.me]
    cases o with
    | none => exact (h.taken e n hd he htaken).2
    | some m =>
      rintro rfl
      have hahead := hok s.router.me rfl
      rw [if_pos rfl] at hahead
      exact htaken (h.single.not_taken (hahead _ hd he))

theorem InStep.hooked {s t : Sharing} {b c : Bool} (h : InStep (s, b)) (hsingle : t.Single)
    (hme : t.router.me = s.router.me) (hown : t.router.owner = s.router.owner)
    (hrun : t.running = s.running) (htaken : ∀ x, t.router.taken x = s.router.taken x)
    (hpassed : t.passed = s.passed) (hnum : ∀ e n, t.deciding = some ⟨e, some n⟩ →
      n < t.reported ∧ (s.deciding = some ⟨e, some n⟩ ∨ s.router.taken ⟨e, some n⟩ = 0))
    (hrep : s.reported ≤ t.reported)
    (hchan : ∀ x ∈ t.channel, x ∈ s.channel ∨ x.event.discrete = false ∨
      ∃ n, x.tag = some n ∧ s.reported ≤ n)
    (hsup : c = false → b = false ∧
      (s.router.capture.suppressing = true → t.router.capture.suppressing = true)) :
    InStep (t, c) := by
  constructor
  case single => exact hsingle
  case apart =>
    intro e n he hx
    rw [htaken]
    exact h.apart e n he (hpassed ▸ hx)
  case numbered =>
    rintro e n (hx | hx)
    · exact (h.numbered e n (.inl (hpassed ▸ hx))).trans_le hrep
    · exact (hnum e n hx).1
  case swallows =>
    intro hr ho hc
    obtain ⟨hb, hkeep⟩ := hsup hc
    exact hkeep (h.swallows (hrun ▸ hr) (by rwa [← hown, ← hme]) hb)
  case cleared =>
    intro hr ho x hx he
    rw [hpassed]
    obtain hold | hcont | ⟨n, hn, hlate⟩ := hchan x hx
    · exact h.cleared (hrun ▸ hr) (by rwa [← hown, ← hme]) x hold he
    · rw [he] at hcont
      cases hcont
    · intro hp
      obtain ⟨e, tag⟩ := x
      obtain rfl : tag = some n := hn
      exact absurd (h.numbered e n (.inl hp)) (not_lt.mpr hlate)
  case taken =>
    intro e n hd he hpos
    rw [htaken] at hpos
    rw [hrun, hown, hme]
    exact h.taken e n ((hnum e n hd).2.resolve_right hpos) he hpos

theorem turned_take {os : Os} {env : Env} {s : Sharing} {x : Captured} {rest : List Captured}
    (hc : s.channel = x :: rest) : Turned s
      { s with channel := rest, router := s.router.handle os env none x .local }
      (s.gives (.take env)) := by
  have hgives : s.gives (.take env) = s.router.gives env x.event .local := by simp [gives, hc]
  rw [hgives]
  refine ⟨Router.gave_handle .., rfl, ?_, rfl, rfl, rfl, fun e n => ?_⟩
  · rw [hc]
    exact List.subset_cons_self ..
  · have hn : (⟨e, some n⟩ : Captured).tag ≠ none := by simp
    have hle := s.router.handle_taken os env x .local hn
    split_ifs at hle with hx
    · obtain ⟨-, ho, rfl⟩ := hx
      refine .inr ⟨?_, ho, by simp [hc]⟩
      cases e <;> simp [Router.gives, ho]
    · exact .inl hle

theorem turned_next {os : Os} {env : Env} {s : Sharing} {e : InputEvent} {rest : List InputEvent}
    (hb : s.batch = e :: rest) : Turned s
      { s with batch := rest, router := s.router.handle os env none ⟨e, none⟩ .remote }
      (s.gives (.next env)) := by
  have hgives : s.gives (.next env) = s.router.gives env e .remote := by simp [gives, hb]
  rw [hgives]
  refine ⟨Router.gave_handle os env none ⟨e, none⟩ .remote s.router, rfl, List.Subset.refl _, rfl,
    rfl, rfl, fun e' n => .inl ?_⟩
  have hn : (⟨e', some n⟩ : Captured).tag ≠ none := by simp
  simpa using s.router.handle_taken os env ⟨e, none⟩ .remote hn

theorem turned_heartbeat (os : Os) (env : Env) (s : Sharing) : Turned s
    { s with router := s.router.onHeartbeat os env none } (s.gives (.heartbeat env)) :=
  ⟨Router.gave_onHeartbeat .., rfl, List.Subset.refl _, rfl, rfl, rfl,
    fun _ _ => .inl (Router.onHeartbeat_taken _)⟩

theorem turned_flush (os : Os) (env : Env) (announced : Option MachineId) (s : Sharing) : Turned s
    { s with router := s.router.onFlush os env announced } (s.gives (.flush env announced)) :=
  ⟨Router.gave_onFlush .., rfl, List.Subset.refl _, rfl, rfl, rfl,
    fun _ _ => .inl (Router.onFlush_taken _ _)⟩

theorem suppressing_suppressingNow (os : Os) (c : Capture) (now : ℕ) :
    (c.suppressingNow os now).1.suppressing = (c.suppressingNow os now).2 := by
  unfold Capture.suppressingNow
  split_ifs with h <;> simp_all

/-- What the hook lets through it lets through because the pointer is here, or the loop is gone. -/
theorem InStep.pass {os : Os} {s : Sharing} {b : Bool} {now : ℕ} {x : Captured} (h : InStep (s, b))
    (hok : Timely os (s, b) (.decide now)) (hd : s.deciding = some x)
    (hc : (s.router.capture.suppressingNow os now).2 = false) {t : Sharing}
    (ht : t = { s.setCapture (s.router.capture.suppressingNow os now).1 with
      deciding := none, passed := s.passed ++ [x] }) (hsingle : t.Single) :
    InStep (t, note os (s, b) (.decide now)) := by
  have hreleases : releases os s (.decide now) = s.router.capture.suppressing := by
    simp [releases, hc]
  have hswallows : note os (s, b) (.decide now) = false → s.running = true →
      s.router.owner = s.router.me := by
    intro hnote hr
    obtain ⟨hno, hb⟩ : s.router.capture.suppressing = false ∧ b = false := by
      simpa [note, gives, hreleases] using hnote
    by_contra ho
    rw [h.swallows hr ho hb] at hno
    cases hno
  have hhere : x.event.discrete = true → s.running = true → s.router.owner = s.router.me := by
    intro he
    obtain ⟨hb, hno⟩ := hok x hd he
    refine hswallows ?_
    dsimp only at hb hno
    simp [note, gives, hb, hno]
  subst ht
  constructor
  case single => exact hsingle
  case apart =>
    intro e n he hx
    obtain hx | hx := List.mem_append.mp hx
    · exact h.apart e n he hx
    · obtain rfl := List.mem_singleton.mp hx
      by_contra hpos
      obtain ⟨hr, ho⟩ := h.taken e n hd he hpos
      exact ho (hhere he hr)
  case numbered =>
    rintro e n (hx | hx)
    · obtain hx | hx := List.mem_append.mp hx
      · exact h.numbered e n (.inl hx)
      · obtain rfl := List.mem_singleton.mp hx
        exact h.numbered e n (.inr hd)
    · cases hx
  case swallows => exact fun hr ho hnote => absurd (hswallows hnote hr) ho
  case cleared =>
    intro hr ho y hy he hp
    obtain hp | hp := List.mem_append.mp hp
    · exact h.cleared hr ho y hy he hp
    · obtain rfl := List.mem_singleton.mp hp
      exact ho (hhere he hr)
  case taken =>
    intro e n hx
    cases hx

theorem InStep.step {os : Os} {x y : Sharing × Bool} {a : Action} (h : InStep x)
    (hok : Timely os x a) (hs : recording (step os) (note os) x a = some y) : InStep y := by
  obtain ⟨s, b⟩ := x
  obtain ⟨t, c⟩ := y
  obtain ⟨hs, rfl⟩ := recording_eq_some.mp hs
  have hsingle : t.Single := h.single.step hs
  have hloop : ∀ {o}, s.gives a = o → releases os s a = false →
      InStep (t, b && o.isNone) → InStep (t, note os (s, b) a) := fun ho hr hi => by
    simpa [note, ho, hr] using hi
  cases stepped hs with
  | pass hd hc => exact h.pass hok hd hc rfl hsingle
  | swallow hd hc =>
    refine h.hooked hsingle rfl rfl rfl (fun _ => rfl) rfl (fun e n hx => by cases hx) le_rfl
      (fun x hx => .inl hx) fun hnote => ?_
    have hb : b = false := by simpa [gives] using (Bool.or_eq_false_iff.mp hnote).2
    exact ⟨hb, fun _ => (suppressing_suppressingNow ..).trans hc⟩
  | @report event hl =>
    refine h.hooked hsingle rfl rfl rfl (fun _ => rfl) rfl (fun e n hx => ?_) (Nat.le_succ _)
      (fun x hx => ?_) fun hnote => ⟨by simpa [note, gives, releases] using hnote, id⟩
    · obtain ⟨rfl, rfl⟩ : event = e ∧ s.reported = n := by simpa using hx
      have hfresh := h.single.fresh event s.reported le_rfl
      unfold load at hfresh
      dsimp only at hfresh
      exact ⟨Nat.lt_succ_self _, .inr (by omega)⟩
    · obtain hx | hx := List.mem_append.mp hx
      · exact .inl hx
      · rw [List.mem_singleton.mp hx]
        exact .inr (.inr ⟨_, rfl, le_rfl⟩)
  | @rawInput dx dy hl =>
    refine h.hooked hsingle rfl rfl rfl (fun _ => rfl) rfl
      (fun e n hx => ⟨(h.numbered e n (.inr hx)).trans (Nat.lt_succ_self _), .inl hx⟩)
      (Nat.le_succ _) (fun x hx => ?_) fun hnote =>
        ⟨by simpa [note, gives, releases] using hnote, id⟩
    obtain hx | hx := List.mem_append.mp hx
    · exact .inl hx
    · rw [List.mem_singleton.mp hx]
      exact .inr (.inl rfl)
  | @glance now hl =>
    refine h.hooked hsingle rfl rfl rfl (fun _ => rfl) rfl
      (fun e n hx => ⟨h.numbered e n (.inr hx), .inl hx⟩) le_rfl (fun x hx => .inl hx)
      fun hnote => ?_
    obtain ⟨hno, hb⟩ := Bool.or_eq_false_iff.mp hnote
    refine ⟨by simpa [gives] using hb, fun hsup => ?_⟩
    refine (suppressing_suppressingNow ..).trans ?_
    simpa [releases, hsup] using hno
  | escape hl =>
    refine h.hooked hsingle rfl rfl rfl (fun _ => rfl) rfl
      (fun e n hx => ⟨h.numbered e n (.inr hx), .inl hx⟩) le_rfl (fun x hx => .inl hx)
      fun hnote => ?_
    obtain ⟨hno, hb⟩ := Bool.or_eq_false_iff.mp hnote
    refine ⟨by simpa [gives] using hb, fun hsup => ?_⟩
    rw [releases, hsup] at hno
    cases hno
  | batch hw =>
    exact h.hooked hsingle rfl rfl rfl (fun _ => rfl) rfl
      (fun e n hx => ⟨h.numbered e n (.inr hx), .inl hx⟩) le_rfl (fun x hx => .inl hx)
      fun hnote => ⟨by simpa [note, gives, releases] using hnote, id⟩
  | take hc hw =>
    exact hloop rfl rfl (h.turned (turned_take hc) hw hsingle hok)
  | next hb hw => exact hloop rfl rfl (h.turned (turned_next hb) hw hsingle hok)
  | heartbeat hw => exact hloop rfl rfl (h.turned (turned_heartbeat ..) hw hsingle hok)
  | flush hw => exact hloop rfl rfl (h.turned (turned_flush ..) hw hsingle hok)
  | @stop env =>
    have hahead := hok s.router.me rfl
    rw [if_pos rfl] at hahead
    constructor
    case single => exact hsingle
    case apart => exact h.apart.of_le rfl fun _ _ => (Router.finish_taken _).le
    case numbered => exact h.numbered
    case swallows | cleared =>
      intro hr
      cases hr
    case taken =>
      intro e n hd he hpos
      refine absurd ?_ hpos
      exact (Router.finish_taken _).trans (h.single.not_taken (hahead _ hd he))

theorem taken_pos {s : Sharing} {x : Captured} {m : MachineId} (h : (m, x) ∈ s.router.sends) :
    0 < s.router.taken x := by
  have hpos : 0 < (s.router.sends.map Prod.snd).count x :=
    List.count_pos_iff.mpr (List.mem_map.mpr ⟨(m, x), h, rfl⟩)
  exact hpos.trans_le (Nat.le_add_left _ _)

theorem oneMachine {s : Sharing} (h : s.Single) (ha : s.Apart) : s.OneMachine := by
  intro e n he m m' hm hm'
  have hnone : ⟨e, some n⟩ ∈ s.passed → ∀ k, (k, ⟨e, some n⟩) ∉ s.router.sends := by
    intro hp k hk
    have hpos := taken_pos hk
    have h0 := ha e n he hp
    omega
  cases hm with
  | here hp =>
    cases hm' with
    | here => rfl
    | there hout hx => exact absurd (Router.mem_sends hout hx) (hnone hp _)
  | there hout hx =>
    cases hm' with
    | here hp => exact absurd (Router.mem_sends hout hx) (hnone hp _)
    | there hout' hx' =>
      refine Router.eq_of_count_le_one ?_ (Router.mem_sends hout hx) (Router.mem_sends hout' hx')
      have hone := h.once e n
      unfold load Router.taken at hone
      omega

/-- As long as hook and loop keep time, every captured event takes effect on at most one machine:
the hook decides on none while a release of its own stands, and the pointer goes to another machine
only once the loop has taken in what was let through, and comes back only before it has taken in
what the hook is about to decide on. -/
theorem lands_on_one_machine {os : Os} {me : MachineId} {env : Env} {as : List Action}
    {s : Sharing} {released : Bool}
    (h : Run (recording (step os) (note os)) (Timely os) (start os me env, false) as
      (s, released)) : s.OneMachine := by
  have hi := h.invariant (I := InStep) (fun _ _ _ hi hok hs => hi.step hok hs)
    ⟨single_start os me env, fun _ _ _ hx => absurd hx List.not_mem_nil,
      fun _ _ hx => by simp [start] at hx, fun _ ho => absurd rfl ho, fun _ ho => absurd rfl ho,
      fun _ _ hx => by simp [start] at hx⟩
  exact oneMachine hi.single hi.apart

def keyA : InputEvent := .key 65 30 true false

/-- A key swallowed here and forwarded lands on the owner only; one pressed once the pointer is back
lands here. -/
theorem lands_on_the_owner : ∃ s released, Run (recording (step .windows) (note .windows))
      (Timely .windows) (start .windows 1 (nearby 2 0), false) [.flush (nearby 2 8) (some 2),
        .report keyA, .decide 9, .take (nearby 2 9), .flush (nearby 2 10) none, .flush (nearby 2 18)
        (some 1), .report keyA, .decide 19, .take (nearby 2 19), .flush (nearby 2 26) none]
      (s, released) ∧
    (∀ m, s.Lands ⟨keyA, some 0⟩ m → m = 2) ∧ ∀ m, s.Lands ⟨keyA, some 1⟩ m → m = 1 := by
  obtain ⟨⟨s, released⟩, hr, hs⟩ := run_of_replay (recording (step .windows) (note .windows))
    (Timely .windows) (start .windows 1 (nearby 2 0), false) [.flush (nearby 2 8) (some 2),
      .report keyA, .decide 9, .take (nearby 2 9), .flush (nearby 2 10) none, .flush (nearby 2 18)
      (some 1), .report keyA, .decide 19, .take (nearby 2 19), .flush (nearby 2 26) none]
    (fun x => decide (.sendInput 2 [⟨keyA, some 0⟩] ∈ x.1.router.out ∧
      ⟨keyA, some 1⟩ ∈ x.1.passed ∧ x.1.router.me = 1)) (b := true) (by decide +kernel)
  obtain ⟨hout, hp, hme⟩ := of_decide_eq_true hs
  have hone := lands_on_one_machine hr
  refine ⟨s, released, hr, fun m hm => hone keyA 0 rfl m 2 hm (.there hout
    (List.mem_singleton.mpr rfl)), fun m hm => ?_⟩
  exact (hone keyA 1 rfl m _ hm (.here hp)).trans hme

theorem not_oneMachine {s : Sharing} {n : ℕ} {m : MachineId} (hm : s.router.me ≠ m)
    (hp : ⟨keyA, some n⟩ ∈ s.passed) (hout : .sendInput m [⟨keyA, some n⟩] ∈ s.router.out) :
    ¬ s.OneMachine := fun hone =>
  hm (hone keyA n rfl _ m (.here hp) (.there hout (List.mem_singleton.mpr rfl)))

/-- After Ctrl+Alt+F12 a key acts here, and on the machine the loop still names as the owner. -/
theorem lands_twice_after_escape : ∃ s, Run (step .windows) Any
      (start .windows 1 (nearby 2 0)) [.flush (nearby 2 8) (some 2), .escape, .report keyA,
        .decide 9, .take (nearby 2 9), .flush (nearby 2 10) none] s ∧ ¬ s.OneMachine := by
  obtain ⟨s, hr, hs⟩ := run_of_replay (step .windows) Any
    (start .windows 1 (nearby 2 0)) [.flush (nearby 2 8) (some 2), .escape, .report keyA,
      .decide 9, .take (nearby 2 9), .flush (nearby 2 10) none]
    (fun s => decide (s.router.me ≠ 2 ∧ ⟨keyA, some 0⟩ ∈ s.passed ∧
      .sendInput 2 [⟨keyA, some 0⟩] ∈ s.router.out)) (b := true) (by decide +kernel)
  obtain ⟨hm, hp, hout⟩ := of_decide_eq_true hs
  exact ⟨s, hr, not_oneMachine hm hp hout⟩

/-- A key let through while the pointer is here is still in the channel when the pointer goes
elsewhere. -/
theorem lands_twice_after_handover : ∃ s, Run (step .windows) Any
      (start .windows 1 (nearby 2 0)) [.report keyA, .decide 7, .flush (nearby 2 8) (some 2),
        .take (nearby 2 9), .flush (nearby 2 10) none] s ∧ ¬ s.OneMachine := by
  obtain ⟨s, hr, hs⟩ := run_of_replay (step .windows) Any
    (start .windows 1 (nearby 2 0)) [.report keyA, .decide 7, .flush (nearby 2 8) (some 2),
      .take (nearby 2 9), .flush (nearby 2 10) none]
    (fun s => decide (s.router.me ≠ 2 ∧ ⟨keyA, some 0⟩ ∈ s.passed ∧
      .sendInput 2 [⟨keyA, some 0⟩] ∈ s.router.out)) (b := true) (by decide +kernel)
  obtain ⟨hm, hp, hout⟩ := of_decide_eq_true hs
  exact ⟨s, hr, not_oneMachine hm hp hout⟩

/-- The loop has sent a key on and has the pointer back before the hook decides on the key. -/
theorem lands_twice_after_return : ∃ s, Run (step .windows) Any
      (start .windows 1 (nearby 2 0)) [.flush (nearby 2 8) (some 2), .report keyA,
        .take (nearby 2 9), .flush (nearby 2 10) none, .flush (nearby 2 18) (some 1),
        .decide 19] s ∧
    ¬ s.OneMachine := by
  obtain ⟨s, hr, hs⟩ := run_of_replay (step .windows) Any
    (start .windows 1 (nearby 2 0)) [.flush (nearby 2 8) (some 2), .report keyA,
      .take (nearby 2 9), .flush (nearby 2 10) none, .flush (nearby 2 18) (some 1), .decide 19]
    (fun s => decide (s.router.me ≠ 2 ∧ ⟨keyA, some 0⟩ ∈ s.passed ∧
      .sendInput 2 [⟨keyA, some 0⟩] ∈ s.router.out)) (b := true) (by decide +kernel)
  obtain ⟨hm, hp, hout⟩ := of_decide_eq_true hs
  exact ⟨s, hr, not_oneMachine hm hp hout⟩

end Sharing
end InputShare

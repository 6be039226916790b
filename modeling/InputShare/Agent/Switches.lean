import InputShare.Agent.Agreement

/-! Connected machines of which some share their keyboard and mouse and some do not. A machine
that shares runs a routing loop, and what the others send it goes through the loop; on a machine
that does not, it is replayed. -/
namespace InputShare
open Links Runs

namespace Router
variable {τ : Type}

theorem destination_out (env : Env) (event : InputEvent) (r : Router τ) (out : List (Output τ)) :
    destination env event { r with out := out } = r.destination env event := by
  have hcursor : ({ r with out := out }.followDrift env).cursor = (r.followDrift env).cursor := by
    unfold followDrift
    cases env.pointerNow r.me with
    | none => rfl
    | some here =>
      dsimp only
      split_ifs <;> rfl
  unfold destination
  dsimp only
  rw [hcursor, (quiet_followDrift env r).me, (quiet_followDrift env { r with out := out }).me]

theorem outgoing_nil {r : Router τ} (h : r.out = []) : r.outgoing = [] := by
  rw [outgoing, h, List.filter_nil]

/-- A turn of the loop names a machine the router knows of, and announces no other. -/
structure Turn (known : MachineId → Prop) (r t : Router τ) : Prop where
  me : t.me = r.me
  owner : known t.owner
  announced : ∀ m tag, .announceCursorOwner m tag ∈ t.outgoing → m = t.owner

section Turn
variable {known : MachineId → Prop} {os : Os} {env : Env} {tag : τ} {r t : Router τ}

theorem Turn.silent (hme : t.me = r.me) (ho : known t.owner) (hout : t.out = []) :
    Turn known r t := by
  refine ⟨hme, ho, fun m tag hm => ?_⟩
  rw [outgoing_nil hout] at hm
  cases hm

theorem Quiet.turn (h : r.Quiet t) (ho : known r.owner) (hout : r.out = []) : Turn known r t := by
  refine ⟨h.me, h.owner ▸ ho, fun m tag hm => ?_⟩
  rw [h.outgoing, outgoing_nil hout] at hm
  cases hm

theorem Named.turn {now : ℕ} {m : MachineId} {q : List (Sample τ)} {sent : List (Output τ)}
    (h : Named os now m q sent r t) (ho : known m) (hout : r.out = [])
    (hs : ∀ m' tag, .announceCursorOwner m' tag ∈ sent → m' = m) : Turn known r t := by
  refine ⟨h.me, h.owner.symm ▸ ho, fun m' tag hm => ?_⟩
  rw [h.outgoing, outgoing_nil hout] at hm
  exact (hs m' tag hm).trans h.owner.symm

theorem announced_delivery {m : MachineId} {events : List (Sample τ)} {out : List (Output τ)}
    {m' : MachineId} {tag : τ} (h : .announceCursorOwner m' tag ∈ delivery m events ++ out) :
    .announceCursorOwner m' tag ∈ out := by
  unfold delivery at h
  split_ifs at h <;> simpa using h

theorem handle_turn {s : Sample τ} {source : Source} (hout : r.out = []) (ho : known r.owner)
    (hme : known r.me)
    (hd : r.owner = r.me → ∀ m ∈ r.destination env s.event, known m) :
    Turn known r (r.handle os env tag s source) := by
  cases handle_spec os env tag s source r with
  | quiet _ h => exact h.turn ho hout
  | queued _ _ h =>
    rw [h]
    exact .silent rfl ho hout
  | entered x y _ _ _ h => exact h.turn hme hout (by simp)
  | crossed doc m p hown _ hm _ he h =>
    obtain ⟨dx, dy, he⟩ := he
    have hmotion : r.handle os env tag s source = r.onMotion os env tag dx dy source := by
      simp [handle, he, hown]
    refine h.turn ?_ hout fun m' tag hm' => ?_
    · rw [hmotion] at h
      have howner := r.onMotion_owner os env tag dx dy source
      rw [h.owner] at howner
      cases hdest : r.destination env (.mouseMove dx dy) with
      | none =>
        rw [hdest, Option.getD_none, hown] at howner
        exact absurd howner hm
      | some k =>
        rw [hdest, Option.getD_some] at howner
        exact hd hown m (by rw [he, hdest, howner]; rfl)
    · have := announced_delivery hm'
      simp only [List.mem_singleton, Output.announceCursorOwner.injEq] at this
      exact this.1

theorem onHeartbeat_turn (hout : r.out = []) (ho : known r.owner) (hme : known r.me) :
    Turn known r (r.onHeartbeat os env tag) := by
  obtain h | ⟨-, -, h⟩ := onHeartbeat_spec os env tag r
  · rw [h]
    exact .silent rfl ho hout
  · exact h.turn hme hout (by simp)

theorem onFlush_turn {announced : Option MachineId} (hout : r.out = []) (ho : known r.owner)
    (ha : ∀ m ∈ announced, known m) : Turn known r (r.onFlush os env announced) := by
  obtain ⟨-, h⟩ | ⟨m, rfl, -, h⟩ := onFlush_spec os env announced r
  · rw [h]
    obtain ⟨hme, hown, -, -, hsent⟩ := r.flush_spec
    refine ⟨hme, hown.symm ▸ ho, fun m tag hm => ?_⟩
    rw [hsent, outgoing_nil hout] at hm
    unfold flushed at hm
    split_ifs at hm
    · cases hm
    · rw [← List.append_nil (delivery ..)] at hm
      cases announced_delivery hm
  · exact h.turn (ha m rfl) hout (by simp)

end Turn
end Router

structure Seat where
  os : Os
  /-- The switch. -/
  sharing : Bool
  loop : Option (Router ℕ)
  /-- Input from other machines, waiting for the loop; `none` while nothing routes it. -/
  remoteInput : Option (List (List (Sample ℕ)))
  /-- The rest of the batch the loop is working through. -/
  batch : List (Sample ℕ)
  /-- The last announcement received, waiting for a loop. -/
  announced : Option MachineId
  /-- What the loop has asked the networking actor for. -/
  mailbox : List (Output ℕ)
  /-- Input replayed on this desktop. -/
  injected : List InputEvent

namespace Seat

/-- Input arrives from a peer; without a loop, `accepted` of the events can be replayed. -/
def onInput (s : Seat) (events : List (Sample ℕ)) (accepted : ℕ) : Seat :=
  match s.remoteInput with
  | some queue =>
    if queue.length < Room.remoteLimit then { s with remoteInput := some (queue ++ [events]) }
    else s
  | none => { s with injected := s.injected ++ (events.map Sample.event).take accepted }

def onFrame (s : Seat) (accepted : ℕ) : Frame → Seat
  | .cursorOwner machine _ => { s with announced := some machine }
  | .input events => s.onInput events accepted

/-- The loop runs `f`. -/
def turn (s : Seat) (r : Router ℕ) (f : Router ℕ → Router ℕ) : Seat :=
  let t := f { r with out := [] }
  { s with loop := some t, mailbox := s.mailbox ++ t.outgoing }

end Seat

structure Floor where
  members : Finset MachineId
  seat : MachineId → Seat
  link : MachineId → MachineId → Link Frame

namespace Floor

inductive Action where
  /-- The person at `a` turns sharing on or off. -/
  | share (a : MachineId) (on : Bool) (env : Env)
  /-- The loop of `a` ends: it was told to stop, or one of its channels is closed. -/
  | finish (a : MachineId)
  /-- The loop handles something its own devices did. -/
  | «local» (a : MachineId) (event : InputEvent) (env : Env)
  /-- It starts on the next batch of remote input. -/
  | receive (a : MachineId)
  | next (a : MachineId) (env : Env)
  | heartbeat (a : MachineId) (env : Env)
  | flush (a : MachineId) (env : Env)
  /-- The actor of `a` does the next thing it was asked for. -/
  | post (a : MachineId)
  | write (a b : MachineId)
  | read (a b : MachineId) (accepted : ℕ)
  /-- A session between `a` and `b` is lost, or replaced. -/
  | reconnect (a b : MachineId) (up : Bool)

def set (w : Floor) (a : MachineId) (s : Seat) : Floor :=
  { w with seat := Function.update w.seat a s }

def setLink (w : Floor) (a b : MachineId) (l : Link Frame) : Floor :=
  { w with link := Function.update w.link a (Function.update (w.link a) b l) }

/-- The loop of `a`, when it waits in its `select`. -/
def waiting (w : Floor) (a : MachineId) : Option (Router ℕ) :=
  if a ∈ w.members ∧ (w.seat a).batch = [] then (w.seat a).loop else none

/-- Stopping waits until the loop is gone; a second capture is refused. -/
def step (w : Floor) : Action → Option Floor
  | .share a on env =>
    let s := w.seat a
    if a ∉ w.members then none
    else if on = s.sharing then some w
    else if on = false then some (w.set a { s with sharing := false })
    else if s.loop.isSome then some w
    else some (w.set a { s with
      sharing := true
      loop := some (.start s.os a env)
      remoteInput := some []
      batch := [] })
  | .finish a =>
    (w.waiting a).map fun _ => w.set a { w.seat a with loop := none, remoteInput := none }
  | .local a event env => do
    let r ← w.waiting a
    let s := w.seat a
    if Room.fromHook event then
      some (w.set a (s.turn r fun r => r.handle s.os env 0 ⟨event, 0⟩ .local))
    else none
  | .receive a => do
    let _ ← w.waiting a
    match (w.seat a).remoteInput with
    | some (events :: rest) =>
      some (w.set a { w.seat a with remoteInput := some rest, batch := events })
    | _ => none
  | .next a env =>
    let s := w.seat a
    match s.loop, s.batch with
    | some r, x :: rest =>
      if a ∈ w.members then
        some (w.set a (({ s with batch := rest } : Seat).turn r fun r =>
          r.handle s.os env 0 x .remote))
      else none
    | _, _ => none
  | .heartbeat a env => do
    let r ← w.waiting a
    let s := w.seat a
    some (w.set a (s.turn r fun r => r.onHeartbeat s.os env 0))
  | .flush a env => do
    let r ← w.waiting a
    let s := w.seat a
    some (w.set a (({ s with announced := none } : Seat).turn r fun r =>
      r.onFlush s.os env s.announced))
  | .post a =>
    let s := w.seat a
    match s.mailbox with
    | [] => none
    | o :: rest =>
      if a ∈ w.members then
        some { w.set a { s with mailbox := rest } with link := Room.onOutput a o w.link }
      else none
  | .write a b => (w.link a b).write.map (w.setLink a b)
  | .read a b accepted =>
    match (w.link a b).read with
    | none => none
    | some (f, l) =>
      if a ∈ w.members ∧ b ∈ w.members then
        some ((w.setLink a b l).set b ((w.seat b).onFrame accepted f))
      else none
  | .reconnect a b up =>
    let l : Link Frame := if up then .fresh else (w.link a b).cut
    some ((w.setLink a b l).setLink b a l)

def Routes (w : Floor) (m : MachineId) : Prop := m ∈ w.members ∧ (w.seat m).loop.isSome

instance (w : Floor) (m : MachineId) : Decidable (w.Routes m) :=
  inferInstanceAs (Decidable (_ ∧ _))

/-- The loop that has the pointer takes it across only to a machine that routes as well. -/
def CrossesToRouting (w : Floor) (a : MachineId) (event : InputEvent) (env : Env) : Prop :=
  ∀ r ∈ (w.seat a).loop, r.owner = a → ∀ m ∈ r.destination env event, w.Routes m

instance (w : Floor) (a : MachineId) (event : InputEvent) (env : Env) :
    Decidable (w.CrossesToRouting a event env) :=
  inferInstanceAs (Decidable (∀ r ∈ (w.seat a).loop, r.owner = a →
    ∀ m ∈ r.destination env event, w.Routes m))

def announcedBy : Frame → Option MachineId
  | .cursorOwner machine _ => some machine
  | .input _ => none

/-- No other loop names the machine or is about to, and no announcement of it is on its way. -/
def Unnamed (w : Floor) (a : MachineId) : Prop :=
  ∀ n ∈ w.members,
    (n ≠ a → ∀ r ∈ (w.seat n).loop, r.owner ≠ a ∧ (w.seat n).announced ≠ some a) ∧
    (∀ o ∈ (w.seat n).mailbox, Room.announcedIn o ≠ some a) ∧
    ∀ b ∈ w.members, ∀ f ∈ (w.link n b).inFlight, announcedBy f ≠ some a

instance (w : Floor) (a : MachineId) : Decidable (w.Unnamed a) :=
  inferInstanceAs (Decidable (∀ n ∈ w.members,
    (n ≠ a → ∀ r ∈ (w.seat n).loop, r.owner ≠ a ∧ (w.seat n).announced ≠ some a) ∧
    (∀ o ∈ (w.seat n).mailbox, Room.announcedIn o ≠ some a) ∧
    ∀ b ∈ w.members, ∀ f ∈ (w.link n b).inFlight, announcedBy f ≠ some a))

/-- The pointer crosses only to a machine that shares, a machine stops sharing only when nothing
gives it the pointer, and starts only when what it was last told is no longer to be feared. -/
def KeepsLoops (w : Floor) : Action → Prop
  | .local a event env => w.CrossesToRouting a event env
  | .next a env => ∀ x ∈ (w.seat a).batch.head?, w.CrossesToRouting a x.event env
  | .share a true _ => ∀ m ∈ (w.seat a).announced, m = a ∨ w.Routes m
  | .finish a => w.Unnamed a
  | _ => True

instance (w : Floor) : (a : Action) → Decidable (w.KeepsLoops a)
  | .local a event env => inferInstanceAs (Decidable (w.CrossesToRouting a event env))
  | .next a env => inferInstanceAs (Decidable
      (∀ x ∈ (w.seat a).batch.head?, w.CrossesToRouting a x.event env))
  | .share a true _ => inferInstanceAs (Decidable
      (∀ m ∈ (w.seat a).announced, m = a ∨ w.Routes m))
  | .finish a => inferInstanceAs (Decidable (w.Unnamed a))
  | .share _ false _ | .receive _ | .heartbeat .. | .flush .. | .post _ | .write .. | .read ..
  | .reconnect .. => .isTrue trivial

/-- Machines that are just up: nobody shares, and nothing is on its way. -/
structure Starts (w : Floor) : Prop where
  seat : ∀ a ∈ w.members, (w.seat a).loop = none ∧ (w.seat a).remoteInput = none ∧
    (w.seat a).mailbox = []
  link : ∀ a b, (w.link a b).inFlight = []

/-- The machine a loop names as the owner runs a loop too, and what is forwarded to it is not
replayed but goes through that loop. -/
def PointerCanReturn (w : Floor) : Prop :=
  ∀ a ∈ w.members, ∀ r ∈ (w.seat a).loop, r.owner ≠ a → w.Routes r.owner ∧
    ∀ events n, ((w.seat r.owner).onInput events n).injected = (w.seat r.owner).injected

/-! Every machine that is named, or will be, runs a loop. -/

structure SeatOk (known : MachineId → Prop) (a : MachineId) (s : Seat) : Prop where
  me : ∀ r ∈ s.loop, r.me = a
  names : ∀ r ∈ s.loop, known r.owner
  told : s.loop.isSome → ∀ m ∈ s.announced, known m
  asked : ∀ m tag, .announceCursorOwner m tag ∈ s.mailbox → known m
  sink : s.loop.isSome = s.remoteInput.isSome

structure Good (w : Floor) : Prop where
  seat : ∀ a ∈ w.members, SeatOk w.Routes a (w.seat a)
  link : ∀ a ∈ w.members, ∀ b ∈ w.members, ∀ m tag,
    .cursorOwner m tag ∈ (w.link a b).inFlight → w.Routes m

theorem SeatOk.mono {p q : MachineId → Prop} {a : MachineId} {s : Seat} (h : SeatOk p a s)
    (hpq : ∀ m, p m → q m) : SeatOk q a s :=
  ⟨h.me, fun r hr => hpq _ (h.names r hr), fun hl m hm => hpq m (h.told hl m hm),
    fun m tag hm => hpq m (h.asked m tag hm), h.sink⟩

@[simp] theorem set_same (w : Floor) (a : MachineId) (s : Seat) : (w.set a s).seat a = s := by
  simp [set]

theorem set_other (w : Floor) {a n : MachineId} (s : Seat) (h : n ≠ a) :
    (w.set a s).seat n = w.seat n := by
  simp [set, h]

theorem Routes.set {w : Floor} {a : MachineId} {s : Seat}
    (hl : (w.seat a).loop.isSome → s.loop.isSome) {m : MachineId} (h : w.Routes m) :
    (w.set a s).Routes m := by
  refine ⟨h.1, ?_⟩
  by_cases hm : m = a
  · subst hm
    rw [set_same]
    exact hl h.2
  · rw [set_other w s hm]
    exact h.2

theorem Good.set {w : Floor} {a : MachineId} {s : Seat} (h : w.Good)
    (hl : (w.seat a).loop.isSome → s.loop.isSome) (hs : SeatOk (w.set a s).Routes a s) :
    (w.set a s).Good := by
  refine ⟨fun n hn => ?_, fun p hp q hq m tag hm => (h.link p hp q hq m tag hm).set hl⟩
  by_cases hna : n = a
  · subst hna
    rwa [set_same]
  · rw [set_other w s hna]
    exact (h.seat n hn).mono fun m hm => hm.set hl

theorem waiting_some {w : Floor} {a : MachineId} {r : Router ℕ} (h : w.waiting a = some r) :
    a ∈ w.members ∧ (w.seat a).loop = some r := by
  unfold waiting at h
  split at h
  · rename_i ha
    exact ⟨ha.1, h⟩
  · cases h

theorem Good.turn {w : Floor} {a : MachineId} {s : Seat} {r : Router ℕ}
    {f : Router ℕ → Router ℕ} (h : w.Good) (ha : a ∈ w.members)
    (hr : (w.seat a).loop = some r) (hbox : s.mailbox = (w.seat a).mailbox)
    (hsink : s.remoteInput = (w.seat a).remoteInput)
    (htold : s.announced = (w.seat a).announced ∨ s.announced = none)
    (ht : Router.Turn w.Routes { r with out := [] } (f { r with out := [] })) :
    (w.set a (s.turn r f)).Good := by
  have hseat := h.seat a ha
  have hl : (w.seat a).loop.isSome → (s.turn r f).loop.isSome := fun _ => rfl
  refine h.set hl (SeatOk.mono (p := w.Routes) ⟨?_, ?_, fun _ m hm => ?_, fun m tag hm => ?_, ?_⟩
    fun m hm => hm.set hl)
  · rintro t ⟨⟩
    exact ht.me.trans (hseat.me r hr)
  · rintro t ⟨⟩
    exact ht.owner
  · obtain he | he := htold
    · exact hseat.told (by rw [hr]; rfl) m (he ▸ hm)
    · rw [show (s.turn r f).announced = s.announced from rfl, he] at hm
      cases hm
  · obtain hm | hm := List.mem_append.mp hm
    · exact hseat.asked m tag (hbox ▸ hm)
    · rw [ht.announced m tag hm]
      exact ht.owner
  · rw [show (s.turn r f).remoteInput = s.remoteInput from rfl, hsink, ← hseat.sink, hr]
    rfl

theorem Good.loop {w : Floor} {a : MachineId} {r : Router ℕ} (h : w.Good) (ha : a ∈ w.members)
    (hr : (w.seat a).loop = some r) : r.me = a ∧ w.Routes r.owner ∧ w.Routes r.me := by
  have hme := (h.seat a ha).me r hr
  refine ⟨hme, (h.seat a ha).names r hr, ?_⟩
  rw [hme]
  exact ⟨ha, by rw [hr]; rfl⟩

theorem mem_setLink {w : Floor} {a b p q : MachineId} {l : Link Frame} {f : Frame}
    (h : f ∈ ((w.setLink a b l).link p q).inFlight) :
    f ∈ l.inFlight ∨ f ∈ (w.link p q).inFlight := by
  by_cases hpq : p = a ∧ q = b
  · obtain ⟨rfl, rfl⟩ := hpq
    exact .inl (by simpa [setLink] using h)
  · refine .inr ?_
    by_cases hp : p = a
    · have hq : q ≠ b := fun hq => hpq ⟨hp, hq⟩
      subst hp
      simpa [setLink, hq] using h
    · simpa [setLink, hp] using h

theorem Good.setLink {w : Floor} {a b : MachineId} {l : Link Frame} (h : w.Good)
    (hl : ∀ f ∈ l.inFlight, f ∈ (w.link a b).inFlight)
    (hab : l.inFlight ≠ [] → a ∈ w.members ∧ b ∈ w.members) : (w.setLink a b l).Good := by
  refine ⟨h.seat, fun p hp q hq m tag hm => ?_⟩
  obtain hm | hm := mem_setLink hm
  · obtain ⟨ha, hb⟩ := hab (List.ne_nil_of_mem hm)
    exact h.link a ha b hb m tag (hl _ hm)
  · exact h.link p hp q hq m tag hm

theorem Good.start {w : Floor} {a : MachineId} (h : w.Good) (ha : a ∈ w.members) (env : Env)
    (hok : ∀ m ∈ (w.seat a).announced, m = a ∨ w.Routes m) :
    (w.set a { w.seat a with
      sharing := true
      loop := some (.start (w.seat a).os a env)
      remoteInput := some []
      batch := [] }).Good := by
  have hself : (w.set a { w.seat a with
      sharing := true
      loop := some (.start (w.seat a).os a env)
      remoteInput := some []
      batch := [] }).Routes a := ⟨ha, by rw [set_same]; rfl⟩
  refine h.set (fun _ => rfl) ⟨?_, ?_, fun _ m hm => ?_, fun m tag hm => ?_, rfl⟩
  · rintro t ⟨⟩
    rfl
  · rintro t ⟨⟩
    exact hself
  · obtain rfl | hm := hok m hm
    · exact hself
    · exact hm.set fun _ => rfl
  · exact ((h.seat a ha).asked m tag hm).set fun _ => rfl

theorem Good.finish {w : Floor} {a : MachineId} (h : w.Good) (hok : w.Unnamed a) :
    (w.set a { w.seat a with loop := none, remoteInput := none }).Good := by
  -- every other machine routes as before
  have hkeep : ∀ m, m ≠ a → w.Routes m →
      (w.set a { w.seat a with loop := none, remoteInput := none }).Routes m := by
    intro m hm hr
    refine ⟨hr.1, ?_⟩
    rw [set_other w _ hm]
    exact hr.2
  have hasked : ∀ n ∈ w.members, ∀ m tag, .announceCursorOwner m tag ∈ (w.seat n).mailbox →
      (w.set a { w.seat a with loop := none, remoteInput := none }).Routes m := by
    intro n hn m tag hm
    refine hkeep m ?_ ((h.seat n hn).asked m tag hm)
    rintro rfl
    exact (hok n hn).2.1 _ hm rfl
  refine ⟨fun n hn => ?_, fun p hp q hq m tag hm => ?_⟩
  · by_cases hna : n = a
    · subst hna
      rw [set_same]
      exact ⟨by rintro r ⟨⟩, by rintro r ⟨⟩, by rintro ⟨⟩, hasked n hn, rfl⟩
    · rw [set_other w _ hna]
      have hs := h.seat n hn
      have hun := (hok n hn).1 hna
      refine ⟨hs.me, fun r hr => hkeep _ (hun r hr).1 (hs.names r hr), fun hl m hm => ?_,
        hasked n hn, hs.sink⟩
      obtain ⟨r, hr⟩ := Option.isSome_iff_exists.mp hl
      refine hkeep m ?_ (hs.told hl m hm)
      rintro rfl
      exact (hun r hr).2 hm
  · refine hkeep m ?_ (h.link p hp q hq m tag hm)
    rintro rfl
    exact (hok p hp).2.2 q hq _ hm rfl

theorem onFrame_spec (s : Seat) (n : ℕ) (f : Frame) : (s.onFrame n f).loop = s.loop ∧
    (s.onFrame n f).mailbox = s.mailbox ∧
    (s.onFrame n f).remoteInput.isSome = s.remoteInput.isSome ∧
    ∀ m ∈ (s.onFrame n f).announced, m ∈ s.announced ∨ ∃ tag, f = .cursorOwner m tag := by
  cases f with
  | cursorOwner m tag =>
    refine ⟨rfl, rfl, rfl, fun m' hm => .inr ⟨tag, ?_⟩⟩
    rw [Option.some.inj hm]
  | input events =>
    unfold Seat.onFrame Seat.onInput
    dsimp only
    split
    · rename_i queue hq
      split
      · exact ⟨rfl, rfl, by rw [hq]; rfl, fun m hm => .inl hm⟩
      · exact ⟨rfl, rfl, rfl, fun m hm => .inl hm⟩
    · exact ⟨rfl, rfl, rfl, fun m hm => .inl hm⟩

theorem Good.read {w : Floor} {a b : MachineId} {l : Link Frame} {f : Frame} {n : ℕ} (h : w.Good)
    (ha : a ∈ w.members) (hb : b ∈ w.members) (hr : (w.link a b).read = some (f, l)) :
    ((w.setLink a b l).set b ((w.seat b).onFrame n f)).Good := by
  have hin := Link.inFlight_read hr
  have hlink : (w.setLink a b l).Good :=
    h.setLink (fun g hg => by rw [hin]; exact List.mem_cons_of_mem f hg) fun _ => ⟨ha, hb⟩
  have hs := h.seat b hb
  obtain ⟨hloop, hbox, hsink, htold⟩ := onFrame_spec (w.seat b) n f
  have hl : ((w.setLink a b l).seat b).loop.isSome → ((w.seat b).onFrame n f).loop.isSome := by
    rw [hloop]
    exact id
  refine hlink.set hl (SeatOk.mono (p := w.Routes) ⟨hloop ▸ hs.me, hloop ▸ hs.names, ?_,
    hbox ▸ hs.asked, by rw [hloop, hsink, hs.sink]⟩ fun m hm => hm.set hl)
  rw [hloop]
  intro hsome m hm
  obtain hm | ⟨tag, rfl⟩ := htold m hm
  · exact hs.told hsome m hm
  · exact h.link a ha b hb m tag (by rw [hin]; exact List.mem_cons_self)

theorem Good.post {w : Floor} {a : MachineId} {o : Output ℕ} {rest : List (Output ℕ)}
    (h : w.Good) (ha : a ∈ w.members) (hbox : (w.seat a).mailbox = o :: rest) :
    ({ w.set a { w.seat a with mailbox := rest } with
      link := Room.onOutput a o w.link } : Floor).Good := by
  have hs := h.seat a ha
  have hset : (w.set a { w.seat a with mailbox := rest }).Good := by
    refine h.set id (SeatOk.mono (p := w.Routes) ⟨hs.me, hs.names, hs.told, ?_, hs.sink⟩
      fun m hm => Routes.set (by exact id) hm)
    intro m tag hm
    exact hs.asked m tag (by rw [hbox]; exact List.mem_cons_of_mem o hm)
  have hroutes : ∀ m, w.Routes m → (w.set a { w.seat a with mailbox := rest }).Routes m :=
    fun m hm => Routes.set (by exact id) hm
  refine ⟨hset.seat, fun p hp q hq m tag hm => hroutes m ?_⟩
  obtain hm | ⟨m', k, rfl, he⟩ | ⟨es, -, he⟩ := Room.mem_onOutput hm
  · exact h.link p hp q hq m tag hm
  · obtain ⟨rfl, rfl⟩ := Frame.cursorOwner.inj he
    exact hs.asked m tag (by rw [hbox]; exact List.mem_cons_self)
  · cases he

theorem Good.share {w v : Floor} {a : MachineId} {on : Bool} {env : Env} (h : w.Good)
    (hok : w.KeepsLoops (.share a on env)) (hs : w.step (.share a on env) = some v) : v.Good := by
  simp only [Floor.step] at hs
  split at hs
  · cases hs
  rename_i ha
  split at hs
  · obtain rfl := Option.some.inj hs
    exact h
  split at hs
  · obtain rfl := Option.some.inj hs
    have hseat := h.seat a (not_not.mp ha)
    exact h.set id (SeatOk.mono (p := w.Routes)
      ⟨hseat.me, hseat.names, hseat.told, hseat.asked, hseat.sink⟩
      fun m hm => Routes.set (by exact id) hm)
  rename_i hon
  obtain rfl : on = true := by simpa using hon
  split at hs
  · obtain rfl := Option.some.inj hs
    exact h
  · obtain rfl := Option.some.inj hs
    exact h.start (not_not.mp ha) env hok

theorem Good.receive {w v : Floor} {a : MachineId} (h : w.Good)
    (hs : w.step (.receive a) = some v) : v.Good := by
  simp only [Floor.step, Option.bind_eq_bind, Option.bind_eq_some_iff] at hs
  obtain ⟨r, hr, hs⟩ := hs
  obtain ⟨ha, -⟩ := waiting_some hr
  have hseat := h.seat a ha
  split at hs
  · rename_i events rest hq
    obtain rfl := Option.some.inj hs
    refine h.set id (SeatOk.mono (p := w.Routes)
      ⟨hseat.me, hseat.names, hseat.told, hseat.asked, ?_⟩
      fun m hm => Routes.set (by exact id) hm)
    rw [hseat.sink, hq]
    rfl
  · cases hs

theorem Good.write {w v : Floor} {a b : MachineId} (h : w.Good)
    (hs : w.step (.write a b) = some v) : v.Good := by
  obtain ⟨l, hl, rfl⟩ := Option.map_eq_some_iff.mp hs
  have hin := Link.inFlight_write hl
  refine ⟨h.seat, fun p hp q hq m tag hm => h.link p hp q hq m tag ?_⟩
  by_cases hpq : p = a ∧ q = b
  · obtain ⟨rfl, rfl⟩ := hpq
    rw [← hin]
    simpa [Floor.setLink] using hm
  · by_cases hp' : p = a
    · have hq' : q ≠ b := fun hq => hpq ⟨hp', hq⟩
      subst hp'
      simpa [Floor.setLink, hq'] using hm
    · simpa [Floor.setLink, hp'] using hm

theorem Good.reconnect {w v : Floor} {a b : MachineId} {up : Bool} (h : w.Good)
    (hs : w.step (.reconnect a b up) = some v) : v.Good := by
  obtain rfl := Option.some.inj hs
  have hnil : (if up then (.fresh : Link Frame) else (w.link a b).cut).inFlight = [] := by
    cases up <;> rfl
  have hone : ∀ {u : Floor} (p q : MachineId), u.Good →
      (u.setLink p q (if up then .fresh else (w.link a b).cut)).Good := by
    intro u p q hu
    exact hu.setLink (by simp [hnil]) fun hne => absurd hnil hne
  exact hone b a (hone a b h)

theorem Good.step {w v : Floor} {a : Action} (h : w.Good) (hok : w.KeepsLoops a)
    (hs : w.step a = some v) : v.Good := by
  cases a with
  | share a on env => exact h.share hok hs
  | finish a =>
    obtain ⟨r, hr, rfl⟩ := Option.map_eq_some_iff.mp hs
    exact h.finish hok
  | «local» a event env =>
    simp only [Floor.step, Option.bind_eq_bind, Option.bind_eq_some_iff] at hs
    obtain ⟨r, hr, hs⟩ := hs
    split at hs
    · obtain rfl := Option.some.inj hs
      obtain ⟨ha, hr⟩ := waiting_some hr
      obtain ⟨hme, hown, hself⟩ := h.loop ha hr
      exact h.turn ha hr rfl rfl (.inl rfl) (Router.handle_turn rfl hown hself fun ho m hm =>
        hok r hr (ho.trans hme) m (Router.destination_out env event r [] ▸ hm))
    · cases hs
  | receive a => exact h.receive hs
  | next a env =>
    simp only [Floor.step] at hs
    split at hs
    · rename_i r x rest hr hb
      split at hs
      · rename_i ha
        obtain rfl := Option.some.inj hs
        obtain ⟨hme, hown, hself⟩ := h.loop ha hr
        exact h.turn ha hr rfl rfl (.inl rfl) (Router.handle_turn rfl hown hself fun ho m hm =>
          hok x (by rw [hb]; rfl) r hr (ho.trans hme) m
            (Router.destination_out env x.event r [] ▸ hm))
      · cases hs
    · cases hs
  | heartbeat a env =>
    simp only [Floor.step, Option.bind_eq_bind, Option.bind_eq_some_iff] at hs
    obtain ⟨r, hr, hs⟩ := hs
    obtain rfl := Option.some.inj hs
    obtain ⟨ha, hr⟩ := waiting_some hr
    obtain ⟨-, hown, hself⟩ := h.loop ha hr
    exact h.turn ha hr rfl rfl (.inl rfl) (Router.onHeartbeat_turn rfl hown hself)
  | flush a env =>
    simp only [Floor.step, Option.bind_eq_bind, Option.bind_eq_some_iff] at hs
    obtain ⟨r, hr, hs⟩ := hs
    obtain rfl := Option.some.inj hs
    obtain ⟨ha, hr⟩ := waiting_some hr
    obtain ⟨-, hown, -⟩ := h.loop ha hr
    exact h.turn ha hr rfl rfl (.inr rfl) (Router.onFlush_turn rfl hown
      ((h.seat a ha).told (by rw [hr]; rfl)))
  | post a =>
    simp only [Floor.step] at hs
    split at hs
    · cases hs
    · rename_i o rest hbox
      split at hs
      · rename_i ha
        obtain rfl := Option.some.inj hs
        exact h.post ha hbox
      · cases hs
  | write a b => exact h.write hs
  | read a b n =>
    simp only [Floor.step] at hs
    split at hs
    · cases hs
    · rename_i f l hr
      split at hs
      · rename_i hab
        obtain rfl := Option.some.inj hs
        exact h.read hab.1 hab.2 hr
      · cases hs
  | reconnect a b up => exact h.reconnect hs

theorem Starts.good {w : Floor} (h : Starts w) : w.Good := by
  refine ⟨fun a ha => ?_, fun a _ b _ m tag hm => ?_⟩
  · obtain ⟨hl, hr, hm⟩ := h.seat a ha
    constructor <;> simp [hl, hr, hm]
  · rw [h.link] at hm
    cases hm

theorem Good.pointerCanReturn {w : Floor} (h : w.Good) : w.PointerCanReturn := by
  intro a ha r hr _
  have hroutes := (h.seat a ha).names r hr
  refine ⟨hroutes, fun events n => ?_⟩
  have hsink : (w.seat r.owner).remoteInput.isSome := by
    rw [← (h.seat _ hroutes.1).sink]
    exact hroutes.2
  obtain ⟨queue, hq⟩ := Option.isSome_iff_exists.mp hsink
  simp only [Seat.onInput, hq]
  split <;> rfl

/-- As long as the pointer crosses only to machines that share, and sharing ends only where
nothing gives the pointer to, whatever machine has it can give it back. -/
theorem pointerCanReturn_of_keepsLoops (w v : Floor) (as : List Action) (hw : Starts w)
    (h : Run step KeepsLoops w as v) : v.PointerCanReturn :=
  (h.invariant (fun _ _ _ hw hok hs => hw.step hok hs) hw.good).pointerCanReturn

def screen : DisplayInfo :=
  ⟨"assumed", "Screen (not detected)", 0, 0, 1920, 1080, 1065353216, true⟩

def sideBySide : WorkspaceDoc :=
  let d := WorkspaceDoc.create 7 0 "Desk" { studio with displays := [screen] }
  (d.upsertMachine 1 0 { laptop with displays := [screen], position := ⟨1920, 0⟩ }).1

/-- What the studio's machine knows with its pointer near the right edge. -/
def atEdge : Env := ⟨some sideBySide, {2}, some ⟨1910, 500⟩, 0⟩

def desks : Floor where
  members := {1, 2}
  seat _ := ⟨.windows, false, none, none, [], none, [], []⟩
  link _ _ := .fresh

theorem starts_desks : Starts desks := ⟨fun _ _ => ⟨rfl, rfl, rfl⟩, fun _ _ => rfl⟩

theorem pointerCanReturn_of_keepsLoops_crossed :
    ∃ v, Run step KeepsLoops desks [.share 1 true atEdge, .share 2 true atEdge,
        .local 1 (.mouseMove 20 0) atEdge] v ∧
      (v.seat 1).loop.map Router.owner = some 2 ∧ v.PointerCanReturn := by
  obtain ⟨v, hrun, hv⟩ := run_of_replay step KeepsLoops desks [.share 1 true atEdge,
    .share 2 true atEdge, .local 1 (.mouseMove 20 0) atEdge]
    (fun v => (v.seat 1).loop.map Router.owner) (b := some 2) (by decide +kernel)
  exact ⟨v, hrun, hv, pointerCanReturn_of_keepsLoops _ _ _ starts_desks hrun⟩

/-- Only the first machine shares: the pointer crosses, and what is to bring it back is replayed. -/
theorem pointer_cannot_return :
    ∃ v, Starts desks ∧ Run step Any desks
        ([.share 1 true atEdge, .local 1 (.mouseMove 20 0) atEdge, .post 1, .post 1, .write 1 2,
          .write 1 2, .read 1 2 1, .read 1 2 1] ++
        [.local 1 (.mouseMove (-50) 0) atEdge, .flush 1 atEdge, .post 1, .write 1 2, .read 1 2 1])
        v ∧
      (v.seat 1).loop.map Router.owner = some 2 ∧
      (v.seat 2).injected = [.cursorEnter 0 500, .mouseMove (-50) 0] ∧ ¬ v.PointerCanReturn := by
  obtain ⟨v, hrun, hv⟩ := run_of_replay step Any desks
    ([.share 1 true atEdge, .local 1 (.mouseMove 20 0) atEdge, .post 1, .post 1, .write 1 2,
      .write 1 2, .read 1 2 1, .read 1 2 1] ++
    [.local 1 (.mouseMove (-50) 0) atEdge, .flush 1 atEdge, .post 1, .write 1 2, .read 1 2 1])
    (fun v => ((v.seat 1).loop.map Router.owner, (v.seat 2).injected,
      decide (1 ∈ v.members ∧ ¬ v.Routes 2)))
    (b := (some 2, [.cursorEnter 0 500, .mouseMove (-50) 0], true)) (by decide +kernel)
  obtain ⟨hown, hin, hroutes⟩ := by simpa only [Prod.mk.injEq] using hv
  obtain ⟨hmem, hroutes⟩ := of_decide_eq_true hroutes
  obtain ⟨r, hr, ho⟩ := Option.map_eq_some_iff.mp hown
  refine ⟨v, starts_desks, hrun, hown, hin, fun h => hroutes ?_⟩
  rw [← ho]
  exact (h 1 hmem r hr (by rw [ho]; decide)).1

end Floor
end InputShare

import InputShare.Core.Layout
import InputShare.Input.Capture
import InputShare.Net.Wire

/-! The routing loop: who owns the pointer, what is forwarded to the owner and what is replayed
here. Events carry a tag of an arbitrary type that the code does not have; it is passed along
unread, so that a run can follow one event. -/
namespace InputShare

structure Sample (τ : Type) where
  event : InputEvent
  tag : τ
deriving DecidableEq, Repr

/-- Where an event came from: this machine's devices, or another machine over the network. -/
inductive Source where
  | «local» | remote
deriving DecidableEq, Repr

/-- What the loop asks of the rest of the program. -/
inductive Output (τ : Type) where
  | noteCursorOwner (owner : Option MachineId)
  | setCursorPosition (x y : Int)
  | inject (event : InputEvent)
  | sendInput (dest : MachineId) (events : List (Sample τ))
  | announceCursorOwner (machine : MachineId) (tag : τ)
deriving DecidableEq, Repr

/-- What the loop reads while it handles an event. -/
structure Env where
  doc : Option WorkspaceDoc
  online : Finset MachineId
  /-- The pointer in local coordinates, when the system can say. -/
  pointer : Option Point
  now : ℕ

structure Router (τ : Type) where
  me : MachineId
  /-- The machine that owns the pointer. -/
  owner : MachineId
  cursor : Point
  /-- Events waiting to go to the owner. -/
  pending : List (Sample τ)
  capture : Capture
  out : List (Output τ)
deriving DecidableEq

/-- How far the tracked pointer may drift from the real one before it is resynchronised. -/
def driftLimit : Int := 80

def Env.pointerNow (env : Env) (me : MachineId) : Option Point := do
  let doc ← env.doc
  let record ← doc.machine me
  let p ← env.pointer
  return ⟨wrapI32 (p.x + record.position.x), wrapI32 (p.y + record.position.y)⟩

namespace Router
variable {τ : Type}

def emit (r : Router τ) (o : Output τ) : Router τ := { r with out := r.out ++ [o] }

/-- The state the loop starts in: the pointer is on this machine. -/
def start (os : Os) (me : MachineId) (env : Env) : Router τ :=
  { me := me
    owner := me
    cursor := (env.pointerNow me).getD .default
    pending := []
    capture := (Capture.start env.now).setSuppression os false
    out := [.noteCursorOwner (some me)] }

def ownerIsReachable (r : Router τ) (env : Env) : Bool := r.owner ∈ env.online

def setSuppressing (os : Os) (env : Env) (r : Router τ) (suppress : Bool) : Router τ :=
  { r with capture := r.capture.setSuppressing os env.now suppress }

def resync (env : Env) (r : Router τ) : Router τ :=
  match env.pointerNow r.me with
  | some here => { r with cursor := here }
  | none => r

/-- Sends what is pending to the owner, or drops it when the owner is this machine. -/
def flush (r : Router τ) : Router τ :=
  if r.pending.isEmpty ∨ r.owner = r.me then { r with pending := [] }
  else { r with pending := [] }.emit (.sendInput r.owner r.pending)

def applyAnnouncement (os : Os) (env : Env) (announced : Option MachineId) (r : Router τ) :
    Router τ :=
  match announced with
  | none => r
  | some owner =>
    if owner = r.owner then r
    else
      let r := { r with owner := owner }.emit (.noteCursorOwner (some owner))
      if owner = r.me then (r.setSuppressing os env false).resync env
      else { r with pending := [] }.setSuppressing os env true

def takeOwnership (os : Os) (env : Env) (tag : τ) (r : Router τ) : Router τ :=
  let r := ({ r with owner := r.me, pending := [] }.setSuppressing os env false).resync env
  (r.emit (.noteCursorOwner (some r.me))).emit (.announceCursorOwner r.me tag)

/-- The pointer follows the real one when they disagree by more than a nudge. -/
def followDrift (env : Env) (r : Router τ) : Router τ :=
  match env.pointerNow r.me with
  | some here =>
    if absI32 (wrapI32 (here.x - r.cursor.x)) > driftLimit ∨
        absI32 (wrapI32 (here.y - r.cursor.y)) > driftLimit then { r with cursor := here }
    else r
  | none => r

def crossTo (os : Os) (env : Env) (tag : τ) (doc : WorkspaceDoc) (machine : MachineId)
    (point : Point) (r : Router τ) : Router τ :=
  let r := { r with cursor := point, owner := machine }.emit (.noteCursorOwner (some machine))
  let r :=
    match doc.machine machine with
    | some record =>
      let enter : Sample τ := ⟨.cursorEnter (wrapI32 (point.x - record.position.x))
        (wrapI32 (point.y - record.position.y)), tag⟩
      { r with pending := r.pending ++ [enter] }
    | none => r
  ((r.setSuppressing os env true).flush).emit (.announceCursorOwner machine tag)

def onMotion (os : Os) (env : Env) (tag : τ) (dx dy : Int) (source : Source) (r : Router τ) :
    Router τ :=
  match env.doc with
  | none => r
  | some doc =>
    let r := r.followDrift env
    let target : Point := ⟨wrapI32 (r.cursor.x + dx), wrapI32 (r.cursor.y + dy)⟩
    match Layout.resolveCursor doc (insert r.me env.online) r.me target with
    | .stay point =>
      let r := { r with cursor := point }
      if source = .remote then
        match doc.machine r.me with
        | some record => r.emit (.setCursorPosition (wrapI32 (point.x - record.position.x))
            (wrapI32 (point.y - record.position.y)))
        | none => r
      else r
    | .move machine point => r.crossTo os env tag doc machine point

/-- The handoff: a machine only sends this to the one it is handing the pointer to. -/
def enter (os : Os) (env : Env) (x y : Int) (r : Router τ) : Router τ :=
  let r :=
    if r.owner ≠ r.me then
      ({ r with owner := r.me, pending := [] }.setSuppressing os env false).emit
        (.noteCursorOwner (some r.me))
    else r
  (r.emit (.setCursorPosition x y)).resync env

def handle (os : Os) (env : Env) (tag : τ) (s : Sample τ) (source : Source) (r : Router τ) :
    Router τ :=
  match s.event, source with
  | .cursorEnter x y, .remote => r.enter os env x y
  | event, source =>
    if r.owner ≠ r.me then
      -- not the owner: this machine is a keyboard and a mouse, nothing more
      if source = .local then { r with pending := r.pending ++ [s] } else r
    else
      match event with
      | .mouseMove dx dy => r.onMotion os env tag dx dy source
      | .cursorEnter .. => r
      | other => if source = .remote then r.emit (.inject other) else r

def onHeartbeat (os : Os) (env : Env) (tag : τ) (r : Router τ) : Router τ :=
  let r := { r with capture := r.capture.heartbeat env.now }
  if r.owner ≠ r.me ∧ !r.ownerIsReachable env then r.takeOwnership os env tag else r

def onFlush (os : Os) (env : Env) (announced : Option MachineId) (r : Router τ) : Router τ :=
  (r.applyAnnouncement os env announced).flush

/-- What `run` does once it has left the loop. -/
def finish (os : Os) (env : Env) (r : Router τ) : Router τ :=
  let r := r.setSuppressing os env false
  { r with capture := r.capture.drop os }.emit (.noteCursorOwner none)

/-! What each step can do, as far as the owner, the queue, the capture and the other machines can
tell. -/

def outgoing (r : Router τ) : List (Output τ) :=
  r.out.filter fun
    | .sendInput .. | .announceCursorOwner .. => true
    | _ => false

@[simp] theorem emit_me (r : Router τ) (o : Output τ) : (r.emit o).me = r.me := rfl
@[simp] theorem emit_owner (r : Router τ) (o : Output τ) : (r.emit o).owner = r.owner := rfl
@[simp] theorem emit_pending (r : Router τ) (o : Output τ) : (r.emit o).pending = r.pending := rfl
@[simp] theorem emit_capture (r : Router τ) (o : Output τ) : (r.emit o).capture = r.capture := rfl
@[simp] theorem emit_cursor (r : Router τ) (o : Output τ) : (r.emit o).cursor = r.cursor := rfl
@[simp] theorem outgoing_note (r : Router τ) (m : Option MachineId) :
    (r.emit (.noteCursorOwner m)).outgoing = r.outgoing := by simp [outgoing, emit]
@[simp] theorem outgoing_place (r : Router τ) (x y : Int) :
    (r.emit (.setCursorPosition x y)).outgoing = r.outgoing := by simp [outgoing, emit]
@[simp] theorem outgoing_inject (r : Router τ) (e : InputEvent) :
    (r.emit (.inject e)).outgoing = r.outgoing := by simp [outgoing, emit]
@[simp] theorem outgoing_send (r : Router τ) (m : MachineId) (es : List (Sample τ)) :
    (r.emit (.sendInput m es)).outgoing = r.outgoing ++ [.sendInput m es] := by
  simp [outgoing, emit]
@[simp] theorem outgoing_announce (r : Router τ) (m : MachineId) (t : τ) :
    (r.emit (.announceCursorOwner m t)).outgoing = r.outgoing ++ [.announceCursorOwner m t] := by
  simp [outgoing, emit]

@[simp] theorem setSuppressing_me (os : Os) (env : Env) (r : Router τ) (b : Bool) :
    (r.setSuppressing os env b).me = r.me := rfl
@[simp] theorem setSuppressing_owner (os : Os) (env : Env) (r : Router τ) (b : Bool) :
    (r.setSuppressing os env b).owner = r.owner := rfl
@[simp] theorem setSuppressing_pending (os : Os) (env : Env) (r : Router τ) (b : Bool) :
    (r.setSuppressing os env b).pending = r.pending := rfl
@[simp] theorem setSuppressing_capture (os : Os) (env : Env) (r : Router τ) (b : Bool) :
    (r.setSuppressing os env b).capture = r.capture.setSuppressing os env.now b := rfl
@[simp] theorem outgoing_setSuppressing (os : Os) (env : Env) (r : Router τ) (b : Bool) :
    (r.setSuppressing os env b).outgoing = r.outgoing := rfl

/-- Nothing but the tracked cursor and what happens on this desktop differs. -/
structure Quiet (r t : Router τ) : Prop where
  me : t.me = r.me
  owner : t.owner = r.owner
  pending : t.pending = r.pending
  capture : t.capture = r.capture
  outgoing : t.outgoing = r.outgoing

theorem Quiet.refl (r : Router τ) : r.Quiet r := ⟨rfl, rfl, rfl, rfl, rfl⟩

theorem Quiet.trans {r s t : Router τ} (h : r.Quiet s) (k : s.Quiet t) : r.Quiet t :=
  ⟨k.me.trans h.me, k.owner.trans h.owner, k.pending.trans h.pending, k.capture.trans h.capture,
    k.outgoing.trans h.outgoing⟩

theorem quiet_resync (env : Env) (r : Router τ) : r.Quiet (r.resync env) := by
  unfold resync
  split <;> exact ⟨rfl, rfl, rfl, rfl, rfl⟩

theorem quiet_followDrift (env : Env) (r : Router τ) : r.Quiet (r.followDrift env) := by
  unfold followDrift
  split
  · split <;> exact ⟨rfl, rfl, rfl, rfl, rfl⟩
  · exact Quiet.refl r

theorem quiet_emit (r : Router τ) {o : Output τ} (h : (r.emit o).outgoing = r.outgoing) :
    r.Quiet (r.emit o) := ⟨rfl, rfl, rfl, rfl, h⟩

/-- The router now names `m`, swallows local input exactly when that is another machine, holds `q`
and has let `sent` out. -/
structure Named (os : Os) (now : ℕ) (m : MachineId) (q : List (Sample τ))
    (sent : List (Output τ)) (r t : Router τ) : Prop where
  me : t.me = r.me
  owner : t.owner = m
  pending : t.pending = q
  capture : t.capture = r.capture.setSuppressing os now (decide (m ≠ r.me))
  outgoing : t.outgoing = r.outgoing ++ sent

section Named
variable {os : Os} {now : ℕ} {m : MachineId} {q : List (Sample τ)} {sent : List (Output τ)}
  {r s t : Router τ}

theorem Named.quiet (h : Named os now m q sent r s) (k : s.Quiet t) :
    Named os now m q sent r t :=
  ⟨k.me.trans h.me, k.owner.trans h.owner, k.pending.trans h.pending, k.capture.trans h.capture,
    k.outgoing.trans h.outgoing⟩

theorem Quiet.named (k : r.Quiet s) (h : Named os now m q sent s t) :
    Named os now m q sent r t :=
  ⟨h.me.trans k.me, h.owner, h.pending, by rw [h.capture, k.capture, k.me],
    by rw [h.outgoing, k.outgoing]⟩

end Named

/-- A frame of input for `machine`, when there is any. -/
def delivery (machine : MachineId) (events : List (Sample τ)) : List (Output τ) :=
  if events = [] then [] else [.sendInput machine events]

def flushed (r : Router τ) : List (Output τ) :=
  if r.owner = r.me then [] else delivery r.owner r.pending

/-- Everything `flush` does: what was pending goes to the owner, if that is another machine. -/
theorem flush_spec (r : Router τ) : r.flush.me = r.me ∧ r.flush.owner = r.owner ∧
    r.flush.pending = [] ∧ r.flush.capture = r.capture ∧
    r.flush.outgoing = r.outgoing ++ r.flushed := by
  unfold flush flushed delivery
  by_cases hp : r.pending = []
  · simp [hp, outgoing]
  · by_cases ho : r.owner = r.me
    · simp [ho, outgoing]
    · have h' : ¬ (r.pending.isEmpty = true ∨ r.owner = r.me) := by simp [hp, ho]
      rw [if_neg h', if_neg ho, if_neg hp]
      exact ⟨rfl, rfl, rfl, rfl, outgoing_send _ _ _⟩

theorem applyAnnouncement_some (os : Os) (env : Env) {owner : MachineId} (r : Router τ)
    (ho : owner ≠ r.owner) : Named os env.now owner (if owner = r.me then r.pending else []) [] r
      (r.applyAnnouncement os env (some owner)) := by
  by_cases hm : owner = r.me
  · have hs : Named os env.now owner r.pending [] r
        ((({ r with owner := owner } : Router τ).emit
          (.noteCursorOwner (some owner))).setSuppressing os env false) :=
      ⟨rfl, rfl, rfl, by simp [hm], by simp [outgoing, emit, setSuppressing]⟩
    have he : r.applyAnnouncement os env (some owner) = _ := (if_neg ho).trans (if_pos hm)
    rw [he, if_pos hm]
    exact hs.quiet (quiet_resync env _)
  · have he : r.applyAnnouncement os env (some owner) = _ := (if_neg ho).trans (if_neg hm)
    rw [he, if_neg hm]
    exact ⟨rfl, rfl, rfl, by simp [hm], by simp [outgoing, emit, setSuppressing]⟩

theorem applyAnnouncement_spec (os : Os) (env : Env) (a : Option MachineId) (r : Router τ) :
    r.applyAnnouncement os env a = r ∧ (a = none ∨ a = some r.owner) ∨
      ∃ owner, a = some owner ∧ owner ≠ r.owner ∧
        Named os env.now owner (if owner = r.me then r.pending else []) [] r
          (r.applyAnnouncement os env a) := by
  cases a with
  | none => exact .inl ⟨rfl, .inl rfl⟩
  | some owner =>
    by_cases ho : owner = r.owner
    · exact .inl ⟨by simp [applyAnnouncement, ho], .inr (by rw [ho])⟩
    · exact .inr ⟨owner, rfl, ho, applyAnnouncement_some os env r ho⟩

theorem takeOwnership_spec (os : Os) (env : Env) (tag : τ) (r : Router τ) :
    Named os env.now r.me [] [.announceCursorOwner r.me tag] r (r.takeOwnership os env tag) := by
  have hs : Named os env.now r.me [] [] r
      (({ r with owner := r.me, pending := [] } : Router τ).setSuppressing os env false) :=
    ⟨rfl, rfl, rfl, by simp, (List.append_nil _).symm⟩
  have h := hs.quiet (quiet_resync env _)
  refine ⟨h.me, h.owner, h.pending, h.capture, ?_⟩
  simp only [takeOwnership, outgoing_announce, outgoing_note, h.outgoing, h.me, List.append_nil]

theorem enter_spec (os : Os) (env : Env) (x y : Int) (r : Router τ) :
    r.owner = r.me ∧ r.Quiet (r.enter os env x y) ∨
      r.owner ≠ r.me ∧ Named os env.now r.me [] [] r (r.enter os env x y) := by
  by_cases h : r.owner = r.me
  · refine .inl ⟨h, ?_⟩
    simp only [enter, h, ne_eq, not_true, if_false]
    exact (quiet_emit r (outgoing_place r x y)).trans (quiet_resync env _)
  · refine .inr ⟨h, ?_⟩
    simp only [enter, h, ne_eq, not_false_iff, if_true]
    refine Named.quiet ?_ (quiet_resync env _)
    exact ⟨rfl, rfl, rfl, by simp, by simp [outgoing, emit, setSuppressing]⟩

/-- Where the pointer lands on `machine`, for the machine itself. -/
def handoff (tag : τ) (doc : WorkspaceDoc) (machine : MachineId) (point : Point) :
    List (Sample τ) :=
  match doc.machine machine with
  | some record => [⟨.cursorEnter (wrapI32 (point.x - record.position.x))
      (wrapI32 (point.y - record.position.y)), tag⟩]
  | none => []

theorem mem_handoff {tag : τ} {doc : WorkspaceDoc} {machine : MachineId} {point : Point}
    {s : Sample τ} (h : s ∈ handoff tag doc machine point) :
    (∃ x y, s.event = .cursorEnter x y) ∧ s.tag = tag := by
  unfold handoff at h
  split at h
  · obtain rfl := List.mem_singleton.mp h
    exact ⟨⟨_, _, rfl⟩, rfl⟩
  · cases h

theorem crossTo_spec (os : Os) (env : Env) (tag : τ) (doc : WorkspaceDoc) {machine : MachineId}
    (point : Point) (r : Router τ) (hm : machine ≠ r.me) :
    Named os env.now machine [] (delivery machine (r.pending ++ handoff tag doc machine point) ++
      [.announceCursorOwner machine tag]) r (r.crossTo os env tag doc machine point) := by
  let away : Router τ := { r with
    cursor := point, owner := machine, pending := r.pending ++ handoff tag doc machine point }
  let gone := (away.emit (.noteCursorOwner (some machine))).setSuppressing os env true
  have he : r.crossTo os env tag doc machine point =
      gone.flush.emit (.announceCursorOwner machine tag) := by
    unfold crossTo
    cases hr : doc.machine machine with
    | none => simp [gone, away, handoff, hr]
    | some record => simp [gone, away, handoff, hr, emit, setSuppressing]
  obtain ⟨hme, hown, hpend, hcap, hout⟩ := gone.flush_spec
  have hsent : gone.flush.outgoing =
      r.outgoing ++ delivery machine (r.pending ++ handoff tag doc machine point) := by
    rw [hout]
    have hg : gone.outgoing = r.outgoing := by simp [gone, away, outgoing, emit, setSuppressing]
    rw [hg]
    exact congrArg (r.outgoing ++ ·) (if_neg hm)
  rw [he]
  refine ⟨hme, hown, hpend, ?_, ?_⟩
  · simpa [gone, away, hm] using hcap
  · rw [outgoing_announce, hsent, List.append_assoc]

theorem onMotion_spec (os : Os) (env : Env) (tag : τ) (dx dy : Int) (source : Source)
    (r : Router τ) : r.Quiet (r.onMotion os env tag dx dy source) ∨
      ∃ doc machine point, env.doc = some doc ∧ machine ≠ r.me ∧ machine ∈ env.online ∧
        Named os env.now machine []
          (delivery machine (r.pending ++ handoff tag doc machine point) ++
            [.announceCursorOwner machine tag]) r (r.onMotion os env tag dx dy source) := by
  unfold onMotion
  cases hd : env.doc with
  | none => exact .inl (Quiet.refl r)
  | some doc =>
    have hq := quiet_followDrift env r
    dsimp only
    split
    · rename_i point hres
      refine .inl ?_
      have hc : r.Quiet { r.followDrift env with cursor := point } :=
        ⟨hq.me, hq.owner, hq.pending, hq.capture, hq.outgoing⟩
      split_ifs
      · split
        · exact hc.trans (quiet_emit _ (outgoing_place _ _ _))
        · exact hc
      · exact hc
    · rename_i machine point hres
      obtain ⟨hne, hmem⟩ := Layout.resolveCursor_move hres
      have hm : machine ≠ r.me := fun h => hne (h.trans hq.me.symm)
      have hon : machine ∈ env.online := (Finset.mem_insert.mp hmem).resolve_left hne
      have h := crossTo_spec os env tag doc point (r.followDrift env) hne
      rw [hq.pending] at h
      exact .inr ⟨doc, machine, point, rfl, hm, hon, hq.named h⟩

inductive Handled (os : Os) (env : Env) (tag : τ) (s : Sample τ) (source : Source)
    (r t : Router τ) : Prop where
  | quiet (hs : ∀ x y, s.event = .cursorEnter x y → source = .remote → r.owner = r.me)
      (h : r.Quiet t)
  | queued (hs : source = .local) (ho : r.owner ≠ r.me)
      (h : t = { r with pending := r.pending ++ [s] })
  | entered (x y : Int) (hs : source = .remote) (he : s.event = .cursorEnter x y)
      (ho : r.owner ≠ r.me) (h : Named os env.now r.me [] [] r t)
  | crossed (doc : WorkspaceDoc) (machine : MachineId) (point : Point) (ho : r.owner = r.me)
      (hdoc : env.doc = some doc) (hm : machine ≠ r.me) (hon : machine ∈ env.online)
      (he : ∃ dx dy, s.event = .mouseMove dx dy)
      (h : Named os env.now machine [] (delivery machine
        (r.pending ++ handoff tag doc machine point) ++ [.announceCursorOwner machine tag]) r t)

theorem handle_spec (os : Os) (env : Env) (tag : τ) (s : Sample τ) (source : Source)
    (r : Router τ) : Handled os env tag s source r (r.handle os env tag s source) := by
  by_cases hent : ∃ x y, s.event = .cursorEnter x y ∧ source = .remote
  · obtain ⟨x, y, he, hs⟩ := hent
    have heq : r.handle os env tag s source = r.enter os env x y := by simp [handle, he, hs]
    rw [heq]
    obtain ⟨ho, h⟩ | ⟨ho, h⟩ := enter_spec os env x y r
    · exact .quiet (fun _ _ _ _ => ho) h
    · exact .entered x y hs he ho h
  · have hno : ∀ x y, s.event = .cursorEnter x y → source = .remote → r.owner = r.me :=
      fun x y he hs => absurd ⟨x, y, he, hs⟩ hent
    by_cases ho : r.owner = r.me
    · cases he : s.event with
      | mouseMove dx dy =>
        have heq : r.handle os env tag s source = r.onMotion os env tag dx dy source := by
          simp [handle, he, ho]
        rw [heq]
        obtain h | ⟨doc, m, p, hd, hm, hon, h⟩ := onMotion_spec os env tag dx dy source r
        · exact .quiet hno h
        · exact .crossed doc m p ho hd hm hon ⟨dx, dy, he⟩ h
      | cursorEnter x y =>
        refine .quiet hno ?_
        cases source with
        | «local» => simp [handle, he, ho, Quiet.refl]
        | remote => exact absurd ⟨x, y, he, rfl⟩ hent
      | _ =>
        refine .quiet hno ?_
        cases source with
        | «local» => simp [handle, he, ho, Quiet.refl]
        | remote =>
          simp only [handle, he, ho, ne_eq, not_true, if_false, if_true]
          exact quiet_emit r (outgoing_inject r _)
    · have heq : r.handle os env tag s source =
          if source = .local then { r with pending := r.pending ++ [s] } else r := by
        cases source with
        | «local» => cases he : s.event <;> simp [handle, he, ho]
        | remote =>
          cases he : s.event with
          | cursorEnter x y => exact absurd ⟨x, y, he, rfl⟩ hent
          | _ => simp [handle, he, ho]
      rw [heq]
      cases source with
      | «local» => exact .queued rfl ho rfl
      | remote => exact .quiet hno (Quiet.refl r)

theorem onHeartbeat_spec (os : Os) (env : Env) (tag : τ) (r : Router τ) :
    r.onHeartbeat os env tag = { r with capture := r.capture.heartbeat env.now } ∨
      r.owner ≠ r.me ∧ r.owner ∉ env.online ∧
        Named os env.now r.me [] [.announceCursorOwner r.me tag] r
          (r.onHeartbeat os env tag) := by
  unfold onHeartbeat
  by_cases h : r.owner ≠ r.me ∧ r.owner ∉ env.online
  · refine .inr ⟨h.1, h.2, ?_⟩
    have hs := takeOwnership_spec os env tag { r with capture := r.capture.heartbeat env.now }
    rw [if_pos (by simpa [ownerIsReachable] using h)]
    refine ⟨hs.me, hs.owner, hs.pending, ?_, hs.outgoing⟩
    rw [hs.capture, Capture.heartbeat_setSuppressing]
  · exact .inl (if_neg (by simpa [ownerIsReachable] using h))

theorem onHeartbeat_owner (os : Os) (env : Env) (tag : τ) (r : Router τ) :
    (r.onHeartbeat os env tag).owner =
      if r.owner = r.me ∨ r.owner ∈ env.online then r.owner else r.me := by
  unfold onHeartbeat
  by_cases h : r.owner = r.me ∨ r.owner ∈ env.online
  · have hno : ¬ (r.owner ≠ r.me ∧ r.owner ∉ env.online) := by tauto
    rw [if_pos h, if_neg (by simpa [ownerIsReachable] using hno)]
  · have hgone : r.owner ≠ r.me ∧ r.owner ∉ env.online := not_or.mp h
    rw [if_neg h, if_pos (by simpa [ownerIsReachable] using hgone)]
    exact (takeOwnership_spec os env tag _).owner

theorem onFlush_spec (os : Os) (env : Env) (announced : Option MachineId) (r : Router τ) :
    (announced = none ∨ announced = some r.owner) ∧ r.onFlush os env announced = r.flush ∨
      ∃ owner, announced = some owner ∧ owner ≠ r.owner ∧
        Named os env.now owner [] [] r (r.onFlush os env announced) := by
  unfold onFlush
  obtain ⟨h, ha⟩ | ⟨owner, ha, ho, h⟩ := applyAnnouncement_spec os env announced r
  · exact .inl ⟨ha, by rw [h]⟩
  · refine .inr ⟨owner, ha, ho, ?_⟩
    obtain ⟨hme, hown, hpend, hcap, hout⟩ := (r.applyAnnouncement os env announced).flush_spec
    refine ⟨hme.trans h.me, hown.trans h.owner, hpend, hcap.trans h.capture, ?_⟩
    have hf : (r.applyAnnouncement os env announced).flushed = [] := by
      simp only [flushed, delivery, h.owner, h.me, h.pending]
      split_ifs with h₁ h₂ <;> simp_all
    rw [hout, hf, h.outgoing, List.append_nil]

/-- Where the pointer crosses to when the loop that has it handles an event. -/
def destination (env : Env) (event : InputEvent) (r : Router τ) : Option MachineId :=
  match event, env.doc with
  | .mouseMove dx dy, some doc =>
    let r := r.followDrift env
    match Layout.resolveCursor doc (insert r.me env.online) r.me
        ⟨wrapI32 (r.cursor.x + dx), wrapI32 (r.cursor.y + dy)⟩ with
    | .move machine _ => some machine
    | .stay _ => none
  | _, _ => none

theorem destination_ne {env : Env} {event : InputEvent} {r : Router τ} {m : MachineId}
    (h : r.destination env event = some m) : m ≠ r.me := by
  unfold destination at h
  split at h
  · dsimp only at h
    split at h
    · rename_i machine point hres
      obtain rfl := Option.some.inj h
      exact (quiet_followDrift env r).me ▸ (Layout.resolveCursor_move hres).1
    · cases h
  · cases h

theorem onMotion_owner (os : Os) (env : Env) (tag : τ) (dx dy : Int) (source : Source)
    (r : Router τ) : (r.onMotion os env tag dx dy source).owner =
      (r.destination env (.mouseMove dx dy)).getD r.owner := by
  unfold onMotion destination
  cases hd : env.doc with
  | none => rfl
  | some doc =>
    have hq := (quiet_followDrift env r).owner
    dsimp only
    split
    · rename_i point hres
      simp only [hres, Option.getD_none]
      split
      · split
        · rw [emit_owner, hq]
        · exact hq
      · exact hq
    · rename_i machine point hres
      obtain ⟨hne, -⟩ := Layout.resolveCursor_move hres
      simp only [hres, Option.getD_some]
      exact (crossTo_spec os env tag doc point (r.followDrift env) hne).owner

@[simp] theorem handle_me (os : Os) (env : Env) (tag : τ) (s : Sample τ) (source : Source)
    (r : Router τ) : (r.handle os env tag s source).me = r.me := by
  cases handle_spec os env tag s source r with
  | quiet _ h => exact h.me
  | queued hs ho h => rw [h]
  | entered x y hs he ho h => exact h.me
  | crossed doc m p ho hd hm hon he h => exact h.me

@[simp] theorem onHeartbeat_me (os : Os) (env : Env) (tag : τ) (r : Router τ) :
    (r.onHeartbeat os env tag).me = r.me := by
  obtain h | ⟨-, -, h⟩ := onHeartbeat_spec os env tag r
  · rw [h]
  · exact h.me

@[simp] theorem onFlush_me (os : Os) (env : Env) (announced : Option MachineId) (r : Router τ) :
    (r.onFlush os env announced).me = r.me := by
  obtain ⟨-, h⟩ | ⟨m, -, -, h⟩ := onFlush_spec os env announced r
  · rw [h, r.flush_spec.1]
  · exact h.me

end Router
end InputShare

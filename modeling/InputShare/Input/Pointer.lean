import InputShare.Core.Model
import InputShare.Input.Inject

/-! The pointer of another machine on a Mac: it is kept on the displays, which are listed anew only
now and then, and told both as a place and as a movement. -/
namespace InputShare.Pointer
open Runs Injector
open Injection (plain)

def right (d : DisplayInfo) : Int := wrapI32 (d.x + wrapI32 d.width)
def bottom (d : DisplayInfo) : Int := wrapI32 (d.y + wrapI32 d.height)

def around (d : DisplayInfo) : Desktop := ⟨d.x, d.y, right d, bottom d⟩

def extend (r : Desktop) (d : DisplayInfo) : Desktop where
  minX := min r.minX d.x
  minY := min r.minY d.y
  maxX := max r.maxX (right d)
  maxY := max r.maxY (bottom d)

def covering : List DisplayInfo → Option Desktop
  | [] => none
  | first :: rest => some (rest.foldl extend (around first))

structure Cached where
  rect : Desktop
  time : ℕ
deriving DecidableEq, Repr

/-- The rectangle covering every display, listed anew when it is two seconds old. -/
def desktopBounds (now : ℕ) (displays : Option (List DisplayInfo)) (cache : Option Cached) :
    Option Desktop × Option Cached :=
  match cache.filter fun c => (now - c.time) / 1000 < 2 with
  | some c => (some c.rect, cache)
  | none =>
    match displays.bind covering with
    | some rect => (some rect, some ⟨rect, now⟩)
    | none => (none, cache)

inductive Action where
  /-- An event from another machine, and what the system answers meanwhile. -/
  | inject (e : InputEvent) (s : MacSystem) (displays : Option (List DisplayInfo))
  | elapse (ms : ℕ)

structure Move where
  time : ℕ
  source : Point
  dx : Int
  dy : Int
  desktop : Option Desktop
  buttons : Finset MouseButton
  event : CGEvent

structure World where
  injection : Injection.World
  cache : Option Cached
  now : ℕ
  /-- Every list of displays that the system had, and when. -/
  listings : List (ℕ × List DisplayInfo)
  /-- The movements that were posted, the newest first. -/
  moves : List Move
  errors : List InjectError

def World.system (w : World) (e : InputEvent) (s : MacSystem)
    (displays : Option (List DisplayInfo)) : MacSystem × Option Cached :=
  match e with
  | .mouseMove _ _ =>
    let (desktop, cache) := desktopBounds w.now displays w.cache
    ({ s with desktop }, cache)
  | _ => (s, w.cache)

def World.moved (w : World) (e : InputEvent) (s : MacSystem) (posted : List CGEvent) : List Move :=
  match e with
  | .mouseMove dx dy => posted.map fun event =>
      ⟨w.now, w.injection.injector.currentPoint s, dx, dy, s.desktop, w.injection.buttons, event⟩
  | _ => []

def step (w : World) : Action → Option World
  | .inject e s displays =>
    let (s, cache) := w.system e s displays
    let listings := (displays.toList.map fun ds => (w.now, ds)) ++ w.listings
    (Injection.step w.injection ⟨e, s⟩).map fun injection =>
      match (w.injection.injector.inject s e).2 with
      | .ok posted => { w with injection, cache, listings, moves := w.moved e s posted ++ w.moves }
      | .error error => { w with injection, cache, listings, errors := error :: w.errors }
  | .elapse ms => some { w with now := w.now + ms }

def start (now : ℕ) : World := ⟨Injection.start, none, now, [], [], []⟩

/-- A display of some size that ends before the numbers do. -/
structure Fits (d : DisplayInfo) : Prop where
  left : i32Min ≤ d.x
  top : i32Min ≤ d.y
  width : 0 < d.width
  height : 0 < d.height
  right : d.x + d.width ≤ i32Max
  bottom : d.y + d.height ≤ i32Max

instance (d : DisplayInfo) : Decidable (Fits d) :=
  decidable_of_iff (i32Min ≤ d.x ∧ i32Min ≤ d.y ∧ 0 < d.width ∧ 0 < d.height ∧
      d.x + d.width ≤ i32Max ∧ d.y + d.height ≤ i32Max)
    ⟨fun ⟨hl, ht, hw, hh, hr, hb⟩ => ⟨hl, ht, hw, hh, hr, hb⟩,
      fun h => ⟨h.left, h.top, h.width, h.height, h.right, h.bottom⟩⟩

def Plausible (_ : World) : Action → Prop
  | .inject _ _ displays => ∀ ds ∈ displays, ∀ d ∈ ds, Fits d
  | .elapse _ => True

/-! The rectangle. -/

structure Within (d : DisplayInfo) (r : Desktop) : Prop where
  left : r.minX ≤ d.x
  top : r.minY ≤ d.y
  right : d.x + d.width ≤ r.maxX
  bottom : d.y + d.height ≤ r.maxY

/-- A rectangle as wide and as high as some display, and within the numbers. -/
structure Solid (r : Desktop) : Prop where
  left : i32Min ≤ r.minX
  top : i32Min ≤ r.minY
  width : r.minX < r.maxX
  height : r.minY < r.maxY
  right : r.maxX ≤ i32Max
  bottom : r.maxY ≤ i32Max

variable {d : DisplayInfo} {r : Desktop} {ds : List DisplayInfo}

theorem Fits.right_eq (h : Fits d) : Pointer.right d = d.x + d.width := by
  obtain ⟨hl, -, hw, -, hr, -⟩ := h
  unfold Pointer.right wrapI32
  simp only [i32Min, i32Max] at hl hr
  omega

theorem Fits.bottom_eq (h : Fits d) : Pointer.bottom d = d.y + d.height := by
  obtain ⟨-, ht, -, hh, -, hb⟩ := h
  unfold Pointer.bottom wrapI32
  simp only [i32Min, i32Max] at ht hb
  omega

theorem within_around (h : Fits d) : Within d (around d) :=
  ⟨le_rfl, le_rfl, h.right_eq.ge, h.bottom_eq.ge⟩

theorem solid_around (h : Fits d) : Solid (around d) := by
  obtain ⟨hl, ht, hw, hh, hr, hb⟩ := h
  have hright : (around d).maxX = d.x + d.width := Fits.right_eq ⟨hl, ht, hw, hh, hr, hb⟩
  have hbottom : (around d).maxY = d.y + d.height := Fits.bottom_eq ⟨hl, ht, hw, hh, hr, hb⟩
  refine ⟨hl, ht, ?_, ?_, by rw [hright]; exact hr, by rw [hbottom]; exact hb⟩
  · rw [hright]
    show d.x < _
    omega
  · rw [hbottom]
    show d.y < _
    omega

theorem Within.extend {d' : DisplayInfo} (h : Within d r) : Within d (extend r d') :=
  ⟨le_trans (min_le_left _ _) h.left, le_trans (min_le_left _ _) h.top,
    le_trans h.right (le_max_left _ _), le_trans h.bottom (le_max_left _ _)⟩

theorem within_extend (h : Fits d) (r : Desktop) : Within d (extend r d) :=
  ⟨min_le_right _ _, min_le_right _ _, le_trans h.right_eq.ge (le_max_right _ _),
    le_trans h.bottom_eq.ge (le_max_right _ _)⟩

theorem Solid.extend (hr : Solid r) (h : Fits d) : Solid (extend r d) where
  left := le_min hr.left h.left
  top := le_min hr.top h.top
  width := lt_of_le_of_lt (min_le_left _ _) (lt_of_lt_of_le hr.width (le_max_left _ _))
  height := lt_of_le_of_lt (min_le_left _ _) (lt_of_lt_of_le hr.height (le_max_left _ _))
  right := max_le hr.right (h.right_eq.trans_le h.right)
  bottom := max_le hr.bottom (h.bottom_eq.trans_le h.bottom)

theorem foldl_extend (hr : Solid r) (hds : ∀ d ∈ ds, Fits d) :
    Solid (ds.foldl extend r) ∧ (∀ d ∈ ds, Within d (ds.foldl extend r)) ∧
      ∀ d, Within d r → Within d (ds.foldl extend r) := by
  induction ds generalizing r with
  | nil => exact ⟨hr, by simp, fun _ h => h⟩
  | cons d ds ih =>
    have hd : Fits d := hds d List.mem_cons_self
    obtain ⟨hsolid, hall, hkept⟩ := ih (hr.extend hd) fun d hd => hds d (List.mem_cons_of_mem _ hd)
    refine ⟨hsolid, fun d' hd' => ?_, fun d' hd' => hkept d' hd'.extend⟩
    obtain rfl | hd' := List.mem_cons.mp hd'
    · exact hkept d' (within_extend hd r)
    · exact hall d' hd'

theorem covering_spec (h : covering ds = some r) (hds : ∀ d ∈ ds, Fits d) :
    Solid r ∧ ∀ d ∈ ds, Within d r := by
  cases ds with
  | nil => cases h
  | cons first rest =>
    obtain rfl := Option.some.inj h
    have hfirst : Fits first := hds first List.mem_cons_self
    obtain ⟨hsolid, hall, hkept⟩ := foldl_extend (solid_around hfirst)
      fun d hd => hds d (List.mem_cons_of_mem _ hd)
    refine ⟨hsolid, fun d hd => ?_⟩
    obtain rfl | hd := List.mem_cons.mp hd
    · exact hkept d (within_around hfirst)
    · exact hall d hd

/-! One movement. -/

/-- Along one axis, from a place by some distance to another place between two bounds. -/
structure Along (low high source distance place : Int) : Prop where
  above : low ≤ place
  below : place < high
  /-- A movement that does not leave the bounds is made as it is. -/
  exact : low ≤ source + distance → source + distance < high → place = source + distance
  /-- One that does is cut short, but from inside never goes the other way. -/
  forth : low ≤ source → source + distance ≤ i32Max → 0 ≤ distance → source < high →
    source ≤ place ∧ place ≤ source + distance
  back : source < high → i32Min ≤ source + distance → distance ≤ 0 → low ≤ source →
    source + distance ≤ place ∧ place ≤ source

theorem along_of_clamp {low high source distance place : Int} (hlow : i32Min ≤ low)
    (hwidth : low < high) (hhigh : high ≤ i32Max)
    (h : clamp (wrapI32 (source + distance)) low (wrapI32 (high - 1)) = some place) :
    Along low high source distance place := by
  simp only [i32Min, i32Max] at hlow hhigh
  have hlast : wrapI32 (high - 1) = high - 1 := by unfold wrapI32; omega
  have hplace : place = max low (min (wrapI32 (source + distance)) (high - 1)) := by
    rw [hlast, clamp, if_neg (by omega)] at h
    exact (Option.some.inj h).symm
  have hwrap : i32Min ≤ source + distance → source + distance ≤ i32Max →
      wrapI32 (source + distance) = source + distance := by
    intro hl hh
    simp only [i32Min, i32Max] at hl hh
    unfold wrapI32
    omega
  refine ⟨by omega, by omega, fun hl hh => ?_, fun hl hfit hd hs => ?_, fun hs hfit hd hl => ?_⟩
  · rw [hwrap (by simp only [i32Min]; omega) (by simp only [i32Max]; omega)] at hplace
    omega
  · rw [hwrap (by simp only [i32Min]; omega) hfit] at hplace
    omega
  · rw [hwrap hfit (by simp only [i32Max]; omega)] at hplace
    omega

theorem clamp_ne_none {low high n : Int} (hlow : i32Min ≤ low) (hwidth : low < high)
    (hhigh : high ≤ i32Max) : clamp n low (wrapI32 (high - 1)) ≠ none := by
  simp only [i32Min, i32Max] at hlow hhigh
  have hlast : wrapI32 (high - 1) = high - 1 := by unfold wrapI32; omega
  rw [hlast, clamp, if_neg (by omega)]
  exact Option.some_ne_none _

/-- What is posted for a movement: a drag while buttons are held, of the left one if it is among
them, else of the right one. -/
def dragOf (held : BitVec 32) : CGEventType × Int :=
  if held &&& 1 ≠ 0 then (.leftMouseDragged, 0)
  else if held &&& 2 ≠ 0 then (.rightMouseDragged, 1)
  else if held ≠ 0 then (.otherMouseDragged, 2)
  else (.mouseMoved, 0)

/-- A movement that was posted, and that is remembered. -/
structure Posted (s : MacSystem) (dx dy : Int) (i j : Injector) (e : CGEvent) : Prop where
  kind : (e.kind, e.buttonNumber) = dragOf i.heldButtons
  deltaX : e.deltaX = wrapI32 (e.location.x - (i.currentPoint s).x)
  deltaY : e.deltaY = wrapI32 (e.location.y - (i.currentPoint s).y)
  remembered : j = i.remember e.location.x e.location.y
  free : s.desktop = none → e.location =
    ⟨wrapI32 ((i.currentPoint s).x + dx), wrapI32 ((i.currentPoint s).y + dy)⟩
  kept : ∀ r, s.desktop = some r → Solid r →
    Along r.minX r.maxX (i.currentPoint s).x dx e.location.x ∧
      Along r.minY r.maxY (i.currentPoint s).y dy e.location.y

theorem injectMove_posted {s : MacSystem} {dx dy : Int} {i j : Injector} {posted : List CGEvent}
    (h : injectMove s dx dy i = (j, .ok posted)) :
    ∃ e, posted = [e] ∧ Posted s dx dy i j e := by
  unfold injectMove at h
  dsimp only at h
  split at h
  · cases h
  rename_i nx ny htarget
  split at h
  · rename_i event hevent
    obtain ⟨rfl, hposted⟩ := Prod.mk.inj h
    obtain rfl := Except.ok.inj hposted
    unfold newEvent at hevent
    split at hevent
    · obtain rfl := Except.ok.inj hevent
      refine ⟨_, rfl, rfl, rfl, rfl, rfl, fun hd => ?_, fun r hd hr => ?_⟩
      · rw [hd] at htarget
        obtain ⟨rfl, rfl⟩ := Prod.mk.inj (Option.some.inj htarget)
        rfl
      · rw [hd] at htarget
        simp only [Option.bind_eq_bind, Option.bind_eq_some_iff, Option.pure_def,
          Option.some.injEq, Prod.mk.injEq] at htarget
        obtain ⟨x, hx, y, hy, rfl, rfl⟩ := htarget
        exact ⟨along_of_clamp hr.left hr.width hr.right hx,
          along_of_clamp hr.top hr.height hr.bottom hy⟩
    · cases hevent
  · cases h

theorem injectMove_ne_panic {s : MacSystem} {dx dy : Int} {i : Injector}
    (h : ∀ r, s.desktop = some r → Solid r) : (injectMove s dx dy i).2 ≠ .error .panic := by
  intro hpanic
  unfold injectMove at hpanic
  dsimp only at hpanic
  split at hpanic
  · rename_i htarget
    cases hd : s.desktop with
    | none => simp [hd] at htarget
    | some r =>
      obtain ⟨hl, ht, hw, hh, hr, hb⟩ := h r hd
      rw [hd] at htarget
      simp only [Option.bind_eq_bind, Option.bind_eq_none_iff, Option.pure_def,
        reduceCtorEq, imp_false] at htarget
      obtain ⟨x, hx⟩ := Option.ne_none_iff_exists'.mp (clamp_ne_none (n := wrapI32
        ((i.currentPoint s).x + dx)) hl hw hr)
      obtain ⟨y, hy⟩ := Option.ne_none_iff_exists'.mp (clamp_ne_none (n := wrapI32
        ((i.currentPoint s).y + dy)) ht hh hb)
      exact htarget x hx y hy
  · split at hpanic
    · cases hpanic
    · rename_i herror
      unfold newEvent at herror
      split at herror
      · cases herror
      · obtain rfl := Except.error.inj herror
        cases hpanic

/-! Whole runs. -/

/-- What tells a drag from a movement, and one drag from another. -/
def dragged (buttons : Finset MouseButton) : CGEventType × Int :=
  if .left ∈ buttons then (.leftMouseDragged, 0)
  else if .right ∈ buttons then (.rightMouseDragged, 1)
  else if buttons.Nonempty then (.otherMouseDragged, 2)
  else (.mouseMoved, 0)

theorem dragOf_eq {w : Injection.World} (h : Injection.Pressed w) :
    dragOf w.injector.heldButtons = dragged w.buttons := by
  have hleft : w.injector.heldButtons &&& 1 ≠ 0 ↔ .left ∈ w.buttons := h.bits .left
  have hright : w.injector.heldButtons &&& 2 ≠ 0 ↔ .right ∈ w.buttons := h.bits .right
  simp only [dragOf, dragged, hleft, hright, h.held]

/-- A movement is a drag while buttons are held, and says how far the pointer went. It stays in the
rectangle around all the displays there were less than two seconds ago, and from inside it goes no
other way than it was told, as long as the sum is a number of 32 bits; only where no display could
be listed it goes wherever it is told. -/
structure Proper (listings : List (ℕ × List DisplayInfo)) (m : Move) : Prop where
  kind : (m.event.kind, m.event.buttonNumber) = dragged m.buttons
  deltaX : m.event.deltaX = wrapI32 (m.event.location.x - m.source.x)
  deltaY : m.event.deltaY = wrapI32 (m.event.location.y - m.source.y)
  free : m.desktop = none →
    m.event.location = ⟨wrapI32 (m.source.x + m.dx), wrapI32 (m.source.y + m.dy)⟩
  kept : ∀ r, m.desktop = some r →
    (∃ t ds, (t, ds) ∈ listings ∧ t ≤ m.time ∧ m.time < t + 2000 ∧ covering ds = some r ∧
      ∀ d ∈ ds, Within d r) ∧
    Along r.minX r.maxX m.source.x m.dx m.event.location.x ∧
    Along r.minY r.maxY m.source.y m.dy m.event.location.y

def Listed (listings : List (ℕ × List DisplayInfo)) (now : ℕ) (c : Cached) : Prop :=
  c.time ≤ now ∧ ∃ ds, (c.time, ds) ∈ listings ∧ covering ds = some c.rect

structure Inv (w : World) : Prop where
  pressed : Injection.Pressed w.injection
  cache : ∀ c ∈ w.cache, Listed w.listings w.now c
  fits : ∀ e ∈ w.listings, ∀ d ∈ e.2, Fits d
  moves : ∀ m ∈ w.moves, Proper w.listings m
  errors : .panic ∉ w.errors

variable {w v : World} {now : ℕ} {displays : Option (List DisplayInfo)} {cache : Option Cached}
  {listings more : List (ℕ × List DisplayInfo)}

theorem Proper.append {m : Move} (h : Proper listings m) : Proper (more ++ listings) m := by
  refine ⟨h.kind, h.deltaX, h.deltaY, h.free, fun r hr => ?_⟩
  obtain ⟨⟨t, ds, hmem, hrest⟩, halong⟩ := h.kept r hr
  exact ⟨⟨t, ds, List.mem_append_right _ hmem, hrest⟩, halong⟩

theorem Listed.append {c : Cached} (h : Listed listings now c) :
    Listed (more ++ listings) now c := by
  obtain ⟨hpast, ds, hmem, hds⟩ := h
  exact ⟨hpast, ds, List.mem_append_right _ hmem, hds⟩

/-- What is taken for the desktop was listed less than two seconds ago, and so was what is kept. -/
theorem desktopBounds_spec (hcache : ∀ c ∈ cache, Listed listings now c)
    (hdisplays : ∀ ds ∈ displays, (now, ds) ∈ listings) :
    (∀ r, (desktopBounds now displays cache).1 = some r → ∃ t ds, (t, ds) ∈ listings ∧ t ≤ now ∧
      now < t + 2000 ∧ covering ds = some r) ∧
    ∀ c ∈ (desktopBounds now displays cache).2, Listed listings now c := by
  unfold desktopBounds
  split
  · rename_i c hc
    obtain ⟨hmem, hyoung⟩ := Option.filter_eq_some_iff.mp hc
    obtain ⟨hpast, ds, hds, hcover⟩ := hcache c hmem
    refine ⟨fun r hr => ?_, hcache⟩
    obtain rfl := Option.some.inj hr
    simp only [decide_eq_true_eq] at hyoung
    exact ⟨c.time, ds, hds, hpast, by omega, hcover⟩
  · split
    · rename_i rect hrect
      obtain ⟨ds, hds, hcover⟩ := Option.bind_eq_some_iff.mp hrect
      have hmem := hdisplays ds hds
      refine ⟨fun r hr => ?_, fun c hc => ?_⟩
      · obtain rfl := Option.some.inj hr
        exact ⟨now, ds, hmem, le_rfl, by omega, hcover⟩
      · obtain rfl := Option.some.inj hc
        exact ⟨le_rfl, ds, hmem, hcover⟩
    · exact ⟨fun r hr => (by cases hr), hcache⟩

theorem newEvent_ne_panic {s : MacSystem} {message : String} {e : CGEvent} {i : Injector} :
    (newEvent s message e).map (fun event => [i.post event]) ≠ .error .panic := by
  unfold newEvent
  split <;> exact fun h => by cases h

theorem inject_ne_panic {s : MacSystem} {e : InputEvent} {i : Injector}
    (h : ∀ dx dy, e = .mouseMove dx dy → ∀ r, s.desktop = some r → Solid r) :
    (i.inject s e).2 ≠ .error .panic := by
  cases e with
  | cursorEnter x y =>
    simp only [inject, setCursorPosition]
    split <;> exact fun h => by cases h
  | mouseMove dx dy => exact injectMove_ne_panic (h dx dy rfl)
  | mouseButton button down => exact newEvent_ne_panic
  | wheel delta horizontal =>
    simp only [inject, injectWheel]
    split
    · exact fun h => by cases h
    · exact newEvent_ne_panic
  | key vk scan down extended =>
    simp only [inject, injectKey]
    split
    · exact fun h => by cases h
    · exact newEvent_ne_panic

theorem mem_moved {e : InputEvent} {s : MacSystem} {posted : List CGEvent} {m : Move}
    (h : m ∈ w.moved e s posted) : ∃ dx dy, e = .mouseMove dx dy ∧ ∃ event ∈ posted,
      m = ⟨w.now, w.injection.injector.currentPoint s, dx, dy, s.desktop, w.injection.buttons,
        event⟩ := by
  cases e with
  | mouseMove dx dy =>
    obtain ⟨event, hevent, rfl⟩ := List.mem_map.mp h
    exact ⟨dx, dy, rfl, event, hevent, rfl⟩
  | cursorEnter | mouseButton | wheel | key => cases h

theorem Inv.system (h : Inv w) (e : InputEvent) (s : MacSystem)
    (hdisplays : ∀ ds ∈ displays, (w.now, ds) ∈ more ++ w.listings) :
    (∀ dx dy, e = .mouseMove dx dy → ∀ r, (w.system e s displays).1.desktop = some r →
      ∃ t ds, (t, ds) ∈ more ++ w.listings ∧ t ≤ w.now ∧ w.now < t + 2000 ∧
        covering ds = some r) ∧
    ∀ c ∈ (w.system e s displays).2, Listed (more ++ w.listings) w.now c := by
  have hcache : ∀ c ∈ w.cache, Listed (more ++ w.listings) w.now c :=
    fun c hc => (h.cache c hc).append
  cases e with
  | mouseMove dx dy =>
    obtain ⟨hbounds, hkept⟩ := desktopBounds_spec hcache hdisplays
    exact ⟨fun _ _ _ r hr => hbounds r hr, hkept⟩
  | cursorEnter | mouseButton | wheel | key =>
    refine ⟨?_, hcache⟩
    intro dx dy heq
    cases heq

theorem Inv.inject {e : InputEvent} {s : MacSystem} (h : Inv w)
    (hok : Plausible w (.inject e s displays)) (hs : step w (.inject e s displays) = some v) :
    Inv v := by
  simp only [Pointer.step, Option.map_eq_some_iff] at hs
  obtain ⟨injection, hinjection, hv⟩ := hs
  set more := displays.toList.map fun ds => (w.now, ds) with hmore
  have hdisplays : ∀ ds ∈ displays, (w.now, ds) ∈ more ++ w.listings := fun ds hds =>
    List.mem_append_left _ (List.mem_map_of_mem (Option.mem_toList.mpr hds))
  have hfits : ∀ e ∈ more ++ w.listings, ∀ d ∈ e.2, Fits d := by
    intro e he
    obtain he | he := List.mem_append.mp he
    · obtain ⟨ds, hds, rfl⟩ := List.mem_map.mp he
      exact hok ds (Option.mem_toList.mp hds)
    · exact h.fits e he
  obtain ⟨hbounds, hcache⟩ := h.system e s hdisplays
  set s' := (w.system e s displays).1
  have hpressed : Injection.Pressed injection := h.pressed.step hinjection
  have hmoves : ∀ m ∈ w.moves, Proper (more ++ w.listings) m := fun m hm => (h.moves m hm).append
  have hsolid : ∀ dx dy, e = .mouseMove dx dy → ∀ r, s'.desktop = some r →
      Solid r := by
    intro dx dy he r hr
    obtain ⟨t, ds, hmem, -, -, hcover⟩ := hbounds dx dy he r hr
    exact (covering_spec hcover (hfits _ hmem)).1
  cases hresult : (w.injection.injector.inject s' e).2 with
  | ok posted =>
    simp only [s', hresult] at hv
    subst hv
    refine ⟨hpressed, hcache, hfits, fun m hm => ?_, h.errors⟩
    obtain hm | hm := List.mem_append.mp hm
    · obtain ⟨dx, dy, rfl, event, hevent, rfl⟩ := mem_moved hm
      obtain ⟨e, rfl, hp⟩ := injectMove_posted (Prod.ext rfl hresult)
      obtain rfl := List.mem_singleton.mp hevent
      refine ⟨?_, hp.deltaX, hp.deltaY, hp.free, fun r hr => ?_⟩
      · rw [hp.kind, dragOf_eq h.pressed]
      · obtain ⟨t, ds, hmem, hpast, hyoung, hcover⟩ := hbounds dx dy rfl r hr
        obtain ⟨hsolid, hwithin⟩ := covering_spec hcover (hfits _ hmem)
        exact ⟨⟨t, ds, hmem, hpast, hyoung, hcover, hwithin⟩, hp.kept r hr hsolid⟩
    · exact hmoves m hm
  | error error =>
    simp only [s', hresult] at hv
    subst hv
    refine ⟨hpressed, hcache, hfits, hmoves, fun herror => ?_⟩
    obtain rfl | herror := List.mem_cons.mp herror
    · exact inject_ne_panic hsolid hresult
    · exact h.errors herror

theorem Inv.step {a : Action} (h : Inv w) (hok : Plausible w a) (hs : step w a = some v) :
    Inv v := by
  cases a with
  | inject e s displays => exact h.inject hok hs
  | elapse ms =>
    obtain rfl := Option.some.inj hs
    refine ⟨h.pressed, fun c hc => ?_, h.fits, h.moves, h.errors⟩
    obtain ⟨hpast, hlisted⟩ := h.cache c hc
    exact ⟨le_trans hpast (Nat.le_add_right _ _), hlisted⟩

theorem inv_start (now : ℕ) : Inv (start now) :=
  ⟨Injection.pressed_start, by simp [start], by simp [start], by simp [start], by simp [start]⟩

/-- Whatever arrives from the other machine and however displays come and go, as long as those that
are listed have a size and end within the numbers: injection never fails on the rectangle it keeps,
and every movement that is posted is a proper one. -/
theorem moves_proper {as : List Action} (h : Run step Plausible (start now) as w) :
    (∀ m ∈ w.moves, Proper w.listings m) ∧ .panic ∉ w.errors := by
  have hinv : Inv w := h.invariant (fun _ _ _ hi hok hs => hi.step hok hs) (inv_start now)
  exact ⟨hinv.moves, hinv.errors⟩

instance (w : World) (a : Action) : Decidable (Plausible w a) :=
  match a with
  | .inject _ _ displays => inferInstanceAs (Decidable (∀ ds ∈ displays, ∀ d ∈ ds, Fits d))
  | .elapse _ => .isTrue trivial

def builtIn : DisplayInfo := ⟨"display-1", "Main display", 0, 0, 1440, 900, 2, true⟩
def beamer : DisplayInfo := ⟨"display-2", "Display 2", 1440, 0, 1920, 1080, 1, false⟩

/-- Something is dragged to the far edge of the second display, which is then unplugged. -/
def dragging : List Action :=
  [.inject (.cursorEnter 100 100) plain none, .inject (.mouseButton .left true) plain none,
    .inject (.mouseMove 5000 0) plain (some [builtIn, beamer]), .elapse 1500,
    .inject (.mouseMove (-9) 4) plain (some [builtIn]), .elapse 500,
    .inject (.mouseMove 3 3) plain (some [builtIn])]

theorem moves_proper_dragging : ∃ w, Run step Plausible (start 0) dragging w ∧
    w.moves.map (fun m => (m.event.kind, m.event.location)) =
      [(.leftMouseDragged, ⟨1439, 107⟩), (.leftMouseDragged, ⟨3350, 104⟩),
        (.leftMouseDragged, ⟨3359, 100⟩)] ∧
    (∀ m ∈ w.moves, Proper w.listings m) ∧ .panic ∉ w.errors := by
  obtain ⟨w, hrun, hw⟩ := run_of_replay step Plausible (start 0) dragging
    (fun w => w.moves.map fun m => (m.event.kind, m.event.location))
    (b := [(.leftMouseDragged, ⟨1439, 107⟩), (.leftMouseDragged, ⟨3350, 104⟩),
        (.leftMouseDragged, ⟨3359, 100⟩)]) (by decide +kernel)
  exact ⟨w, hrun, hw, moves_proper hrun⟩

/-! Places and movements. -/

def total (part : Move → Int) : List Move → Int
  | [] => 0
  | m :: ms => part m + total part ms

theorem total_append (part : Move → Int) (ms ns : List Move) :
    total part (ms ++ ns) = total part ms + total part ns := by
  induction ms with
  | nil => exact (Int.zero_add _).symm
  | cons m ms ih =>
    show part m + total part (ms ++ ns) = part m + total part ms + total part ns
    rw [ih, Int.add_assoc]

def Steered (_ : World) : Action → Prop
  | .inject (.cursorEnter _ _) _ _ => False
  | _ => True

def World.pointer (w : World) : Point :=
  ⟨w.injection.injector.lastX, w.injection.injector.lastY⟩

/-- From one state to a later one the movements add up to the way of the pointer. -/
structure AddsUp (w v : World) (new : List Move) : Prop where
  moves : v.moves = new ++ w.moves
  x : wrapI32 (total (·.event.deltaX) new) = wrapI32 (v.pointer.x - w.pointer.x)
  y : wrapI32 (total (·.event.deltaY) new) = wrapI32 (v.pointer.y - w.pointer.y)
  latest : v.pointer = (new.head?.map (·.event.location)).getD w.pointer

theorem wrapI32_add {a b c d : Int} (hb : wrapI32 a = wrapI32 b) (hd : wrapI32 c = wrapI32 d) :
    wrapI32 (a + c) = wrapI32 (b + d) := by
  unfold wrapI32 at *
  omega

theorem wrapI32_wrapI32 (n : Int) : wrapI32 (wrapI32 n) = wrapI32 n := by
  unfold wrapI32
  omega

theorem AddsUp.trans {u : World} {new newer : List Move} (h : AddsUp w v new)
    (h' : AddsUp v u newer) : AddsUp w u (newer ++ new) := by
  refine ⟨by rw [h'.moves, h.moves, List.append_assoc], ?_, ?_, ?_⟩
  · rw [total_append, wrapI32_add h'.x h.x, sub_add_sub_cancel]
  · rw [total_append, wrapI32_add h'.y h.y, sub_add_sub_cancel]
  · rw [h'.latest, h.latest]
    cases newer <;> rfl

theorem addsUp_nil (hmoves : v.moves = w.moves) (hpointer : v.pointer = w.pointer) :
    AddsUp w v [] := by
  refine ⟨hmoves, ?_, ?_, hpointer⟩
  · rw [hpointer, sub_self]
    rfl
  · rw [hpointer, sub_self]
    rfl

theorem inject_still {e : InputEvent} {s : MacSystem} {i : Injector}
    (hmove : ∀ dx dy, e ≠ .mouseMove dx dy) (hplace : ∀ x y, e ≠ .cursorEnter x y) :
    (i.inject s e).1.lastX = i.lastX ∧ (i.inject s e).1.lastY = i.lastY ∧
      (i.inject s e).1.haveLast = i.haveLast := by
  cases e with
  | cursorEnter x y => exact absurd rfl (hplace x y)
  | mouseMove dx dy => exact absurd rfl (hmove dx dy)
  | mouseButton button down => exact ⟨rfl, rfl, rfl⟩
  | wheel delta horizontal => simp [inject, injectWheel_state]
  | key vk scan down extended =>
    simp only [inject, injectKey]
    split
    · exact ⟨rfl, rfl, rfl⟩
    · split <;> exact ⟨rfl, rfl, rfl⟩

theorem injectMove_error {s : MacSystem} {dx dy : Int} {i : Injector} {error : InjectError}
    (h : (injectMove s dx dy i).2 = .error error) : (injectMove s dx dy i).1 = i := by
  unfold injectMove at h ⊢
  dsimp only at h ⊢
  split at h
  · rfl
  · split at h
    · cases h
    · rfl

theorem addsUp_step {a : Action} (hok : Steered w a) (hs : step w a = some v)
    (hlast : w.injection.injector.haveLast = true) :
    v.injection.injector.haveLast = true ∧ ∃ new, AddsUp w v new := by
  cases a with
  | elapse ms =>
    obtain rfl := Option.some.inj hs
    exact ⟨hlast, [], addsUp_nil rfl rfl⟩
  | inject e s displays =>
    simp only [step, Option.map_eq_some_iff] at hs
    obtain ⟨injection, hinjection, hv⟩ := hs
    generalize (w.system e s displays).1 = s' at hinjection hv
    obtain rfl := Option.some.inj hinjection
    by_cases hmove : ∃ dx dy, e = .mouseMove dx dy
    · obtain ⟨dx, dy, rfl⟩ := hmove
      have hcurrent : w.injection.injector.currentPoint s' = w.pointer := by
        rw [currentPoint, if_pos hlast]
        rfl
      cases hresult : (injectMove s' dx dy w.injection.injector).2 with
      | ok posted =>
        have hpair : injectMove s' dx dy w.injection.injector =
            ((injectMove s' dx dy w.injection.injector).1, .ok posted) := Prod.ext rfl hresult
        obtain ⟨e, rfl, hp⟩ := injectMove_posted hpair
        simp only [inject, hresult] at hv
        subst hv
        have hj := hp.remembered
        have hx := hp.deltaX
        have hy := hp.deltaY
        rw [hcurrent] at hx hy
        refine ⟨?_, w.moved _ s' [e], rfl, ?_, ?_, ?_⟩
        · show (injectMove s' dx dy w.injection.injector).1.haveLast = true
          rw [hj]
          rfl
        · show wrapI32 (e.deltaX + 0) = wrapI32
            ((injectMove s' dx dy w.injection.injector).1.lastX - w.pointer.x)
          rw [hj, Int.add_zero, hx, wrapI32_wrapI32]
          rfl
        · show wrapI32 (e.deltaY + 0) = wrapI32
            ((injectMove s' dx dy w.injection.injector).1.lastY - w.pointer.y)
          rw [hj, Int.add_zero, hy, wrapI32_wrapI32]
          rfl
        · show (⟨(injectMove s' dx dy w.injection.injector).1.lastX,
            (injectMove s' dx dy w.injection.injector).1.lastY⟩ : Point) = e.location
          rw [hj]
          rfl
      | error error =>
        have hsame := injectMove_error hresult
        simp only [inject, hresult] at hv
        subst hv
        refine ⟨?_, [], addsUp_nil rfl ?_⟩
        · show (injectMove s' dx dy w.injection.injector).1.haveLast = true
          rw [hsame]
          exact hlast
        · show (⟨(injectMove s' dx dy w.injection.injector).1.lastX,
            (injectMove s' dx dy w.injection.injector).1.lastY⟩ : Point) = w.pointer
          rw [hsame]
          rfl
    · have hnomove : ∀ dx dy, e ≠ .mouseMove dx dy := fun dx dy he => hmove ⟨dx, dy, he⟩
      have hnoplace : ∀ x y, e ≠ .cursorEnter x y := by
        rintro x y rfl
        exact hok
      obtain ⟨hx, hy, hkept⟩ := @inject_still e s' w.injection.injector hnomove hnoplace
      have hpointer : (⟨(w.injection.injector.inject s' e).1.lastX,
          (w.injection.injector.inject s' e).1.lastY⟩ : Point) = w.pointer := by
        rw [hx, hy]
        rfl
      have hmoved : ∀ posted, w.moved e s' posted = [] := by
        intro posted
        cases e with
        | mouseMove dx dy => exact absurd rfl (hnomove dx dy)
        | cursorEnter | mouseButton | wheel | key => rfl
      split at hv
      · subst hv
        refine ⟨hkept.trans hlast, [], addsUp_nil ?_ hpointer⟩
        show w.moved e s' _ ++ w.moves = w.moves
        rw [hmoved]
        rfl
      · subst hv
        exact ⟨hkept.trans hlast, [], addsUp_nil rfl hpointer⟩

/-- However the pointer is moved, also against the edges and while displays come and go: once it has
been placed or moved, from any moment until it is placed anew the movements that are posted add up
to the way it has gone, and it is where the latest of them went. -/
theorem motion_adds_up {as : List Action} (h : Run step Steered w as v)
    (hlast : w.injection.injector.haveLast = true) : ∃ new, AddsUp w v new := by
  have hrelated : w.injection.injector.haveLast = true →
      v.injection.injector.haveLast = true ∧ ∃ new, AddsUp w v new := by
    refine h.related (R := fun w v => w.injection.injector.haveLast = true →
      v.injection.injector.haveLast = true ∧ ∃ new, AddsUp w v new) (fun w hw => ?_)
      (fun w v u hwv hvu hw => ?_) fun w a v hok hs hw => addsUp_step hok hs hw
    · exact ⟨hw, [], addsUp_nil rfl rfl⟩
    · obtain ⟨hv, new, hnew⟩ := hwv hw
      obtain ⟨hu, newer, hnewer⟩ := hvu hv
      exact ⟨hu, newer ++ new, hnew.trans hnewer⟩
  exact (hrelated hlast).2

theorem motion_adds_up_dragging : ∃ w v, Run step Any (start 0) (dragging.take 1) w ∧
    Run step Steered w (dragging.drop 1) v ∧ v.pointer = ⟨1439, 107⟩ ∧
    ∃ new, AddsUp w v new := by
  obtain ⟨w, hplaced, hw⟩ := run_of_replay step Any (start 0) (dragging.take 1)
    (fun w => (w.injection.injector.haveLast,
      (replay step Any w (dragging.drop 1)).map World.pointer))
    (b := (true, some ⟨1439, 107⟩)) (by decide +kernel)
  obtain ⟨hlast, hpointer⟩ := Prod.mk.inj hw
  obtain ⟨v, hrun, hv⟩ := run_of_replay step Any w (dragging.drop 1) World.pointer hpointer
  have hsteered : Run step Steered w (dragging.drop 1) v := by
    refine hrun.of_mem fun a ha s => ?_
    simp only [dragging, List.drop_succ_cons, List.drop_zero, List.mem_cons, List.not_mem_nil,
      or_false] at ha
    obtain rfl | rfl | rfl | rfl | rfl | rfl := ha <;> trivial
  exact ⟨w, v, hplaced, hsteered, hv, motion_adds_up hsteered hlast⟩

end InputShare.Pointer

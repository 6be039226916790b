import InputShare.Lib.Streams
import InputShare.Net.Session

/-! How messages are framed: a length of four bytes, then that many bytes. What frames are written
are the frames read, however the bytes were split on the way. -/
namespace InputShare
open Streams

namespace Wire

/-- The sending half of a connection: what has gone out, and how many bytes it still takes if it
is going to fail. -/
structure Writer where
  written : Octets
  room : Option ℕ
  failure : String

def Writer.writeAll (w : Writer) (bytes : Octets) : Option NetError × Writer :=
  match w.room with
  | none => (none, { w with written := w.written ++ bytes })
  | some room =>
    let taken : Writer :=
      { w with written := w.written ++ bytes.take room, room := some (room - bytes.length) }
    (if bytes.length ≤ room then none else some (.io w.failure), taken)

def writeFrame (w : Writer) (bytes : Octets) : Option NetError × Writer :=
  if bytes.length > SessionTask.maxFrame then (some (.frameTooLarge bytes.length), w)
  else
    match w.writeAll (toBeBytes 4 (bytes.length % 2 ^ 32)) with
    | (some error, w) => (some error, w)
    | (none, w) => w.writeAll bytes

def writeFrames (w : Writer) : List Octets → Option NetError × Writer
  | [] => (none, w)
  | bytes :: rest =>
    match writeFrame w bytes with
    | (some error, w) => (some error, w)
    | (none, w) => writeFrames w rest

/-- The receiving half of a connection: the pieces in which bytes will arrive and the error that
ends them; the bytes that were read, and the room that was reserved for frames. -/
structure Reader where
  pieces : List Octets
  failure : String
  consumed : Octets
  reserved : List ℕ

def Reader.new (pieces : List Octets) (failure : String) : Reader := ⟨pieces, failure, [], []⟩

def Reader.rest (r : Reader) : Octets := r.pieces.flatten

def Reader.readExact (r : Reader) (n : ℕ) : Except NetError Octets × Reader :=
  let (got, left) := fill n r.pieces
  let r := { r with pieces := left, consumed := r.consumed ++ got }
  (if got.length < n then .error (.io r.failure) else .ok got, r)

def readFrame (r : Reader) : Except NetError Octets × Reader :=
  match r.readExact 4 with
  | (.error error, r) => (.error error, r)
  | (.ok header, r) =>
    let length := fromBeBytes header
    if length > SessionTask.maxFrame then (.error (.frameTooLarge length), r)
    else { r with reserved := r.reserved ++ [length] }.readExact length

/-! What a reader does, by the bytes still to come. -/

theorem readExact_snd (r : Reader) (n : ℕ) :
    (r.readExact n).2.rest = r.rest.drop n ∧
      (r.readExact n).2.consumed = r.consumed ++ r.rest.take n ∧
      (r.readExact n).2.failure = r.failure ∧ (r.readExact n).2.reserved = r.reserved := by
  obtain ⟨hgot, hleft⟩ := fill_spec n r.pieces
  exact ⟨hleft, by simp only [Reader.readExact, hgot]; rfl, rfl, rfl⟩

theorem readExact_fst (r : Reader) (n : ℕ) :
    (r.readExact n).1 =
      if r.rest.length < n then .error (.io r.failure) else .ok (r.rest.take n) := by
  obtain ⟨hgot, -⟩ := fill_spec n r.pieces
  simp [Reader.readExact, hgot, Reader.rest]

theorem readFrame_short {r : Reader} (h : r.rest.length < 4) :
    readFrame r = (.error (.io r.failure), (r.readExact 4).2) := by
  have hfst := readExact_fst r 4
  rw [if_pos h] at hfst
  rw [readFrame, ← hfst]
  split
  · rename_i hr
    rw [hr]
  · rename_i hr
    rw [hr] at hfst
    cases hfst

def Reader.past (r : Reader) : Reader :=
  let s := (r.readExact 4).2
  { s with reserved := s.reserved ++ [fromBeBytes (r.rest.take 4)] }

theorem readFrame_eq {r : Reader} (h : 4 ≤ r.rest.length) :
    readFrame r =
      if fromBeBytes (r.rest.take 4) > SessionTask.maxFrame then
        (.error (.frameTooLarge (fromBeBytes (r.rest.take 4))), (r.readExact 4).2)
      else r.past.readExact (fromBeBytes (r.rest.take 4)) := by
  have hfst := readExact_fst r 4
  rw [if_neg (not_lt.mpr h)] at hfst
  rw [readFrame]
  split
  · rename_i hr
    rw [hr] at hfst
    cases hfst
  · rename_i header s hr
    have hs : s = (r.readExact 4).2 := by rw [hr]
    rw [hr] at hfst
    obtain rfl := Except.ok.inj hfst
    rw [hs]
    rfl

theorem rest_past (r : Reader) : r.past.rest = r.rest.drop 4 := (readExact_snd r 4).1

theorem consumed_past (r : Reader) : r.past.consumed = r.consumed ++ r.rest.take 4 :=
  (readExact_snd r 4).2.1

theorem readFrame_ok {r s : Reader} {frame : Octets} (h : readFrame r = (.ok frame, s)) :
    ∃ header : Octets, header.length = 4 ∧ fromBeBytes header = frame.length ∧
      r.rest = header ++ frame ++ s.rest ∧ s.consumed = r.consumed ++ header ++ frame ∧
      s.failure = r.failure := by
  by_cases hshort : r.rest.length < 4
  · rw [readFrame_short hshort] at h
    cases h
  rw [readFrame_eq (not_lt.mp hshort)] at h
  split at h
  · cases h
  have hfst := readExact_fst r.past (fromBeBytes (r.rest.take 4))
  obtain ⟨hrest, hconsumed, hfailure, -⟩ := readExact_snd r.past (fromBeBytes (r.rest.take 4))
  rw [h] at hfst hrest hconsumed hfailure
  split at hfst
  · cases hfst
  rename_i hlong
  obtain rfl := Except.ok.inj hfst
  refine ⟨r.rest.take 4, by simp; omega, ?_, ?_, ?_, hfailure⟩
  · rw [List.length_take, min_eq_left (not_lt.mp hlong)]
  · rw [hrest, List.append_assoc, List.take_append_drop, rest_past, List.take_append_drop]
  · rw [hconsumed, consumed_past]

theorem readFrame_frame {r : Reader} {header frame rest : Octets} (hlength : header.length = 4)
    (hheader : fromBeBytes header = frame.length) (hmax : frame.length ≤ SessionTask.maxFrame)
    (h : r.rest = header ++ frame ++ rest) :
    ∃ s, readFrame r = (.ok frame, s) ∧ s.rest = rest ∧
      s.consumed = r.consumed ++ header ++ frame ∧ s.failure = r.failure := by
  have htake : r.rest.take 4 = header := by rw [h, List.append_assoc, ← hlength, List.take_left]
  have hpast : r.past.rest = frame ++ rest := by
    rw [rest_past, h, List.append_assoc, ← hlength, List.drop_left]
  obtain ⟨hrest, hconsumed, hfailure, -⟩ := readExact_snd r.past frame.length
  refine ⟨(r.past.readExact frame.length).2, ?_, ?_, ?_, hfailure⟩
  · have hfst := readExact_fst r.past frame.length
    rw [hpast, if_neg (by simp), List.take_left] at hfst
    rw [readFrame_eq (by simp [h, hlength]), htake, hheader, if_neg (not_lt.mpr hmax), ← hfst]
  · rw [hrest, hpast, List.drop_left]
  · rw [hconsumed, hpast, List.take_left, consumed_past, htake]

/-- The loop that reads frame after frame until a read fails. -/
def readFrames (r : Reader) : List Octets × NetError × Reader :=
  match _hr : readFrame r with
  | (.error error, s) => ([], error, s)
  | (.ok frame, s) =>
    let (frames, last) := readFrames s
    (frame :: frames, last)
termination_by r.rest.length
decreasing_by
  obtain ⟨header, hlength, -, hrest, -⟩ := readFrame_ok _hr
  simp [hrest, hlength]
  omega

theorem readFrames_error {r s : Reader} {error : NetError} (h : readFrame r = (.error error, s)) :
    readFrames r = ([], error, s) := by
  rw [readFrames]
  split
  · rename_i hr
    obtain ⟨he, rfl⟩ := Prod.mk.inj (h.symm.trans hr)
    obtain rfl := Except.error.inj he
    rfl
  · rename_i hr
    cases h.symm.trans hr

theorem readFrames_ok {r s : Reader} {frame : Octets} (h : readFrame r = (.ok frame, s)) :
    readFrames r = (frame :: (readFrames s).1, (readFrames s).2) := by
  rw [readFrames]
  split
  · rename_i hr
    cases h.symm.trans hr
  · rename_i hr
    obtain ⟨he, rfl⟩ := Prod.mk.inj (h.symm.trans hr)
    obtain rfl := Except.ok.inj he
    rfl

/-! What a writer that does not fail puts on the wire. -/

def frame (bytes : Octets) : Octets := toBeBytes 4 bytes.length ++ bytes

theorem mod_of_le_maxFrame {n : ℕ} (h : n ≤ SessionTask.maxFrame) : n % 2 ^ 32 = n :=
  Nat.mod_eq_of_lt (by unfold SessionTask.maxFrame at h; omega)

theorem fromBeBytes_header {bytes : Octets} (h : bytes.length ≤ SessionTask.maxFrame) :
    fromBeBytes (toBeBytes 4 bytes.length) = bytes.length := by
  rw [fromBeBytes_toBeBytes]
  exact mod_of_le_maxFrame h

theorem writeFrame_eq {w : Writer} (hroom : w.room = none) {bytes : Octets}
    (h : bytes.length ≤ SessionTask.maxFrame) :
    writeFrame w bytes = (none, { w with written := w.written ++ frame bytes }) := by
  rw [writeFrame, if_neg (not_lt.mpr h), mod_of_le_maxFrame h]
  simp [Writer.writeAll, hroom, frame]

theorem writeFrames_eq {w : Writer} (hroom : w.room = none) {payloads : List Octets}
    (h : ∀ bytes ∈ payloads, bytes.length ≤ SessionTask.maxFrame) :
    writeFrames w payloads = (none, { w with written := w.written ++ payloads.flatMap frame }) := by
  induction payloads generalizing w with
  | nil => simp [writeFrames]
  | cons bytes rest ih =>
    rw [writeFrames, writeFrame_eq hroom (h bytes List.mem_cons_self)]
    simp only
    rw [ih (by exact hroom) fun b hb => h b (List.mem_cons_of_mem _ hb)]
    simp

/-- Frames on the wire are read one by one, and nothing is left of them. -/
theorem readFrames_frames {payloads : List Octets}
    (h : ∀ bytes ∈ payloads, bytes.length ≤ SessionTask.maxFrame) {r : Reader}
    (hr : r.rest = payloads.flatMap frame) :
    ∃ last, readFrames r = (payloads, .io r.failure, last) ∧ last.rest = [] ∧
      last.consumed = r.consumed ++ r.rest := by
  induction payloads generalizing r with
  | nil =>
    have hnone : r.rest = [] := by simpa using hr
    obtain ⟨hrest, hconsumed, -⟩ := readExact_snd r 4
    refine ⟨(r.readExact 4).2, readFrames_error (readFrame_short (by simp [hnone])), ?_, ?_⟩
    · simp [hrest, hnone]
    · simp [hconsumed, hnone]
  | cons bytes rest ih =>
    have hmax := h bytes List.mem_cons_self
    obtain ⟨s, hs, hleft, hconsumed, hfailure⟩ := readFrame_frame (length_toBeBytes 4 _)
      (fromBeBytes_header hmax) hmax (by simpa [frame] using hr)
    obtain ⟨last, hlast, hend, hall⟩ := ih (fun b hb => h b (List.mem_cons_of_mem _ hb)) hleft
    refine ⟨last, ?_, hend, ?_⟩
    · rw [readFrames_ok hs, hlast, hfailure]
    · rw [hall, hconsumed, hleft, hr]
      simp [frame]

theorem readFrame_tooLarge {r : Reader} (h : 4 ≤ r.rest.length)
    (hlong : SessionTask.maxFrame < fromBeBytes (r.rest.take 4)) :
    ∃ s, readFrame r = (.error (.frameTooLarge (fromBeBytes (r.rest.take 4))), s) ∧
      s.reserved = r.reserved ∧ s.rest = r.rest.drop 4 := by
  obtain ⟨hrest, -, -, hreserved⟩ := readExact_snd r 4
  exact ⟨_, by rw [readFrame_eq h, if_pos hlong], hreserved, hrest⟩

theorem readFrame_truncated {r : Reader} {header body missing : Octets}
    (hlength : header.length = 4) (hbody : fromBeBytes header = body.length)
    (h : header ++ body = r.rest ++ missing) (hmissing : missing ≠ []) :
    ∃ error s, readFrame r = (.error error, s) := by
  rcases hr : readFrame r with ⟨error | bytes, s⟩
  · exact ⟨error, s, rfl⟩
  -- a frame read would be as long as the one that was cut
  · obtain ⟨header', hlength', hheader', hrest, -⟩ := readFrame_ok hr
    have hsame : header = header' := by
      have := congrArg (List.take 4) h
      rw [hrest] at this
      simpa [← hlength, hlength'.trans hlength.symm] using this
    have hshort := congrArg List.length h
    simp only [hrest, List.length_append] at hshort
    have := List.length_pos_of_ne_nil hmissing
    rw [← hsame, hbody] at hheader'
    omega

/-- Frames are read as they were written, however they were split on the way; a longer one is
neither written nor given room; and no other byte is taken with a frame, nor a frame without all
of its bytes. -/
theorem framing_lossless :
    (∀ payloads : List Octets, (∀ bytes ∈ payloads, bytes.length ≤ SessionTask.maxFrame) →
      ∀ failure, ∃ w, writeFrames ⟨[], none, failure⟩ payloads = (none, w) ∧
        ∀ pieces ended, pieces.flatten = w.written →
          ∃ last, readFrames (.new pieces ended) = (payloads, .io ended, last) ∧
            last.rest = [] ∧ last.consumed = w.written) ∧
    (∀ w bytes, SessionTask.maxFrame < bytes.length →
      writeFrame w bytes = (some (.frameTooLarge bytes.length), w)) ∧
    (∀ r frame s, readFrame r = (.ok frame, s) →
      ∃ header : Octets, header.length = 4 ∧ fromBeBytes header = frame.length ∧
        r.rest = header ++ frame ++ s.rest ∧ s.consumed = r.consumed ++ header ++ frame) ∧
    (∀ r : Reader, 4 ≤ r.rest.length → SessionTask.maxFrame < fromBeBytes (r.rest.take 4) →
      ∃ s, readFrame r = (.error (.frameTooLarge (fromBeBytes (r.rest.take 4))), s) ∧
        s.reserved = r.reserved ∧ s.rest = r.rest.drop 4) ∧
    ∀ (r : Reader) (header body missing : Octets), header.length = 4 →
      fromBeBytes header = body.length → header ++ body = r.rest ++ missing → missing ≠ [] →
      ∃ error s, readFrame r = (.error error, s) := by
  refine ⟨fun payloads hmax failure => ?_, fun w bytes hlong => ?_, fun r frame s hr => ?_,
    fun r => readFrame_tooLarge, fun r header body missing hlength hbody => ?_⟩
  · refine ⟨_, writeFrames_eq rfl hmax, fun pieces ended hpieces => ?_⟩
    obtain ⟨last, hlast, hend, hall⟩ :=
      readFrames_frames hmax (r := .new pieces ended) hpieces
    exact ⟨last, hlast, hend, hall.trans hpieces⟩
  · rw [writeFrame, if_pos hlong]
  · obtain ⟨header, hlength, hheader, hrest, hconsumed, -⟩ := readFrame_ok hr
    exact ⟨header, hlength, hheader, hrest, hconsumed⟩
  · exact readFrame_truncated hlength hbody

end Wire
end InputShare

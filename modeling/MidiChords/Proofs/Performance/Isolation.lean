import MidiChords.Proofs.Except
import MidiChords.Proofs.Performance.Instruments

/-! # Tracks are isolated from each other

The instruments of a track depend on the data of its own chunk, on the division of the file and on
the tempo changes of the first track, and on nothing else in the file. They are the same in any two
files that agree on these, whatever the other tracks are and whatever else lies between them.

* `Midi.trackData`: the data of the track chunks of a file;
* `Midi.File.tracks_eq_of_read`: the tracks of a file are read from these one by one;
* `Performance.filter_track_filed`: the instruments of one track;
* `Performance.ofBytes_isolated`: two files that agree on a track. -/

namespace MidiChords

/-! ## The data of tracks -/

namespace Midi

/-- A chunk that does not end the file: a later header that is damaged does. -/
def Chunk.isSound (chunk : Chunk) : Bool := !chunk.isHeader || (Header.read? chunk.data).isSome

/-- The data of the track chunks, up to a header that is damaged. -/
def trackDataOf (chunks : List Chunk) : List (List UInt8) :=
  ((chunks.takeWhile Chunk.isSound).filter Chunk.isTrack).map Chunk.data

/-- The data of the track chunks of a file, in a container or not. -/
def trackData (bytes : List UInt8) : List (List UInt8) :=
  match unwrap bytes with
  | .error _ => []
  | .ok content => trackDataOf (Chunk.readAll .midi content).1

theorem tracksOf_eq (chunks : List Chunk) :
    tracksOf chunks = (trackDataOf chunks).map Track.read := by
  rw [trackDataOf, List.map_map]
  rfl

theorem trackDataOf_cons_of_sound {chunk : Chunk} {chunks : List Chunk}
    (htrack : chunk.isTrack = false) (hsound : chunk.isSound) :
    trackDataOf (chunk :: chunks) = trackDataOf chunks := by
  have hne : ¬ chunk.isTrack := by simp [htrack]
  rw [trackDataOf, List.takeWhile_cons_of_pos hsound, List.filter_cons_of_neg hne, trackDataOf]

/-- What stands before the first header, and the header itself, are no tracks. -/
theorem trackDataOf_eq_of_dropWhile {chunks rest : List Chunk} {chunk : Chunk}
    (h : chunks.dropWhile (fun chunk => !chunk.isHeader && !chunk.isTrack) = chunk :: rest)
    (htrack : chunk.isTrack = false) (hsound : chunk.isSound) :
    trackDataOf chunks = trackDataOf rest := by
  induction chunks with
  | nil => contradiction
  | cons first chunks ih =>
    rw [List.dropWhile_cons] at h
    split at h
    · rename_i hunknown
      obtain ⟨hheader, hfirst⟩ : first.isHeader = false ∧ first.isTrack = false := by
        simpa using hunknown
      have hfirstSound : first.isSound := by
        rw [Chunk.isSound, hheader]
        rfl
      rw [← ih h, trackDataOf_cons_of_sound hfirst hfirstSound]
    · obtain ⟨rfl, rfl⟩ := List.cons.inj h
      exact trackDataOf_cons_of_sound htrack hsound

theorem File.tracks_eq_of_read {bytes : List UInt8} {file : File}
    (h : File.read bytes = .ok file) : file.tracks = (trackData bytes).map Track.read := by
  obtain ⟨content, hcontent, h⟩ := exists_ok_of_bind h
  rw [trackData, hcontent]
  dsimp only at h ⊢
  generalize (Chunk.readAll .midi content).1 = chunks at h ⊢
  unfold File.ofChunks at h
  split at h
  · contradiction
  · rename_i chunk rest hdrop
    split at h
    · contradiction
    · rename_i htrack
      split at h
      · contradiction
      · rename_i header hheader
        obtain rfl := Except.ok.inj h
        have hsound : chunk.isSound := by
          rw [Chunk.isSound, hheader]
          exact Bool.or_true _
        rw [trackDataOf_eq_of_dropWhile hdrop (Bool.eq_false_iff.mpr htrack) hsound]
        exact tracksOf_eq rest

end Midi

/-! ## The instruments of tracks -/

namespace Performance

open Midi (TimedEvent)

theorem filter_filedTrack (clock : Clock) (events : List TimedEvent) (track k : Nat) :
    (filedTrack clock (events, track)).filter (·.track = k) =
      if track = k then filedTrack clock (events, track) else [] := by
  have htrack : ∀ instrument ∈ filedTrack clock (events, track), instrument.track = track :=
    fun instrument hmem => (Instrument.identity_mem_ofLog hmem).1
  split
  · rename_i heq
    exact List.filter_eq_self.mpr fun instrument hmem => by simp [htrack instrument hmem, heq]
  · rename_i hne
    exact List.filter_eq_nil_iff.mpr fun instrument hmem => by simp [htrack instrument hmem, hne]

theorem filed_concat (clock : Clock) (tracks : List (List TimedEvent)) (events : List TimedEvent) :
    filed clock (tracks ++ [events]) =
      filed clock tracks ++ filedTrack clock (events, tracks.length) := by
  simp [filed, List.zipIdx_append]

theorem filter_track_filed (clock : Clock) (tracks : List (List TimedEvent)) (k : Nat) :
    (filed clock tracks).filter (·.track = k) =
      (tracks[k]?.map fun events => filedTrack clock (events, k)).getD [] := by
  induction tracks using List.reverseRecOn with
  | nil => rfl
  | append_singleton tracks events ih =>
    rw [filed_concat, List.filter_append, ih, filter_filedTrack]
    rcases Nat.lt_trichotomy k tracks.length with hlt | rfl | hgt
    · rw [if_neg (Nat.ne_of_gt hlt), List.getElem?_append_left hlt, List.append_nil]
    · rw [if_pos rfl, List.getElem?_concat_length, List.getElem?_eq_none (Nat.le_refl _)]
      rfl
    · have hlength : (tracks ++ [events]).length ≤ k := by
        rw [List.length_append]
        exact hgt
      rw [if_neg (Nat.ne_of_lt hgt), List.getElem?_eq_none (Nat.le_of_lt hgt),
        List.getElem?_eq_none hlength, List.append_nil]

/-- The tempo changes that the first track chunk of a file yields, with their ticks. -/
def firstTempoChanges (bytes : List UInt8) : List (Nat × Nat) :=
  Clock.tempoChanges (((Midi.trackData bytes).map Midi.Track.read).headD [])

theorem clock_ofFile_eq {bytes : List UInt8} {file : Midi.File}
    (h : Midi.File.read bytes = .ok file) :
    Clock.ofFile file = Clock.ofDivision (firstTempoChanges bytes) file.header.division := by
  rw [Clock.ofFile, firstTempoChanges, Midi.File.tracks_eq_of_read h]

/-- What the instruments of a track are made of. -/
theorem filter_track_ofFile {bytes : List UInt8} {file : Midi.File}
    (h : Midi.File.read bytes = .ok file) (k : Nat) :
    (ofFile file).instruments.filter (·.track = k) =
      ((Midi.trackData bytes)[k]?.map fun data =>
        filedTrack (Clock.ofFile file) (Midi.Track.read data, k)).getD [] := by
  rw [instruments_ofFile, filter_track_filed, Midi.File.tracks_eq_of_read h, List.getElem?_map,
    Option.map_map]
  rfl

/-- **Tracks are isolated**: two files with the same division and the same tempo changes in their
first tracks have the same instruments in a track that has the same data in both. -/
theorem ofBytes_isolated {bytes bytes' : List UInt8} {file file' : Midi.File}
    (hread : Midi.File.read bytes = .ok file) (hread' : Midi.File.read bytes' = .ok file')
    (hdivision : file.header.division = file'.header.division)
    (htempi : firstTempoChanges bytes = firstTempoChanges bytes')
    {k : Nat} (hdata : (Midi.trackData bytes)[k]? = (Midi.trackData bytes')[k]?) :
    ∃ performance performance', ofBytes bytes = .ok performance ∧
      ofBytes bytes' = .ok performance' ∧
      performance.instruments.filter (·.track = k) =
        performance'.instruments.filter (·.track = k) := by
  have hclock : Clock.ofFile file = Clock.ofFile file' := by
    rw [clock_ofFile_eq hread, clock_ofFile_eq hread', hdivision, htempi]
  refine ⟨ofFile file, ofFile file', by rw [ofBytes, hread]; rfl, by rw [ofBytes, hread']; rfl, ?_⟩
  rw [filter_track_ofFile hread, filter_track_ofFile hread', hclock, hdata]

/-- The second track of a plain file, and of one with another format, an unknown chunk, a further
header, a first track that ends in an unreadable byte, and a tempo change in a third track. -/
theorem ofBytes_isolated_damaged :
    let second : List UInt8 :=
      [0x4d, 0x54, 0x72, 0x6b, 0, 0, 0, 8, 0, 0x90, 60, 64, 0x60, 0x80, 60, 0]
    let plain : List UInt8 :=
      [0x4d, 0x54, 0x68, 0x64, 0, 0, 0, 6, 0, 1, 0, 2, 0, 0x60,
       0x4d, 0x54, 0x72, 0x6b, 0, 0, 0, 7, 0, 0xff, 0x51, 3, 0x03, 0xd0, 0x90] ++ second
    let damaged : List UInt8 :=
      [0x4d, 0x54, 0x68, 0x64, 0, 0, 0, 6, 0, 0, 0, 9, 0, 0x60,
       0x58, 0x46, 0x49, 0x48, 0, 0, 0, 2, 1, 2,
       0x4d, 0x54, 0x72, 0x6b, 0, 0, 0, 9, 0, 0xff, 0x51, 3, 0x03, 0xd0, 0x90, 0, 0xf4,
       0x4d, 0x54, 0x68, 0x64, 0, 0, 0, 6, 0, 2, 0, 0, 1, 0] ++ second ++
      [0x4d, 0x54, 0x72, 0x6b, 0, 0, 0, 7, 0, 0xff, 0x51, 3, 0x01, 0, 0]
    ∃ performance performance', ofBytes plain = .ok performance ∧
      ofBytes damaged = .ok performance' ∧
      performance.instruments.filter (·.track = 1) =
        performance'.instruments.filter (·.track = 1) ∧
      (performance.instruments.filter (·.track = 1)).map (·.notes.map (·.pitch)) = [["C4"]] := by
  intro second plain damaged
  have hplain : (Midi.File.read plain).map (·.header.division) = .ok (.metrical 96) := by
    decide +kernel
  have hdamaged : (Midi.File.read damaged).map (·.header.division) = .ok (.metrical 96) := by
    decide +kernel
  obtain ⟨file, hread, hdivision⟩ := exists_ok_of_map hplain
  obtain ⟨file', hread', hdivision'⟩ := exists_ok_of_map hdamaged
  obtain ⟨performance, performance', h, h', hsame⟩ := @ofBytes_isolated plain damaged file file'
    hread hread' (hdivision.trans hdivision'.symm) (by decide +kernel) 1 (by decide +kernel)
  refine ⟨performance, performance', h, h', hsame, ?_⟩
  have hnotes : (ofBytes plain).map (fun performance =>
      (performance.instruments.filter (·.track = 1)).map (·.notes.map (·.pitch))) =
        .ok [["C4"]] := by
    decide +kernel
  rw [h] at hnotes
  exact Except.ok.inj hnotes

end Performance
end MidiChords

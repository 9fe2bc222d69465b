import Mathlib.Algebra.Group.Nat.Defs
import MidiChords.Midi.File
import MidiChords.Proofs.Except

/-! # How much can be read

What is read has no more bytes than the file, an event takes at least two of them, and the number of
ticks before it has 28 binary digits.

* `Midi.variableLength_lt`, `Midi.variableLength_length_lt`: numbers of up to four bytes;
* `Midi.Track.two_mul_length_readFrom_le`, `Midi.Track.delta_lt_of_mem_readFrom`: the events of a
  track;
* `Midi.File.exists_data_of_read`: every track of a file is read from data no longer than the
  file. -/

namespace MidiChords
namespace Midi

variable {bytes rest data : List UInt8} {running : Option UInt8} {events : List TimedEvent}

/-! ## Numbers -/

/-- Each byte adds seven binary digits. -/
theorem variableLength_go_lt {left n digits : Nat} (h : n < 2 ^ digits) :
    (variableLength.go left n bytes).1 < 2 ^ (7 * left + digits) := by
  induction left generalizing n digits bytes with
  | zero => rwa [variableLength.go, Nat.mul_zero, Nat.zero_add]
  | succ left ih =>
    have hmore : 2 ^ digits ≤ 2 ^ (7 * (left + 1) + digits) :=
      Nat.pow_le_pow_right (by decide) (by omega)
    cases bytes with
    | nil => exact Nat.lt_of_lt_of_le h hmore
    | cons byte bytes =>
      have hnext : n * 128 + byte.toNat % 128 < 2 ^ (digits + 7) := by
        rw [Nat.pow_add]
        omega
      have hdigits : 7 * (left + 1) + digits = 7 * left + (digits + 7) := by omega
      rw [variableLength.go, hdigits]
      split
      · exact Nat.lt_of_lt_of_le hnext (Nat.pow_le_pow_right (by decide) (by omega))
      · exact ih hnext

/-- A number of four bytes is below this. -/
abbrev deltaLimit : Nat := 0x10000000

theorem variableLength_lt (bytes : List UInt8) : (variableLength bytes).1 < deltaLimit :=
  @variableLength_go_lt bytes 4 0 0 Nat.one_pos

/-- A number takes at least one byte, unless there is none. -/
theorem variableLength_length_lt (h : bytes ≠ []) :
    (variableLength bytes).2.length < bytes.length := by
  obtain ⟨byte, bytes, rfl⟩ := List.exists_cons_of_ne_nil h
  rw [variableLength, variableLength.go, List.length_cons]
  split
  · exact Nat.lt_succ_self _
  · exact Nat.lt_succ_of_le (variableLength_go_length 3 _ bytes)

/-! ## Events -/

namespace Track

theorem delta_lt_of_mem_readFrom : ∀ event ∈ readFrom running bytes, event.delta < deltaLimit := by
  fun_induction readFrom running bytes with
  | case1 => exact List.forall_mem_nil _
  | case2 running bytes delta event status rest hread ih =>
    exact List.forall_mem_cons.mpr ⟨variableLength_lt bytes, ih⟩

/-- An event takes one byte, and the number of ticks before it takes another. -/
theorem two_mul_length_readFrom_le : 2 * (readFrom running bytes).length ≤ bytes.length := by
  fun_induction readFrom running bytes with
  | case1 => exact Nat.zero_le _
  | case2 running bytes delta event status rest hread ih =>
    have hnonempty : bytes ≠ [] := by
      rintro rfl
      contradiction
    have hdelta := variableLength_length_lt hnonempty
    have hevent : rest.length < (variableLength bytes).2.length := Event.read?_length hread
    rw [List.length_cons]
    omega

end Track

/-! ## Chunks -/

namespace Chunk

variable {layout : ChunkLayout} {chunk : Chunk}

theorem read?_data_length (h : read? layout bytes = some (chunk, rest)) :
    chunk.data.length ≤ bytes.length := by
  unfold read? at h
  split at h
  · contradiction
  · cases h
    rw [List.length_take, List.length_drop]
    omega

theorem length_of_mem_readAll (h : chunk ∈ (readAll layout bytes).1) :
    chunk.data.length ≤ bytes.length := by
  fun_induction readAll layout bytes with
  | case1 => contradiction
  | case2 bytes first rest hread chunks left hrest ih =>
    rcases List.mem_cons.mp h with rfl | h
    · exact read?_data_length hread
    · rw [hrest] at ih
      exact Nat.le_trans (ih h) (Nat.le_of_lt (read?_length hread))

end Chunk

/-! ## Files -/

theorem unwrapRiff_length {content : List UInt8} (h : unwrapRiff bytes = .ok content) :
    content.length ≤ bytes.length := by
  unfold unwrapRiff at h
  split at h
  · contradiction
  · rename_i id data rest hmain
    have hdata := Chunk.read?_data_length hmain
    split at h
    · contradiction
    · split at h
      · contradiction
      · split at h
        · contradiction
        · rename_i chunk hchunk
          cases h
          have hlength := Chunk.length_of_mem_readAll (List.mem_of_find?_eq_some hchunk)
          rw [List.length_drop] at hlength
          dsimp only at hdata
          omega

theorem unwrap_length {content : List UInt8} (h : unwrap bytes = .ok content) :
    content.length ≤ bytes.length := by
  unfold unwrap at h
  split at h
  · cases h
    exact Nat.le_refl _
  · split at h
    · exact unwrapRiff_length h
    · contradiction

namespace File

theorem tracks_of_ofChunks {chunks : List Chunk} {left : List UInt8} {file : File}
    (h : ofChunks chunks left = .ok file) :
    ∃ rest, rest ⊆ chunks ∧ file.tracks = tracksOf rest := by
  unfold ofChunks at h
  split at h
  · contradiction
  · rename_i chunk rest hrest
    split at h
    · contradiction
    · split at h
      · contradiction
      · cases h
        have hsuffix := List.dropWhile_suffix (l := chunks)
          (fun chunk => !chunk.isHeader && !chunk.isTrack)
        rw [hrest] at hsuffix
        exact ⟨rest, List.Subset.trans (List.subset_cons_self chunk rest) hsuffix.subset, rfl⟩

theorem exists_data_of_read {file : File} (h : File.read bytes = .ok file)
    (hevents : events ∈ file.tracks) :
    ∃ data, Track.read data = events ∧ data.length ≤ bytes.length := by
  obtain ⟨content, hcontent, hchunks⟩ := exists_ok_of_bind h
  obtain ⟨rest, hsubset, htracks⟩ := tracks_of_ofChunks hchunks
  rw [htracks] at hevents
  obtain ⟨chunk, hchunk, rfl⟩ := List.mem_map.mp hevents
  have hmem := (List.takeWhile_prefix _).subset (List.mem_filter.mp hchunk).1
  exact ⟨chunk.data, rfl,
    Nat.le_trans (Chunk.length_of_mem_readAll (hsubset hmem)) (unwrap_length hcontent)⟩

end File
end Midi
end MidiChords

import MidiChords.Export.Loading
import MidiChords.Proofs.Midi.ReadBack

/-! # Which files are accepted

Whether a MIDI file can be loaded is decided by its first fourteen bytes. Nothing after them makes
loading fail: a track is read as far as it goes, an unknown chunk is passed over, and a later header
that is damaged or an incomplete chunk head ends the file.

* `Midi.SoundHeader`: the conditions on the first bytes, each with its place in the file;
* `Midi.Header.isSome_read?_iff`: the same for the data of a header;
* `Midi.File.read_of_soundHeader`, `Midi.File.read_of_not_soundHeader`: files with and without;
* `loads_iff_soundHeader`: which files are accepted, and how the others fail. -/

namespace MidiChords
namespace Midi

/-! ## Sound headers -/

/-- A division with this high byte: the top bit is clear, or the byte is a negated frame rate. -/
def SoundDivision (high : Nat) : Prop := high < 0x80 ∨ ∃ rate : FrameRate, high + rate.nominal = 256

/-- The first fourteen bytes of a file, after its identifier. The number of tracks is not looked
at. -/
structure SoundHeader (bytes : List UInt8) : Prop where
  size : 14 ≤ bytes.length
  length : 6 ≤ bigEndian ((bytes.drop 4).take 4)
  format : bigEndian ((bytes.drop 8).take 2) ≤ 2
  division : SoundDivision (bytes.getD 12 0).toNat

theorem Format.isSome_ofNat?_iff {n : Nat} : (ofNat? n).isSome ↔ n ≤ 2 := by
  match n with
  | 0 | 1 | 2 => exact iff_of_true rfl (by decide)
  | n + 3 => exact iff_of_false Bool.false_ne_true (by omega)

theorem FrameRate.ofNat?_nominal (rate : FrameRate) : ofNat? rate.nominal = some rate := by
  cases rate <;> rfl

theorem FrameRate.nominal_of_ofNat? {n : Nat} {rate : FrameRate} (h : ofNat? n = some rate) :
    rate.nominal = n := by
  unfold ofNat? at h
  split at h
  · cases h
    rfl
  · cases h
    rfl
  · cases h
    rfl
  · cases h
    rfl
  · contradiction

theorem Division.isSome_ofNat?_iff (high low : UInt8) :
    (ofNat? (bigEndian [high, low])).isSome ↔ SoundDivision high.toNat := by
  have hfield : bigEndian [high, low] = high.toNat * 256 + low.toNat := by
    simp only [bigEndian, List.foldl_cons, List.foldl_nil, Nat.zero_mul, Nat.zero_add]
  have hhigh := high.toNat_lt
  have hlow := low.toNat_lt
  have hrate : (high.toNat * 256 + low.toNat) / 256 = high.toNat := by omega
  rw [hfield, ofNat?, hrate]
  split
  · refine iff_of_true rfl (.inl ?_)
    omega
  · rw [Option.isSome_map]
    constructor
    · intro hsome
      obtain ⟨rate, hread⟩ := Option.isSome_iff_exists.mp hsome
      have hnominal := FrameRate.nominal_of_ofNat? hread
      refine .inr ⟨rate, ?_⟩
      omega
    · rintro (htop | ⟨rate, hrate⟩)
      · omega
      · have hnominal : 256 - high.toNat = rate.nominal := by omega
        rw [hnominal, FrameRate.ofNat?_nominal]
        rfl

/-! ## Reading headers -/

theorem Header.isSome_read?_iff {data : List UInt8} :
    (read? data).isSome ↔ 6 ≤ data.length ∧ bigEndian (data.take 2) ≤ 2 ∧
      (Division.ofNat? (bigEndian ((data.drop 4).take 2))).isSome := by
  unfold read?
  split
  · refine iff_of_false Bool.false_ne_true fun h => ?_
    omega
  · rename_i hlength
    rw [← Format.isSome_ofNat?_iff]
    cases Format.ofNat? (bigEndian (data.take 2)) with
    | none => simp
    | some format =>
      cases Division.ofNat? (bigEndian ((data.drop 4).take 2)) with
      | none => simp
      | some division => simpa using Nat.not_lt.mp hlength

/-- The data of the first chunk of a file. -/
def headerData (bytes : List UInt8) : List UInt8 :=
  (bytes.drop 8).take (bigEndian ((bytes.drop 4).take 4))

theorem isSome_read?_headerData_iff (bytes : List UInt8) :
    (Header.read? (headerData bytes)).isSome ↔ SoundHeader bytes := by
  have hsize : (headerData bytes).length =
      min (bigEndian ((bytes.drop 4).take 4)) (bytes.length - 8) := by
    rw [headerData, List.length_take, List.length_drop]
  by_cases hlong : 6 ≤ (headerData bytes).length
  · have hlength : 6 ≤ bigEndian ((bytes.drop 4).take 4) := by omega
    have hformat : (headerData bytes).take 2 = (bytes.drop 8).take 2 := by
      rw [headerData, List.take_take, Nat.min_eq_left (by omega)]
    have hdivision : ((headerData bytes).drop 4).take 2 = (bytes.drop 12).take 2 := by
      rw [headerData, List.drop_take, List.drop_drop, List.take_take, Nat.min_eq_left (by omega)]
    obtain ⟨high, low, hfield⟩ : ∃ high low, (bytes.drop 12).take 2 = [high, low] := by
      refine List.length_eq_two.mp ?_
      rw [List.length_take, List.length_drop]
      omega
    have hhigh : bytes.getD 12 0 = high := by
      have hfirst : ((bytes.drop 12).take 2)[0]? = some high := by rw [hfield]; rfl
      rw [List.getElem?_take_of_lt (by decide), List.getElem?_drop] at hfirst
      rw [List.getD_eq_getElem?_getD, hfirst, Option.getD_some]
    rw [Header.isSome_read?_iff, hformat, hdivision, hfield, Division.isSome_ofNat?_iff, ← hhigh]
    constructor
    · rintro ⟨-, hformat, hdivision⟩
      exact ⟨by omega, hlength, hformat, hdivision⟩
    · intro h
      exact ⟨hlong, h.format, h.division⟩
  · refine iff_of_false (fun h => hlong (Header.isSome_read?_iff.mp h).1) fun h => hlong ?_
    have hbytes := h.size
    have hlength := h.length
    omega

/-! ## Files -/

namespace File

variable {bytes : List UInt8}

/-- A chunk head that is complete is followed by the data of the header. -/
theorem exists_read_of_isHeader (h : bytes.take 4 = asciiBytes "MThd") (hsize : 8 ≤ bytes.length) :
    ∃ chunks left, File.read bytes = ofChunks (⟨asciiBytes "MThd", headerData bytes⟩ :: chunks)
      left := by
  obtain ⟨rest, hfirst⟩ : ∃ rest,
      Chunk.read? .midi bytes = some (⟨asciiBytes "MThd", headerData bytes⟩, rest) :=
    ⟨_, by rw [Chunk.read?, if_neg (Nat.not_lt.mpr hsize), h]; rfl⟩
  exact ⟨_, _, by rw [read_of_isHeader h, Chunk.readAll_of_eq_some hfirst]⟩

theorem read_of_soundHeader (h : bytes.take 4 = asciiBytes "MThd") (hsound : SoundHeader bytes) :
    ∃ file, File.read bytes = .ok file := by
  have hsize : 8 ≤ bytes.length := Nat.le_trans (by decide) hsound.size
  obtain ⟨chunks, left, hread⟩ := exists_read_of_isHeader h hsize
  obtain ⟨header, hheader⟩ :=
    Option.isSome_iff_exists.mp ((isSome_read?_headerData_iff bytes).mpr hsound)
  refine ⟨⟨header, tracksOf chunks⟩, ?_⟩
  rw [hread, ofChunks_cons_of_isHeader (decide_eq_true rfl), hheader]

theorem read_of_not_soundHeader (h : bytes.take 4 = asciiBytes "MThd")
    (hsound : ¬ SoundHeader bytes) : File.read bytes = .error .badHeader := by
  by_cases hsize : 8 ≤ bytes.length
  · obtain ⟨chunks, left, hread⟩ := exists_read_of_isHeader h hsize
    have hheader : Header.read? (headerData bytes) = none := by
      rw [← Option.not_isSome_iff_eq_none, isSome_read?_headerData_iff]
      exact hsound
    rw [hread, ofChunks_cons_of_isHeader (decide_eq_true rfl), hheader]
  · have hnone : Chunk.read? .midi bytes = none := if_pos (Nat.lt_of_not_le hsize)
    have hbytes : bytes ≠ [] := by
      rintro rfl
      contradiction
    rw [read_of_isHeader h, Chunk.readAll_of_eq_none hnone]
    change throw (if bytes = [] then Damage.noHeader else .badHeader) = _
    rw [if_neg hbytes]
    rfl

end File
end Midi

/-! ## Loading -/

/-- **Damaged tracks never make loading fail**: a MIDI file is accepted if its header is sound, and
else rejected for its header. Other bytes are accepted or are no MIDI file. -/
theorem loads_iff_soundHeader (path : Path) (bytes : List UInt8) :
    (bytes.take 4 = Midi.asciiBytes "MThd" →
      ((∃ performance, performanceOf path (.ok bytes) = .ok performance) ↔
        Midi.SoundHeader bytes) ∧
      (¬ Midi.SoundHeader bytes → performanceOf path (.ok bytes) = .error (.notMidi .badHeader))) ∧
    ((∃ performance, performanceOf path (.ok bytes) = .ok performance) ∨
      ∃ damage, performanceOf path (.ok bytes) = .error (.notMidi damage)) := by
  have hload : performanceOf path (.ok bytes) =
      (Performance.ofFile <$> Midi.File.read bytes).mapError .notMidi := rfl
  refine ⟨fun h => ?_, ?_⟩
  · have hrejected (hsound : ¬ Midi.SoundHeader bytes) :
        performanceOf path (.ok bytes) = .error (.notMidi .badHeader) := by
      rw [hload, Midi.File.read_of_not_soundHeader h hsound]
      rfl
    refine ⟨⟨?_, fun hsound => ?_⟩, hrejected⟩
    · rintro ⟨performance, hperformance⟩
      by_contra hsound
      rw [hrejected hsound] at hperformance
      contradiction
    · obtain ⟨file, hfile⟩ := Midi.File.read_of_soundHeader h hsound
      exact ⟨Performance.ofFile file, by rw [hload, hfile]; rfl⟩
  · rw [hload]
    cases Midi.File.read bytes with
    | ok file => exact .inl ⟨_, rfl⟩
    | error damage => exact .inr ⟨damage, rfl⟩

open Midi in
/-- A file that counts film frames, whose only track claims to be longer than it is and begins with
an event without a status; and a file whose header is too short. -/
theorem loads_iff_soundHeader_damaged :
    let damaged : List UInt8 :=
      [0x4d, 0x54, 0x68, 0x64, 0, 0, 0, 6, 0, 1, 0, 9, 0xe3, 4,
       0x4d, 0x54, 0x72, 0x6b, 0xff, 0xff, 0xff, 0xff, 0, 60, 64]
    let short : List UInt8 := [0x4d, 0x54, 0x68, 0x64, 0, 0, 0, 5, 0, 1, 0, 9, 0xe3, 4]
    SoundHeader damaged ∧
      (∃ performance, performanceOf ⟨"a.mid"⟩ (.ok damaged) = .ok performance) ∧
      ¬ SoundHeader short ∧
      performanceOf ⟨"a.mid"⟩ (.ok short) = .error (.notMidi .badHeader) := by
  intro damaged short
  have hdamaged : SoundHeader damaged := ⟨by decide, by decide, by decide, .inr ⟨.drop30, rfl⟩⟩
  have hshort : ¬ SoundHeader short := fun h => absurd h.length (by decide)
  exact ⟨hdamaged, ((loads_iff_soundHeader ⟨"a.mid"⟩ damaged).1 rfl).1.mpr hdamaged, hshort,
    ((loads_iff_soundHeader ⟨"a.mid"⟩ short).1 rfl).2 hshort⟩

end MidiChords

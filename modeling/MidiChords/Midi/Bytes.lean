/-! # Numbers in bytes

* `Midi.bigEndian`, `Midi.littleEndian`: whole numbers of a fixed width;
* `Midi.variableLength`: numbers of up to four bytes with seven digits each, all but the last byte
  marked by their top bit. -/

namespace MidiChords
namespace Midi

/-- The number whose most significant byte comes first. -/
def bigEndian (bytes : List UInt8) : Nat := bytes.foldl (fun n byte => n * 256 + byte.toNat) 0

theorem bigEndian_concat (bytes : List UInt8) (byte : UInt8) :
    bigEndian (bytes ++ [byte]) = bigEndian bytes * 256 + byte.toNat := by
  simp only [bigEndian, List.foldl_append, List.foldl_cons, List.foldl_nil]

/-- The number whose least significant byte comes first. -/
def littleEndian (bytes : List UInt8) : Nat := bigEndian bytes.reverse

/-- Reads a variable-length number and gives the bytes after it. The fourth byte ends the number
even if it is marked, and so does the end of the bytes, where an absent number is 0. -/
def variableLength (bytes : List UInt8) : Nat × List UInt8 := go 4 0 bytes
where
  go : Nat → Nat → List UInt8 → Nat × List UInt8
    | 0, n, rest => (n, rest)
    | _ + 1, n, [] => (n, [])
    | left + 1, n, byte :: rest =>
      let n := n * 128 + byte.toNat % 128
      if byte.toNat < 128 then (n, rest) else go left n rest

theorem variableLength_go_length (left n : Nat) (bytes : List UInt8) :
    (variableLength.go left n bytes).2.length ≤ bytes.length := by
  induction left generalizing n bytes with
  | zero => simp [variableLength.go]
  | succ left ih =>
    cases bytes with
    | nil => simp [variableLength.go]
    | cons byte rest =>
      simp only [variableLength.go, List.length_cons]
      split
      · simp
      · exact Nat.le_succ_of_le (ih _ _)

theorem variableLength_length (bytes : List UInt8) :
    (variableLength bytes).2.length ≤ bytes.length :=
  variableLength_go_length 4 0 bytes

end Midi
end MidiChords

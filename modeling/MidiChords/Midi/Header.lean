import MidiChords.Midi.Bytes

/-! # The header of a file

* `Midi.Division`: what a tick is, a part of a beat or a part of a film frame;
* `Midi.Header`, `Midi.Header.read?`: the header and its reader, which ignores the number of tracks
  and whatever follows the division. -/

namespace MidiChords
namespace Midi

/-- How the tracks of a file belong together. -/
inductive Format
  | singleTrack
  | simultaneous
  | independent
  deriving DecidableEq

/-- Film frames per second; `drop30` is the rate of 30 frames slowed down by 1.001. -/
inductive FrameRate
  | film24
  | pal25
  | drop30
  | full30
  deriving DecidableEq

/-- What the ticks of a file count. -/
inductive Division
  | metrical (ticksPerBeat : Nat)
  | timecode (rate : FrameRate) (ticksPerFrame : Nat)
  deriving DecidableEq

structure Header where
  format : Format
  division : Division
  deriving DecidableEq

def Format.ofNat? : Nat → Option Format
  | 0 => some .singleTrack
  | 1 => some .simultaneous
  | 2 => some .independent
  | _ => none

/-- The rate with the given nominal number of frames. -/
def FrameRate.ofNat? : Nat → Option FrameRate
  | 24 => some .film24
  | 25 => some .pal25
  | 29 => some .drop30
  | 30 => some .full30
  | _ => none

/-- Reads the division field. With the top bit set, the high byte is the negated frame rate and the
low byte the number of ticks in a frame. -/
def Division.ofNat? (field : Nat) : Option Division :=
  if field < 0x8000 then some (.metrical field)
  else (FrameRate.ofNat? (256 - field / 256)).map (.timecode · (field % 256))

def Header.read? (data : List UInt8) : Option Header :=
  if data.length < 6 then none
  else do
    let format ← Format.ofNat? (bigEndian (data.take 2))
    let division ← Division.ofNat? (bigEndian ((data.drop 4).take 2))
    return ⟨format, division⟩

end Midi
end MidiChords

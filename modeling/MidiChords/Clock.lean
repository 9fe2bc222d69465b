import MidiChords.Binary64.Arithmetic
import MidiChords.Midi.File

/-! # From ticks to seconds

* `Clock.Segment`, `Clock.segments`: the stretches of constant tempo of a file, whose tempo changes
  are those of its first track;
* `Clock`, `Clock.ofFile`: the clock of a file, by tempo or by film frames;
* `Clock.seconds`: the time of a tick. -/

namespace MidiChords

namespace Clock

/-- A stretch of constant tempo, from its first tick on. -/
structure Segment where
  tick : Nat
  seconds : Binary64
  microsecondsPerBeat : Nat
  deriving DecidableEq

/-- The stretch at the beginning of every file, with 120 beats per minute. -/
def initialSegment : Segment := ⟨0, .zero false, 500000⟩

def span (ticksPerBeat ticks microsecondsPerBeat : Nat) : Binary64 :=
  let secondsPerBeat : Binary64 := .ofNat microsecondsPerBeat / .ofNat 1000000
  .ofNat ticks * (secondsPerBeat / .ofNat ticksPerBeat)

/-- The time of a tick that is not before the segment, at the tempo of the segment. -/
def Segment.secondsAt (ticksPerBeat : Nat) (segment : Segment) (tick : Nat) : Binary64 :=
  segment.seconds + span ticksPerBeat (tick - segment.tick) segment.microsecondsPerBeat

/-- The segments that tempo changes make, from a current segment on. A change at the first tick of
the current segment replaces its tempo. -/
def segments (ticksPerBeat : Nat) (current : Segment) : List (Nat × Nat) → List Segment
  | [] => [current]
  | (tick, tempo) :: changes =>
    if current.tick = tick then
      segments ticksPerBeat { current with microsecondsPerBeat := tempo } changes
    else
      current ::
        segments ticksPerBeat ⟨tick, current.secondsAt ticksPerBeat tick, tempo⟩ changes

/-- The last of the segments in order that begins at the tick or before it. -/
def segmentAt (tick : Nat) (current : Segment) : List Segment → Segment
  | [] => current
  | segment :: later => if segment.tick ≤ tick then segmentAt tick segment later else current

/-- The tempo changes among the events of a track, each with its tick. -/
def tempoChanges (events : List Midi.TimedEvent) : List (Nat × Nat) :=
  (Midi.Track.withTicks events).filterMap fun
    | (tick, .tempo tempo) => some (tick, tempo)
    | _ => none

end Clock

/-- What turns the ticks of a file into seconds. -/
inductive Clock
  | metrical (ticksPerBeat : Nat) (segments : List Clock.Segment)
  | timecode (secondsPerTick : Binary64)
  deriving DecidableEq

/-- The frames in a second. The rate of 30 slowed down by 1.001 is taken in single precision, as
7856463 / 262144. -/
def Midi.FrameRate.perSecond : Midi.FrameRate → Binary64
  | film24 => .ofNat 24
  | pal25 => .ofNat 25
  | drop30 => .ofNat 7856463 / .ofNat 262144
  | full30 => .ofNat 30

namespace Clock

/-- The clock of a division and of the tempo changes of the first track. A count of 0 ticks is
taken for 1. -/
def ofDivision (changes : List (Nat × Nat)) : Midi.Division → Clock
  | .metrical ticksPerBeat =>
    let ticksPerBeat := max ticksPerBeat 1
    .metrical ticksPerBeat (segments ticksPerBeat initialSegment changes)
  | .timecode rate ticksPerFrame =>
    .timecode (.ofNat 1 / (rate.perSecond * .ofNat (max ticksPerFrame 1)))

def ofFile (file : Midi.File) : Clock :=
  ofDivision (tempoChanges (file.tracks.headD [])) file.header.division

def seconds : Clock → Nat → Binary64
  | metrical ticksPerBeat segments, tick =>
    (segmentAt tick initialSegment segments).secondsAt ticksPerBeat tick
  | timecode secondsPerTick, tick => .ofNat tick * secondsPerTick

end Clock
end MidiChords

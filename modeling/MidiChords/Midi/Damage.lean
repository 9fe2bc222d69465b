/-! # What can be wrong with a file

Only the container and the header can make a file unreadable; a damaged track is read as far as it
goes. -/

namespace MidiChords
namespace Midi

inductive Damage
  | notMidi
  | noMainChunk
  | noFormType
  | notRmid
  | noDataChunk
  | noHeader
  | trackBeforeHeader
  | badHeader
  deriving DecidableEq

def Damage.message : Damage → String
  | notMidi => "not a midi file"
  | noMainChunk => "no main riff chunk"
  | noFormType => "failed to read riff formtype"
  | notRmid => "not an rmid riff file"
  | noDataChunk => "no rmid data chunk"
  | noHeader => "no midi header chunk"
  | trackBeforeHeader => "expected header, found track"
  | badHeader => "invalid midi header"

end Midi
end MidiChords

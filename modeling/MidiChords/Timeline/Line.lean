import MidiChords.Text.Split
import MidiChords.Text.Trim
import MidiChords.Timeline.Basic

/-! # The line format

A timeline is written one event to a line: the pitches between parentheses, divided by slashes, a
colon, and the duration in decimals without superfluous zeros. `(C4/E4):0.5` is a chord and `():1`
a silence.

* `Timeline.pitchChars`, `Timeline.Event.lineChars`, `Timeline.render`: the writers;
* `Timeline.readLine?`: the reader of one line, whatever line breaks end it. -/

namespace MidiChords
namespace Timeline

/-! ## Writing -/

def pitchChars (pitches : List String) : List Char :=
  '(' :: ['/'].intercalate (pitches.map String.toList) ++ [')']

/-- The line of an event without its line break. -/
def Event.lineChars (decimals : Nat) (event : Event) : List Char :=
  pitchChars event.pitches ++ ':' :: event.duration.trimmedChars decimals

/-- The lines of a timeline, each with a line break at its end. -/
def renderChars (decimals : Nat) (events : List Event) : List Char :=
  events.flatMap fun event => event.lineChars decimals ++ ['\n']

def render (options : Options) (events : List Event) : String :=
  String.ofList (renderChars options.decimals events)

/-! ## Reading -/

/-- Drops the line breaks at the end. -/
def trimLine (chars : List Char) : List Char :=
  Text.trimEnd (fun c => c = '\r' ∨ c = '\n') chars

/-- What stands between parentheses that are the first and the last character. -/
def betweenParens? : List Char → Option (List Char)
  | '(' :: rest => if rest.getLast? = some ')' then some rest.dropLast else none
  | _ => none

/-- The names between slashes; an empty text has none. -/
def splitPitches (chars : List Char) : List String :=
  if chars = [] then [] else (chars.splitOn '/').map String.ofList

def readLine? (chars : List Char) : Option (List String × Binary64) := do
  let (pitchField, durationField) ← Text.splitAtLast ':' (trimLine chars)
  let inner ← betweenParens? pitchField
  let duration ← Binary64.read? durationField
  return (splitPitches inner, duration)

end Timeline
end MidiChords

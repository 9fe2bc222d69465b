import MidiChords.Decimal.Numeral
import MidiChords.Text.Quoted

/-! # The log

* `Log.Level`: the severity of an entry;
* `Log.Entry`, `Log.Entry.text`: an entry and its line;
* `Log.escape`: a message without the control characters that a terminal acts on;
* `Log.passes`: which entries a limit lets through. -/

namespace MidiChords
namespace Log

/-- How much an entry matters, the gravest first. -/
inductive Level
  | error
  | warning
  | info
  | debug
  | trace
  deriving DecidableEq

namespace Level

/-- The position from the gravest level, which is 1. -/
def rank : Level → Nat
  | error => 1
  | warning => 2
  | info => 3
  | debug => 4
  | trace => 5

/-- The level at the front of a line, five characters wide. -/
def tag : Level → String
  | error => "ERROR"
  | warning => " WARN"
  | info => " INFO"
  | debug => "DEBUG"
  | trace => "TRACE"

end Level

structure Entry where
  level : Level
  message : String
  /-- Counts that belong to the message, each with its name. -/
  fields : List (String × Nat) := []
  deriving DecidableEq

/-- A character as it stands in a line. Bell, backspace, form feed, escape and delete, and the
control characters beyond ASCII, could act on a terminal and are written by their codes; every
other character stays. -/
def escapeChar (c : Char) : List Char :=
  if c ∈ ['\x07', '\x08', '\x0c', '\x1b', '\x7f'] then
    ['\\', 'x', Nat.digitChar (c.toNat / 16), Nat.digitChar (c.toNat % 16)]
  else if 0x80 ≤ c.toNat ∧ c.toNat ≤ 0x9f then Text.codePointEscape c
  else [c]

/-- A message as it stands in a line. -/
def escape (message : String) : String := String.ofList (message.toList.flatMap escapeChar)

/-- The line of an entry: its level, its message and its counts. -/
def Entry.text (entry : Entry) : String :=
  entry.fields.foldl (fun text (name, count) => text ++ " " ++ name ++ "=" ++ toString count)
    (entry.level.tag ++ " " ++ escape entry.message)

/-- The gravest level that is still logged, or none if nothing is. -/
abbrev Limit := Option Level

def passes (limit : Limit) (level : Level) : Bool :=
  match limit with
  | none => false
  | some last => level.rank ≤ last.rank

def filter (limit : Limit) (entries : List Entry) : List Entry :=
  entries.filter (passes limit ·.level)

namespace Limit

/-- The limit by the number of levels that pass. -/
def ofCount? : Nat → Option Limit
  | 0 => some none
  | 1 => some (some .error)
  | 2 => some (some .warning)
  | 3 => some (some .info)
  | 4 => some (some .debug)
  | 5 => some (some .trace)
  | _ => none

/-- Reads a limit: a name in any mixture of cases, or the digits of a count. -/
def ofName? (name : String) : Option Limit :=
  match String.ofList (name.toList.map Char.toLower) with
  | "" => none
  | "off" => some none
  | "error" => some (some .error)
  | "warn" => some (some .warning)
  | "info" => some (some .info)
  | "debug" => some (some .debug)
  | "trace" => some (some .trace)
  | _ => if name.toList.all Char.isDigit then ofCount? (Numeral.ofDigits name.toList) else none

end Limit

end Log
end MidiChords

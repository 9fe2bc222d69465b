import MidiChords.Text.Unprintable
import MidiChords.Text.Extender

/-! # Quoted text

A text in double quotes in which every character can be told apart on a screen: quotes and
backslashes are escaped, the common control characters have a letter, and whatever is unprintable or
merges with its neighbour is written by its code point in hexadecimal. -/

namespace MidiChords
namespace Text

/-- A character by its code point: `\u{…}` around the hexadecimal digits. -/
def codePointEscape (c : Char) : List Char :=
  ['\\', 'u', '\x7b'] ++ Nat.toDigits 16 c.toNat ++ ['\x7d']

/-- A character as it stands in a quoted text. -/
def quoteChar (c : Char) : List Char :=
  if c = '\x00' then ['\\', '0']
  else if c = '\t' then ['\\', 't']
  else if c = '\r' then ['\\', 'r']
  else if c = '\n' then ['\\', 'n']
  else if c = '"' ∨ c = '\\' then ['\\', c]
  else if isExtender c || isUnprintable c then codePointEscape c
  else [c]

def quote (chars : List Char) : List Char := '"' :: chars.flatMap quoteChar ++ ['"']

end Text
end MidiChords

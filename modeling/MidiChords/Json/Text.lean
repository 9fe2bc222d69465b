/-! # Strings in JSON

* `Json.Piece`, `Json.scanString`: a string up to its closing quote, as characters and escaped code
  units;
* `Json.decode?`: the text of a string, in which code units above the basic plane come in pairs;
* `Json.stringChars`: the text between quotes, escaping only what has to be escaped. -/

namespace MidiChords
namespace Json

/-! ## Reading -/

/-- A part of a string: a character, or a code unit of 16 bits written in hexadecimal. -/
inductive Piece
  | char (c : Char)
  | unit (value : Nat)
  deriving DecidableEq

/-- The value of a hexadecimal digit. -/
def hexValue? (c : Char) : Option Nat :=
  if '0' ≤ c ∧ c ≤ '9' then some (c.toNat - '0'.toNat)
  else if 'a' ≤ c ∧ c ≤ 'f' then some (c.toNat - 'a'.toNat + 10)
  else if 'A' ≤ c ∧ c ≤ 'F' then some (c.toNat - 'A'.toNat + 10)
  else none

/-- The value of four hexadecimal digits. -/
def hexUnit? (a b c d : Char) : Option Nat := do
  return (((← hexValue? a) * 16 + (← hexValue? b)) * 16 + (← hexValue? c)) * 16 + (← hexValue? d)

/-- The character that a letter after a backslash stands for. -/
def letterEscape? : Char → Option Char
  | '"' => some '"'
  | '\\' => some '\\'
  | '/' => some '/'
  | 'b' => some '\x08'
  | 'f' => some '\x0c'
  | 'n' => some '\n'
  | 'r' => some '\r'
  | 't' => some '\t'
  | _ => none

/-- Takes a string off after its opening quote: its pieces and what follows the closing quote. A
control character does not stand in a string unescaped. -/
def scanString : List Char → Option (List Piece × List Char)
  | [] => none
  | '"' :: rest => some ([], rest)
  | '\\' :: 'u' :: a :: b :: c :: d :: rest =>
    match hexUnit? a b c d, scanString rest with
    | some value, some (pieces, left) => some (.unit value :: pieces, left)
    | _, _ => none
  | '\\' :: letter :: rest =>
    match letterEscape? letter, scanString rest with
    | some c, some (pieces, left) => some (.char c :: pieces, left)
    | _, _ => none
  | c :: rest =>
    if c.toNat < 0x20 ∨ c = '\\' then none
    else
      match scanString rest with
      | some (pieces, left) => some (.char c :: pieces, left)
      | none => none

theorem scanString_length {chars left : List Char} {pieces : List Piece}
    (h : scanString chars = some (pieces, left)) : left.length < chars.length := by
  fun_induction scanString chars generalizing pieces left <;>
    simp only [List.length_cons, reduceCtorEq, Option.some.injEq, Prod.mk.injEq] at h ⊢ <;> grind

/-- Whether a code unit is the first of a pair. -/
def isHighSurrogate (unit : Nat) : Bool := 0xd800 ≤ unit && unit < 0xdc00

/-- Whether a code unit is the second of a pair. -/
def isLowSurrogate (unit : Nat) : Bool := 0xdc00 ≤ unit && unit < 0xe000

/-- The characters of a string. A code unit that belongs to a pair has to stand in one. -/
def decode? : List Piece → Option (List Char)
  | [] => some []
  | .char c :: rest => (decode? rest).map (c :: ·)
  | .unit high :: .unit low :: rest =>
    if isHighSurrogate high then
      if isLowSurrogate low then
        (decode? rest).map
          (Char.ofNat (0x10000 + (high - 0xd800) * 0x400 + (low - 0xdc00)) :: ·)
      else none
    else if isLowSurrogate high then none
    else (decode? (.unit low :: rest)).map (Char.ofNat high :: ·)
  | .unit unit :: rest =>
    if isHighSurrogate unit || isLowSurrogate unit then none
    else (decode? rest).map (Char.ofNat unit :: ·)

/-! ## Writing -/

/-- A character as it stands in a string. -/
def escapeChar (c : Char) : List Char :=
  if c = '"' then ['\\', '"']
  else if c = '\\' then ['\\', '\\']
  else if c = '\x08' then ['\\', 'b']
  else if c = '\x0c' then ['\\', 'f']
  else if c = '\n' then ['\\', 'n']
  else if c = '\r' then ['\\', 'r']
  else if c = '\t' then ['\\', 't']
  else if c.toNat < 0x20 then ['\\', 'u'] ++ (Nat.toDigits 16 c.toNat).leftpad 4 '0'
  else [c]

/-- A text between quotes. -/
def stringChars (text : List Char) : List Char := '"' :: text.flatMap escapeChar ++ ['"']

end Json
end MidiChords

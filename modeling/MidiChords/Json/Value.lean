import MidiChords.Json.Number
import MidiChords.Json.Text

/-! # JSON values

* `Json.Token`, `Json.tokens?`: the symbols of a text;
* `Json.Value`, `Json.Value.ofTokens?`: the value that symbols make up;
* `Json.Value.read?`: the value that is the whole of a text.

Numbers keep their digits and strings their escapes: whether they have a value is asked only where
one is needed. -/

namespace MidiChords
namespace Json

/-! ## Tokens -/

/-- A symbol of a text. -/
inductive Token
  | openObject
  | closeObject
  | openArray
  | closeArray
  | colon
  | comma
  | null
  | bool (value : Bool)
  | number (number : NumberText)
  | string (pieces : List Piece)
  deriving DecidableEq

/-- Whether a character may stand between symbols. -/
def isSpace (c : Char) : Bool := c = ' ' || c = '\t' || c = '\n' || c = '\r'

/-- The symbol that a single character is. -/
def Token.ofMark? : Char → Option Token
  | '\x7b' => some openObject
  | '\x7d' => some closeObject
  | '[' => some openArray
  | ']' => some closeArray
  | ':' => some colon
  | ',' => some comma
  | _ => none

/-- The symbol that a run of letters, digits, points and signs is. -/
def Token.ofWord? (word : List Char) : Option Token :=
  if word = "null".toList then some null
  else if word = "true".toList then some (bool true)
  else if word = "false".toList then some (bool false)
  else (NumberText.read? word).map number

/-- Whether a character belongs to a word or a number. -/
def isWordChar (c : Char) : Bool := c.isAlphanum || c = '+' || c = '-' || c = '.'

/-- The symbols of a text. -/
def tokens? (chars : List Char) : Option (List Token) :=
  match chars with
  | [] => some []
  | c :: rest =>
    if isSpace c then tokens? rest
    else if c = '"' then
      match _h : scanString rest with
      | some (pieces, left) => (tokens? left).map (.string pieces :: ·)
      | none => none
    else
      match Token.ofMark? c with
      | some mark => (tokens? rest).map (mark :: ·)
      | none =>
        if isWordChar c then
          match Token.ofWord? (c :: rest.takeWhile isWordChar) with
          | some word => (tokens? (rest.dropWhile isWordChar)).map (word :: ·)
          | none => none
        else none
termination_by chars.length
decreasing_by
  · simp
  · have := scanString_length ‹_›
    simp only [List.length_cons]
    omega
  · simp
  · have := (List.dropWhile_suffix isWordChar (l := rest)).length_le
    simp only [List.length_cons]
    omega

/-! ## Values -/

/-- A value; the members of an object are in their order and may share a name. -/
inductive Value
  | null
  | bool (value : Bool)
  | number (number : NumberText)
  | string (pieces : List Piece)
  | array (items : List Value)
  | object (members : List (List Piece × Value))

/-- An array or object that has begun: what it holds so far, and for an object the name of the next
member. -/
inductive Frame
  | array (items : List Value)
  | object (members : List (List Piece × Value)) (name : List Piece)

namespace Value

mutual

/-- Reads a value inside the frames, the innermost first, and all that follows it. -/
def ofTokensIn (frames : List Frame) : List Token → Option Value
  | .null :: rest => complete null frames rest
  | .bool value :: rest => complete (bool value) frames rest
  | .number text :: rest => complete (number text) frames rest
  | .string pieces :: rest => complete (string pieces) frames rest
  | .openArray :: .closeArray :: rest => complete (array []) frames rest
  | .openArray :: rest => ofTokensIn (.array [] :: frames) rest
  | .openObject :: .closeObject :: rest => complete (object []) frames rest
  | .openObject :: .string name :: .colon :: rest => ofTokensIn (.object [] name :: frames) rest
  | _ => none
termination_by tokens => tokens.length

/-- Puts a complete value into the innermost frame and goes on with what follows it. Outside all
frames nothing may follow. -/
def complete (value : Value) : List Frame → List Token → Option Value
  | [], [] => some value
  | .array items :: frames, .comma :: rest => ofTokensIn (.array (items ++ [value]) :: frames) rest
  | .array items :: frames, .closeArray :: rest => complete (array (items ++ [value])) frames rest
  | .object members name :: frames, .comma :: .string next :: .colon :: rest =>
    ofTokensIn (.object (members ++ [(name, value)]) next :: frames) rest
  | .object members name :: frames, .closeObject :: rest =>
    complete (object (members ++ [(name, value)])) frames rest
  | _, _ => none
termination_by _ tokens => tokens.length

end

/-- The value that is all of the symbols. -/
def ofTokens? (tokens : List Token) : Option Value := ofTokensIn [] tokens

/-- The value that is all of the text. -/
def read? (chars : List Char) : Option Value := (tokens? chars).bind ofTokens?

/-! ## Access -/

def text? : Value → Option String
  | string pieces => (decode? pieces).map String.ofList
  | _ => none

def texts? : Value → Option (List String)
  | array items => items.mapM text?
  | _ => none

/-- The floating-point value of a number. -/
def float? : Value → Option Binary64
  | number text => text.value?
  | _ => none

/-- The values of the given names in an object, each of which has exactly one; other names are
ignored. An array of as many values stands for them in their order. -/
def fields? (names : List String) : Value → Option (List Value)
  | array items => if items.length = names.length then some items else none
  | object members => do
    let members ← members.mapM fun (name, value) => (decode? name).map (·, value)
    names.mapM fun name =>
      match members.filter (·.1 = name.toList) with
      | [(_, value)] => some value
      | _ => none
  | _ => none

end Value

end Json
end MidiChords

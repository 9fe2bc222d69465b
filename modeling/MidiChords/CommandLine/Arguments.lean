import MidiChords.Files.Path
import MidiChords.Log

/-! # Arguments of the program

* `CommandLine.items`: the switches and inputs that the arguments consist of;
* `CommandLine.Arguments`: what they set;
* `CommandLine.Request`, `CommandLine.read`: what they ask for. -/

namespace MidiChords
namespace CommandLine

structure Arguments where
  input : Option Path := none
  toStdout : Bool := false
  quiet : Bool := false
  verbose : Bool := false
  deriving DecidableEq

inductive Request
  | convert (input : Path) (toStdout : Bool) (limit : Log.Limit)
  | help
  | misuse
  deriving DecidableEq

inductive Switch
  | toStdout
  | quiet
  | verbose
  | help
  deriving DecidableEq

namespace Switch

/-- The switch with the given name after two dashes. -/
def ofName? : List Char → Option Switch
  | ['s', 't', 'd', 'o', 'u', 't'] => some toStdout
  | ['q', 'u', 'i', 'e', 't'] => some quiet
  | ['v', 'e', 'r', 'b', 'o', 's', 'e'] => some verbose
  | ['h', 'e', 'l', 'p'] => some help
  | _ => none

/-- The switch with the given letter after a dash. -/
def ofLetter? : Char → Option Switch
  | 'q' => some quiet
  | 'v' => some verbose
  | 'h' => some help
  | _ => none

end Switch

inductive Item
  | switch (switch : Switch)
  | input (text : String)
  | unknown
  deriving DecidableEq

/-- What an argument before any `--` consists of. A dash alone is an input, and letters after one
dash are switches of their own. -/
def itemsOf (argument : String) : List Item :=
  match argument.toList with
  | ['-'] => [.input argument]
  | '-' :: '-' :: name => [((Switch.ofName? name).map .switch).getD .unknown]
  | '-' :: letters => letters.map fun letter =>
    ((Switch.ofLetter? letter).map .switch).getD .unknown
  | _ => [.input argument]

/-- What the arguments consist of. After `--` everything is an input. -/
def items : List String → List Item
  | [] => []
  | argument :: rest =>
    if argument = "--" then rest.map .input else itemsOf argument ++ items rest

/-- What an item adds to the arguments: each switch and the input may be given once, and the input
must not be empty. -/
def Arguments.add? (arguments : Arguments) : Item → Option Arguments
  | .switch .toStdout =>
    if arguments.toStdout then none else some { arguments with toStdout := true }
  | .switch .quiet => if arguments.quiet then none else some { arguments with quiet := true }
  | .switch .verbose => if arguments.verbose then none else some { arguments with verbose := true }
  | .input text =>
    if arguments.input.isSome || text.isEmpty then none
    else some { arguments with input := some ⟨text⟩ }
  | .switch .help | .unknown => none

/-- The limit of the log that the switches ask for. -/
def Arguments.limit (arguments : Arguments) : Log.Limit :=
  some (if arguments.quiet then .error else if arguments.verbose then .debug else .info)

/-- The request of complete arguments. There has to be an input, and a run cannot be both quiet and
verbose. -/
def Arguments.request (arguments : Arguments) : Request :=
  match arguments.input with
  | none => .misuse
  | some input =>
    if arguments.quiet && arguments.verbose then .misuse
    else .convert input arguments.toStdout arguments.limit

/-- Takes the items in their order. Help and misuse are noticed where they stand, whichever comes
first. -/
def readItems (arguments : Arguments) : List Item → Request
  | [] => arguments.request
  | .switch .help :: _ => .help
  | item :: items =>
    match arguments.add? item with
    | none => .misuse
    | some arguments => readItems arguments items

def read (arguments : List String) : Request := readItems {} (items arguments)

end CommandLine
end MidiChords

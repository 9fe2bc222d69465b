import MidiChords.CommandLine.StandardError

/-! # The program on a real file system

Everything is decided in `CommandLine.run`. Here its file operations are those of the disk, and its
outcome goes to the standard streams. -/

namespace MidiChords

def FileError.ofFailure : IO.Error → FileError
  | .noFileOrDirectory .. => .missing
  | .inappropriateType _ code _ => if code = 21 then .isDirectory else .notDirectory
  | .invalidArgument _ code text =>
    if code = 36 ∨ -code = 36 then .tooLong else .other text
  | error => .other (toString error)

def FileAccess.disk : FileAccess IO where
  read path := do
    match ← (IO.FS.readBinFile path.spelling).toBaseIO with
    | .ok bytes => pure (.ok bytes.toList)
    | .error failure => pure (.error (.ofFailure failure))
  write path text := do
    match ← (IO.FS.writeFile path.spelling text).toBaseIO with
    | .ok () => pure (.ok ())
    | .error failure => pure (.error (.ofFailure failure))

end MidiChords

open MidiChords in
/-- Runs the program on the disk. A log limit in the environment wins over the switches. -/
def main (arguments : List String) : IO UInt32 := do
  let outcome ← CommandLine.run FileAccess.disk arguments (← IO.getEnv "RUST_LOG")
  IO.print outcome.stdout
  IO.eprint outcome.standardError
  if CommandLine.read arguments = .misuse then
    IO.eprintln "Usage: chord-timeline [OPTIONS] <INPUT>"
  return outcome.exitCode.toUInt32

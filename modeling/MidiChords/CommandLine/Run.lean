import MidiChords.CommandLine.Arguments
import MidiChords.Export.Report

/-! # The program

* `CommandLine.Outcome`: the exit status, the standard output, the log and the failure of a run;
* `CommandLine.process`: the conversion of an input, to files or to a listing;
* `CommandLine.limitWith`: the limit of the log;
* `CommandLine.run`: the program, given access to files. -/

namespace MidiChords
namespace CommandLine

inductive Failure
  | notLoaded (input : Path) (cause : Error)
  | notWritten (failed total : Nat)
  deriving DecidableEq

def Failure.message : Failure → String
  | notLoaded input _ => "Could not load " ++ input.spelling
  | notWritten failed total =>
    toString failed ++ " of " ++ toString total ++ " track(s) could not be written"

/-- What a run leaves behind besides files. -/
structure Outcome where
  exitCode : UInt8 := 0
  stdout : String := ""
  log : List Log.Entry := []
  failure : Option Failure := none
  deriving DecidableEq

def helpText : String :=
  "Convert each MIDI track into a chord/silence timeline\n\n" ++
  "Usage: chord-timeline [OPTIONS] <INPUT>\n\n" ++
  "Arguments:\n" ++
  "  <INPUT>  Path to the MIDI file. Outputs are written next to it as " ++
  "`<name>_Track<N>.txt`\n\n" ++
  "Options:\n" ++
  "      --stdout   Print timelines to stdout instead of writing files\n" ++
  "  -q, --quiet    Suppress informational messages (only errors)\n" ++
  "  -v, --verbose  Log per-track details\n" ++
  "  -h, --help     Print help\n"

/-- The line that precedes a timeline in the listing. -/
def marker (rendered : Rendered) : String :=
  "# Track " ++ toString rendered.index ++
    (match rendered.name with
    | some name => ": " ++ name
    | none => "") ++ "\n"

def listing (timelines : List Rendered) : String :=
  timelines.foldl (fun text rendered => text ++ marker rendered ++ rendered.text) ""

/-- What rendering the instruments for the listing logs. -/
def listingLog (options : Timeline.Options) (instruments : List Instrument) : List Log.Entry :=
  (instruments.zipIdx 1).map fun (instrument, index) =>
    match Rendered.ofInstrument? options index instrument with
    | some rendered => rendered.log
    | none => skippedLog index

/-- What is logged when there was nothing to write. -/
def nothingFound (input : Path) : Log.Entry :=
  ⟨.warning, "No tracks with notes found in " ++ input.spelling, []⟩

def exportOutcome (input : Path) (attempts : List Attempt) : Outcome :=
  let report := Report.ofAttempts attempts
  let failed := report.failed.length
  let total := failed + report.written.length
  { exitCode := if report.isSuccess then 0 else 1
    log := attempts.flatMap Attempt.log ++ if total = 0 then [nothingFound input] else []
    failure := if report.isSuccess then none else some (.notWritten failed total) }

variable {m : Type → Type} [Monad m]

/-- Converts the input; the log is complete. -/
def process (files : FileAccess m) (input : Path) (toStdout : Bool) : m Outcome := do
  let started : Log.Entry := ⟨.info, "Processing MIDI file: " ++ input.spelling, []⟩
  match ← load files input with
  | .error cause =>
    pure { exitCode := 1, log := [started], failure := some (.notLoaded input cause) }
  | .ok performance =>
    let instruments := performance.instruments
    let loaded := started :: performance.log
    if toStdout then
      pure {
        stdout := listing (renderAll {} instruments)
        log := loaded ++ listingLog {} instruments }
    else
      let attempts ← exportTo files {} instruments input.withoutExtension
      let outcome := exportOutcome input attempts
      pure { outcome with log := loaded ++ outcome.log }

/-- Whether an override of the limit cannot be read: it has no word at its front. -/
def isVoid (override : String) : Bool :=
  override ≠ "" && match override.toList.dropWhile Text.isBlank with
  | [] => true
  | first :: _ => !(first.isAlphanum || first ∈ ['-', ':', '_'] || 0x80 ≤ first.toNat)

/-- The limit of the log: an override wins over the switches unless it is void. If it is empty or
its word is no level, nothing passes. -/
def limitWith (override : Option String) (limit : Log.Limit) : Log.Limit :=
  match override with
  | none => limit
  | some name =>
    if isVoid name then limit else (Log.Limit.ofName? name).getD none

/-- Runs the program with its arguments and an override of the limit of the log. -/
def run (files : FileAccess m) (arguments : List String) (override : Option String) :
    m Outcome :=
  match read arguments with
  | .help => pure { stdout := helpText }
  | .misuse => pure { exitCode := 2 }
  | .convert input toStdout limit => do
    let outcome ← process files input toStdout
    pure { outcome with log := Log.filter (limitWith override limit) outcome.log }

end CommandLine
end MidiChords

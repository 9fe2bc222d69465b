import MidiChords.Proofs.CommandLine.Modes
import MidiChords.Proofs.Export.WellFormed

/-! # Splitting a listing

A heading is meant to be one line, so that a listing can be cut at its headings. A name is trimmed
at its ends only. If there is a line break inside, the heading takes several lines, and the listing
can no longer be split.

* `CommandLine.SplitsInto`: cutting a text into timelines at its marker lines;
* `CommandLine.count_listing`: every line break inside a name is one too many;
* `CommandLine.splitsInto_listing_iff`: which listings can be split;
* `CommandLine.run_splits_iff`: the same of a run;
* `CommandLine.run_not_splits`: a name that breaks the listing of its file. -/

namespace MidiChords
namespace CommandLine

/-! ## Cutting at marker lines -/

/-- How every marker line begins. -/
def markerStart : String := "# Track "

/-- The lines of a text are, for each timeline, a marker line with its number and then exactly the
lines of its text. Each of these can be read, and none of them can be taken for a marker line. -/
def SplitsInto (text : List Char) (timelines : List Rendered) : Prop :=
  ∃ sections : List (List Char × List (List Char)),
    Text.HasLines text (sections.flatMap fun part => part.1 :: part.2) ∧
    List.Forall₂ (fun part rendered =>
      (markerStart ++ toString rendered.index).toList <+: part.1 ∧
        Text.HasLines rendered.text.toList part.2) sections timelines ∧
    ∀ part ∈ sections, ∀ line ∈ part.2, ¬ markerStart.toList <+: line ∧
      ∃ entry, Timeline.readLine (String.ofList line) = .ok entry

/-! ## Line breaks in names -/

/-- The line breaks in the name of a track. -/
def breaks (name : Option String) : Nat := (name.getD "").toList.count '\n'

theorem breaks_eq_zero_iff {name : Option String} :
    breaks name = 0 ↔ ∀ text ∈ name, '\n' ∉ text.toList := by
  cases name with
  | none => simp [breaks]
  | some text => simp [breaks, List.count_eq_zero]

theorem count_heading (number : Nat) (name : Option String) :
    (heading number name).toList.count '\n' = breaks name := by
  have hstart : "# Track ".toList.count '\n' = 0 := by decide
  have hcolon : ": ".toList.count '\n' = 0 := by decide
  have hnumber := List.count_eq_zero.mpr (Text.not_mem_toString number)
  cases name with
  | none => simp only [heading, String.toList_append, List.count_append, hstart, hnumber]; rfl
  | some text =>
    simp only [heading, String.toList_append, List.count_append, hstart, hnumber, hcolon,
      Nat.zero_add]
    rfl

theorem toList_listing (timelines : List Rendered) : (listing timelines).toList =
    timelines.flatMap fun rendered =>
      (heading rendered.index rendered.name).toList ++ '\n' :: rendered.text.toList := by
  rw [listing_eq, String.toList_join, List.flatMap_map]
  refine List.flatMap_congr fun rendered _ => ?_
  simp [String.toList_append]

/-- Besides the lines that it should have, a listing has a line for every line break in a name. -/
theorem count_listing {sections : List (List Char × List (List Char))} {timelines : List Rendered}
    (h : List.Forall₂ (fun part rendered => Text.HasLines rendered.text.toList part.2)
      sections timelines) :
    (listing timelines).toList.count '\n' =
      (sections.flatMap fun part => part.1 :: part.2).length +
        (timelines.map fun rendered => breaks rendered.name).sum := by
  rw [toList_listing]
  induction h with
  | nil => rfl
  | @cons part rendered sections timelines hpart _ ih =>
    rw [List.flatMap_cons, List.count_append, ih, List.flatMap_cons, List.length_append,
      List.count_append, List.count_cons_self, count_heading, hpart.count_eq, List.map_cons,
      List.sum_cons, List.length_cons]
    omega

theorem breaks_eq_zero_of_splitsInto {timelines : List Rendered}
    (h : SplitsInto (listing timelines).toList timelines) :
    ∀ rendered ∈ timelines, breaks rendered.name = 0 := by
  obtain ⟨sections, hlines, hparts, -⟩ := h
  have hcount := count_listing (hparts.imp fun _ _ hpart => hpart.2)
  rw [hlines.count_eq] at hcount
  have hsum : (timelines.map fun rendered => breaks rendered.name).sum = 0 := by omega
  exact List.forall_mem_map.mp (List.sum_eq_zero_iff_forall_eq_nat.mp hsum)

/-! ## Listings that can be split -/

theorem not_markerStart_lineChars (decimals : Nat) (event : Timeline.Event) :
    ¬ markerStart.toList <+: event.lineChars decimals := by
  intro h
  obtain ⟨rest, hrest⟩ := h
  rw [Timeline.Event.lineChars, Timeline.pitchChars] at hrest
  exact absurd (List.cons.inj hrest).1 (by decide)

theorem toList_isPrefix_append (s t : String) : s.toList <+: (s ++ t).toList := by
  rw [String.toList_append]
  exact List.prefix_append _ _

theorem markerStart_isPrefix_heading (number : Nat) (name : Option String) :
    (markerStart ++ toString number).toList <+: (heading number name).toList := by
  cases name with
  | none => exact toList_isPrefix_append _ ""
  | some text => exact toList_isPrefix_append _ (": " ++ text)

/-- The marker line and the other lines of an instrument. -/
def sectionOf (number : Nat) (instrument : Instrument) : List Char × List (List Char) :=
  ((heading number instrument.name).toList,
    (Timeline.build {} instrument.notes).map (·.lineChars ({} : Timeline.Options).decimals))

theorem splitsInto_of_breaks_eq_zero {instruments : List Instrument}
    (hnotes : ∀ instrument ∈ instruments, instrument.notes ≠ [])
    (hplain : ∀ instrument ∈ instruments, ∀ note ∈ instrument.notes, Pitch.IsPlain note.pitch)
    (hbreaks : ∀ instrument ∈ instruments, breaks instrument.name = 0) :
    SplitsInto (listing (renderAll {} instruments)).toList (renderAll {} instruments) := by
  have hlines : ∀ instrument ∈ instruments, Text.HasLines
      (Timeline.render {} (Timeline.build {} instrument.notes)).toList
        ((Timeline.build {} instrument.notes).map (·.lineChars ({} : Timeline.Options).decimals)) :=
    fun instrument hmem => by
      rw [Timeline.render, String.toList_ofList]
      exact Timeline.hasLines_renderChars
        (Timeline.isPlain_of_mem_build {} (hplain instrument hmem))
  rw [renderAll_eq hnotes]
  refine ⟨(instruments.zipIdx 1).map fun x => sectionOf x.2 x.1, ?_, ?_, ?_⟩
  · rw [toList_listing, List.flatMap_map, List.flatMap_map]
    refine Text.hasLines_flatMap fun x hx => ?_
    have hmem := List.fst_mem_of_mem_zipIdx hx
    have hheading : '\n' ∉ (heading x.2 x.1.name).toList := by
      rw [← List.count_eq_zero, count_heading, hbreaks x.1 hmem]
    have hpart := (Text.hasLines_singleton hheading).append (hlines x.1 hmem)
    rw [List.append_assoc] at hpart
    exact hpart
  · rw [List.forall₂_map_left_iff, List.forall₂_map_right_iff, List.forall₂_same]
    exact fun x hx => ⟨markerStart_isPrefix_heading x.2 x.1.name,
      hlines x.1 (List.fst_mem_of_mem_zipIdx hx)⟩
  · intro part hpart line hline
    obtain ⟨x, hx, rfl⟩ := List.mem_map.mp hpart
    obtain ⟨event, hevent, rfl⟩ := List.mem_map.mp hline
    have hplain := Timeline.isPlain_of_mem_build {} (hplain x.1 (List.fst_mem_of_mem_zipIdx hx))
    exact ⟨not_markerStart_lineChars _ event, _,
      Timeline.readLine_lineChars_of_plain (hplain event hevent)⟩

/-- A listing can be split if and only if no name has a line break in it. -/
theorem splitsInto_listing_iff {bytes : List UInt8} {performance : Performance}
    (h : Performance.ofBytes bytes = .ok performance) :
    SplitsInto (listing (renderAll {} performance.instruments)).toList
        (renderAll {} performance.instruments) ↔
      ∀ instrument ∈ performance.instruments, ∀ name ∈ instrument.name, '\n' ∉ name.toList := by
  have hnotes := Performance.notes_ne_nil_of_ofBytes h
  simp only [← breaks_eq_zero_iff]
  constructor
  · intro hsplits instrument hmem
    obtain ⟨k, hk⟩ := List.mem_iff_getElem?.mp hmem
    have hrendered : Rendered.ofNotes {} (k + 1) instrument ∈
        renderAll {} performance.instruments :=
      mem_renderAll.mpr ⟨k, instrument, hk,
        Rendered.ofInstrument?_of_ne_nil (hnotes instrument hmem)⟩
    exact breaks_eq_zero_of_splitsInto hsplits _ hrendered
  · exact splitsInto_of_breaks_eq_zero hnotes fun _ hmem => Performance.isPlain_of_mem_notes h hmem

theorem stdout_run_of_ok {arguments : List String} {input : Path} {limit : Log.Limit}
    (hread : read arguments = .convert input true limit) (override : Option String)
    {tree : FileTree} {performance : Performance}
    (h : (load FileTree.access input tree).1 = .ok performance) :
    (run FileTree.access arguments override tree).1.stdout =
      listing (renderAll {} performance.instruments) := by
  obtain ⟨log, hprocess⟩ := process_listing h
  rw [run_eq hread, hprocess]

/-- **The listing of a file can be split if and only if no track has a line break inside its
name.** -/
theorem run_splits_iff {arguments : List String} {input : Path} {limit : Log.Limit}
    (hread : read arguments = .convert input true limit) (override : Option String)
    {tree : FileTree} {performance : Performance}
    (h : (load FileTree.access input tree).1 = .ok performance) :
    SplitsInto (run FileTree.access arguments override tree).1.stdout.toList
        (renderAll {} performance.instruments) ↔
      ∀ instrument ∈ performance.instruments, ∀ name ∈ instrument.name, '\n' ∉ name.toList := by
  obtain ⟨bytes, hbytes⟩ := exists_ofBytes_of_performanceOf h
  rw [stdout_run_of_ok hread override h]
  exact splitsInto_listing_iff hbytes

/-- A file of one note on a track with the given name. -/
def namedNote (name : List UInt8) : List UInt8 :=
  [0x4d, 0x54, 0x68, 0x64, 0, 0, 0, 6, 0, 0, 0, 1, 0, 0x60,
   0x4d, 0x54, 0x72, 0x6b, 0, 0, 0, UInt8.ofNat (name.length + 12),
   0, 0xff, 0x03, UInt8.ofNat name.length] ++ name ++
  [0, 0x90, 60, 64, 0x60, 0x80, 60, 0]

/-- A colon or a slash inside a name does no harm. -/
theorem run_splits_slash :
    let tree := loneFile "a.mid" (namedNote [0x41, 0x2f, 0x3a])
    let outcome := (run FileTree.access ["a.mid", "--stdout"] none tree).1
    outcome.stdout = "# Track 1: A/:\n(C4):0.5\n" ∧
      ∃ performance, (load FileTree.access ⟨"a.mid"⟩ tree).1 = .ok performance ∧
        SplitsInto outcome.stdout.toList (renderAll {} performance.instruments) := by
  intro tree outcome
  refine ⟨by decide +kernel, ?_⟩
  have hloads : (fun performance => performance.instruments.map (·.name)) <$>
      (load FileTree.access ⟨"a.mid"⟩ tree).1 = .ok [some "A/:"] := by
    decide +kernel
  obtain ⟨performance, hload, hnames⟩ := exists_ok_of_map hloads
  refine ⟨performance, hload, ?_⟩
  have hread := (@read_plain "a.mid" (by decide) (by decide)).2
  refine (run_splits_iff hread none hload).mpr fun instrument hmem name hname => ?_
  have hsome : instrument.name ∈ [some "A/:"] := hnames ▸ List.mem_map_of_mem hmem
  rw [Option.mem_def.mp hname, List.mem_singleton] at hsome
  rw [Option.some.inj hsome]
  decide

/-- With a line break inside the name, the second half of the name is a line of its own. -/
theorem run_not_splits :
    let tree := loneFile "a.mid" (namedNote [0x41, 0x0a, 0x42])
    let outcome := (run FileTree.access ["a.mid", "--stdout"] none tree).1
    outcome.stdout = "# Track 1: A\nB\n(C4):0.5\n" ∧
      ∃ performance, (load FileTree.access ⟨"a.mid"⟩ tree).1 = .ok performance ∧
        ¬ SplitsInto outcome.stdout.toList (renderAll {} performance.instruments) := by
  intro tree outcome
  refine ⟨by decide +kernel, ?_⟩
  have hloads : (fun performance => performance.instruments.map (·.name)) <$>
      (load FileTree.access ⟨"a.mid"⟩ tree).1 = .ok [some "A\nB"] := by
    decide +kernel
  obtain ⟨performance, hload, hnames⟩ := exists_ok_of_map hloads
  have hinput : performanceOf ⟨"a.mid"⟩ (tree.read ⟨"a.mid"⟩) = .ok performance := hload
  obtain ⟨bytes, hbytes⟩ := exists_ofBytes_of_performanceOf hinput
  have hread := (@read_plain "a.mid" (by decide) (by decide)).2
  have hstdout : outcome.stdout = _ := stdout_run_of_ok hread none hload
  refine ⟨performance, hload, ?_⟩
  rw [hstdout, splitsInto_listing_iff hbytes]
  intro hall
  obtain ⟨instrument, hmem, hname⟩ := List.mem_map.mp (hnames ▸ List.mem_singleton_self _)
  exact absurd (hall instrument hmem _ hname) (by decide)

end CommandLine
end MidiChords

import MidiChords.CommandLine.StandardError
import MidiChords.Proofs.CommandLine.Modes
import MidiChords.Proofs.Files.Plain
import MidiChords.Proofs.Text.Lines

/-! # What a run logs

All entries tell of numbers and of paths that come from the input. So an entry takes one line unless
the path of the input has a line break in it.

* `Log.Entry.text_eq`: an entry begins with its level;
* `CommandLine.log_process`: all that a run logs;
* `CommandLine.tells_of_mem_process`: none of it is a trace, or breaks a line;
* `CommandLine.Failure.startsApart_of_mem_linesOf`: no line of an error looks like an entry. -/

namespace MidiChords

/-! ## The line of an entry -/

namespace Log

theorem not_mem_toDigits (n : Nat) : '\n' ∉ Nat.toDigits 16 n := by
  have hdigit : ∀ k < 16, '\n' ≠ Nat.digitChar k := by decide
  induction n using Nat.strong_induction_on with
  | _ n ih =>
    by_cases hn : n < 16
    · rw [Nat.toDigits_of_lt_base hn, List.mem_singleton]
      exact hdigit n hn
    · rw [Nat.toDigits_of_base_le (by decide) (Nat.le_of_not_lt hn), List.mem_append,
        List.mem_singleton, not_or]
      exact ⟨ih (n / 16) (by omega), hdigit (n % 16) (Nat.mod_lt n (by decide))⟩

/-- Escaping brings in no line break. -/
theorem eq_of_mem_escapeChar {c : Char} (h : '\n' ∈ escapeChar c) : c = '\n' := by
  unfold escapeChar at h
  split at h
  case isTrue hc =>
    simp only [List.mem_cons, List.not_mem_nil, or_false] at hc
    rcases hc with rfl | rfl | rfl | rfl | rfl <;> exact absurd h (by decide)
  case isFalse =>
    split at h
    · rw [Text.codePointEscape, List.mem_append, List.mem_append] at h
      rcases h with (h | h) | h
      · exact absurd h (by decide)
      · exact absurd h (not_mem_toDigits c.toNat)
      · exact absurd h (by decide)
    · exact (List.mem_singleton.mp h).symm

theorem not_mem_escape {message : String} (h : '\n' ∉ message.toList) :
    '\n' ∉ (escape message).toList := by
  rw [escape, String.toList_ofList, List.mem_flatMap]
  rintro ⟨c, hc, hbreak⟩
  exact h (eq_of_mem_escapeChar hbreak ▸ hc)

/-- The counts of an entry as they stand behind its message. -/
def countsText (fields : List (String × Nat)) : String :=
  String.join (fields.map fun (name, count) => " " ++ name ++ "=" ++ toString count)

theorem foldl_counts (text : String) (fields : List (String × Nat)) :
    fields.foldl (fun text (name, count) => text ++ " " ++ name ++ "=" ++ toString count) text =
      text ++ countsText fields := by
  induction fields generalizing text with
  | nil => simp [countsText]
  | cons field fields ih =>
    rw [List.foldl_cons, ih, countsText, countsText, List.map_cons, String.join_cons]
    simp only [String.append_assoc]

theorem Entry.text_eq (entry : Entry) :
    entry.text = entry.level.tag ++ " " ++ (escape entry.message ++ countsText entry.fields) := by
  rw [text, foldl_counts]
  simp only [String.append_assoc]

/-- What an entry has to be for its text to be one line. -/
theorem Entry.not_mem_text {entry : Entry} (hmessage : '\n' ∉ entry.message.toList)
    (hfields : ∀ field ∈ entry.fields, '\n' ∉ field.1.toList) : '\n' ∉ entry.text.toList := by
  have htag : '\n' ∉ (entry.level.tag ++ " ").toList := by cases entry.level <;> decide
  have hcounts : '\n' ∉ (countsText entry.fields).toList := by
    rw [countsText, String.toList_join, List.flatMap_map, List.mem_flatMap]
    rintro ⟨⟨name, count⟩, hfield, h⟩
    simp only [String.toList_append, List.mem_append] at h
    rcases h with ((h | h) | h) | h
    · exact absurd h (by decide)
    · exact hfields _ hfield h
    · exact absurd h (by decide)
    · exact Text.not_mem_toString count h
  rw [text_eq, String.toList_append, List.mem_append, not_or]
  refine ⟨htag, ?_⟩
  rw [String.toList_append, List.mem_append, not_or]
  exact ⟨not_mem_escape hmessage, hcounts⟩

end Log

/-! ## The entries of a run -/

/-- What the log tells about an input: no traces, and a line for each entry unless the path of the
input has a line break in it. -/
structure Log.Entry.Tells (input : Path) (entry : Log.Entry) : Prop where
  level : entry.level ≠ .trace
  not_mem_text : '\n' ∉ input.spelling.toList → '\n' ∉ entry.text.toList

theorem FileError.not_mem_message {cause : FileError} (h : cause.isAbsence) :
    '\n' ∉ cause.message.toList := by
  cases cause with
  | missing => decide
  | notDirectory => decide
  | isDirectory => contradiction
  | tooLong => decide
  | hasNul => decide
  | other text => contradiction

theorem FileTree.not_mem_message_of_target {tree : FileTree} {path : Path} {cause : FileError}
    (h : tree.target path = .error cause) : '\n' ∉ cause.message.toList := by
  unfold target at h
  cases hplace : tree.resolve path with
  | error first =>
    rw [hplace] at h
    cases h
    exact FileError.not_mem_message (isAbsence_of_resolve hplace)
  | ok place =>
    rw [hplace] at h
    change tree.vacant place = _ at h
    unfold vacant at h
    split at h
    · cases h
      decide
    · contradiction

theorem Text.not_mem_append {c : Char} {s t : String} (hs : c ∉ s.toList) (ht : c ∉ t.toList) :
    c ∉ (s ++ t).toList := by
  rw [String.toList_append, List.mem_append, not_or]
  exact ⟨hs, ht⟩

section

variable {input : Path}

/-- An entry with counts of the given names. -/
theorem Log.Entry.Tells.of_names (names : List String) {level : Log.Level} {message : String}
    {fields : List (String × Nat)} (hlevel : level ≠ .trace)
    (hmessage : '\n' ∉ input.spelling.toList → '\n' ∉ message.toList)
    (hnames : fields.map (·.1) = names) (hplain : ∀ name ∈ names, '\n' ∉ name.toList) :
    Tells input ⟨level, message, fields⟩ where
  level := hlevel
  not_mem_text hinput := Entry.not_mem_text (hmessage hinput) fun _ hfield =>
    hplain _ (hnames ▸ List.mem_map_of_mem hfield)

/-- An entry whose message ends in a path made from the input's. -/
theorem Log.Entry.Tells.of_path {level : Log.Level} {start : String} {path : Path}
    (hlevel : level ≠ .trace) (hstart : '\n' ∉ start.toList)
    (hpath : '\n' ∉ input.spelling.toList → '\n' ∉ path.spelling.toList) :
    Tells input ⟨level, start ++ path.spelling, []⟩ :=
  of_names [] hlevel (fun hinput => Text.not_mem_append hstart (hpath hinput)) rfl (by decide)

theorem tells_rendered (rendered : Rendered) : rendered.log.Tells input :=
  .of_names ["track", "notes", "events", "silences"] (by decide) (fun _ => by decide) rfl
    (by decide)

theorem tells_skipped (index : Nat) : (skippedLog index).Tells input :=
  .of_names ["track"] (by decide) (fun _ => by decide) rfl (by decide)

theorem tells_performance (performance : Performance) :
    ∀ entry ∈ performance.log, entry.Tells input := by
  intro entry hentry
  rw [Performance.log, List.mem_append, List.mem_singleton] at hentry
  rcases hentry with hentry | rfl
  · obtain ⟨⟨track, index⟩, -, he⟩ := List.mem_filterMap.mp hentry
    dsimp only at he
    split at he
    · contradiction
    · cases he
      exact .of_names ["track", "dangling"] (by decide) (fun _ => by decide) rfl (by decide)
  · exact .of_names ["midi_tracks", "instruments"] (by decide) (fun _ => by decide) rfl (by decide)

theorem not_mem_output (index : Nat) (h : '\n' ∉ input.spelling.toList) :
    '\n' ∉ (input.withoutExtension.trackFile index).spelling.toList :=
  Text.not_mem_append (Text.not_mem_append
    (Text.not_mem_append (Path.not_mem_withoutExtension (by decide) h) (by decide))
    (Text.not_mem_toString index)) (by decide)

/-- The attempt to write one output. -/
theorem tells_expected (options : Timeline.Options) (tree : FileTree) (instrument : Instrument)
    (index : Nat) :
    ∀ entry ∈ (Attempt.expected options input.withoutExtension tree instrument index).log,
      entry.Tells input := by
  unfold Attempt.expected
  cases Rendered.ofInstrument? options index instrument with
  | none => exact List.forall_mem_singleton.mpr (tells_skipped index)
  | some rendered =>
    dsimp only
    cases htarget : tree.target (input.withoutExtension.trackFile index) with
    | ok place =>
      refine List.forall_mem_cons.mpr ⟨tells_rendered rendered, List.forall_mem_singleton.mpr ?_⟩
      exact .of_path (by decide) (Text.not_mem_append (Text.not_mem_append (by decide)
        (Text.not_mem_toString _)) (by decide)) (not_mem_output index)
    | error cause =>
      have hcause := FileTree.not_mem_message_of_target htarget
      refine List.forall_mem_cons.mpr ⟨tells_rendered rendered, List.forall_mem_singleton.mpr ?_⟩
      refine .of_names ["track"] (by decide) (fun hinput => ?_) rfl (by decide)
      exact Text.not_mem_append (Text.not_mem_append
        (Text.not_mem_append (by decide) (not_mem_output index hinput)) (by decide)) hcause

end

namespace CommandLine

variable {input : Path} {tree : FileTree} {performance : Performance}

theorem log_process_of_ok (h : performanceOf input (tree.read input) = .ok performance)
    (toStdout : Bool) : (process FileTree.access input toStdout tree).1.log =
      ⟨.info, "Processing MIDI file: " ++ input.spelling, []⟩ :: performance.log ++
        if toStdout then listingLog {} performance.instruments
        else (exportOutcome input ((performance.instruments.zipIdx 1).map fun x =>
          Attempt.expected {} input.withoutExtension tree x.1 x.2)).log := by
  have hload : load FileTree.access input tree = (.ok performance, tree) := congrArg (·, tree) h
  cases toStdout with
  | false =>
    simp only [process, bind, StateT.bind, hload, Bool.false_eq_true, if_false, exportTo_eq]
    rfl
  | true =>
    simp only [process, bind, StateT.bind, hload]
    rfl

theorem tells_started : Log.Entry.Tells input
    ⟨.info, "Processing MIDI file: " ++ input.spelling, []⟩ :=
  .of_path (by decide) (by decide) id

/-- Whatever becomes of a run, none of its entries is a trace, and each takes a line of its own
unless the path of the input has a line break in it. -/
theorem tells_of_mem_process (toStdout : Bool) :
    ∀ entry ∈ (process FileTree.access input toStdout tree).1.log, entry.Tells input := by
  cases hinput : performanceOf input (tree.read input) with
  | error cause =>
    rw [process_of_error hinput]
    exact List.forall_mem_singleton.mpr tells_started
  | ok performance =>
    rw [log_process_of_ok hinput, List.cons_append]
    refine List.forall_mem_cons.mpr ⟨tells_started, List.forall_mem_append.mpr
      ⟨tells_performance performance, ?_⟩⟩
    cases toStdout with
    | true =>
      rw [if_pos rfl, listingLog, List.forall_mem_map]
      rintro ⟨instrument, index⟩ -
      cases hrendered : Rendered.ofInstrument? {} index instrument with
      | none => simpa only [hrendered] using tells_skipped index
      | some rendered => simpa only [hrendered] using tells_rendered rendered
    | false =>
      rw [if_neg Bool.false_ne_true, exportOutcome]
      refine List.forall_mem_append.mpr ⟨?_, ?_⟩
      · intro entry hentry
        obtain ⟨attempt, hattempt, hentry⟩ := List.mem_flatMap.mp hentry
        obtain ⟨x, -, rfl⟩ := List.mem_map.mp hattempt
        exact tells_expected _ _ _ _ entry hentry
      · split
        · exact List.forall_mem_singleton.mpr (.of_path (by decide) (by decide) id)
        · exact List.forall_mem_nil _

/-! ## The lines of an error -/

/-- What stands behind the log. -/
def failureChars : Option Failure → List Char
  | some failure => ("Error: " ++ failure.report ++ "\n").toList
  | none => []

theorem toList_standardError (outcome : Outcome) : outcome.standardError.toList =
    (outcome.log.flatMap fun entry => entry.text.toList ++ ['\n']) ++
      failureChars outcome.failure := by
  rw [Outcome.standardError, String.toList_append, String.toList_join, List.flatMap_map]
  congr 1
  · exact List.flatMap_congr fun entry _ => String.toList_append
  · cases outcome.failure <;> rfl

/-- The margin of a text stands before its first line, and blanks before all others. -/
theorem isPrefix_of_mem_splitOn {blanks chars : List Char} (hblanks : '\n' ∉ blanks) :
    ∀ {start : List Char}, '\n' ∉ start → ∀ line ∈ (start ++ chars.flatMap fun c =>
      if c = '\n' then c :: blanks else [c]).splitOn '\n', start <+: line ∨ blanks <+: line := by
  induction chars with
  | nil =>
    intro start hstart line hline
    rw [List.flatMap_nil, List.append_nil, List.splitOn_eq_singleton hstart,
      List.mem_singleton] at hline
    exact .inl (hline ▸ List.prefix_rfl)
  | cons c chars ih =>
    intro start hstart line hline
    rw [List.flatMap_cons] at hline
    by_cases hc : c = '\n'
    · subst hc
      rw [if_pos rfl, List.cons_append, List.splitOn_append_cons_self,
        List.splitOn_eq_singleton hstart, List.singleton_append, List.mem_cons] at hline
      rcases hline with rfl | hline
      · exact .inl List.prefix_rfl
      · exact .inr ((ih hblanks line hline).elim id id)
    · rw [if_neg hc, ← List.append_assoc] at hline
      have hlonger : '\n' ∉ start ++ [c] := by
        rw [List.mem_append, List.mem_singleton, not_or]
        exact ⟨hstart, Ne.symm hc⟩
      exact (ih hlonger line hline).imp_left (List.prefix_append _ _).trans

/-- Every line of a cause begins with blanks, whatever the cause says. -/
theorem isPrefix_of_mem_causeList {causes : List String} :
    ∀ piece ∈ Failure.causeList causes, ∀ line ∈ piece.toList.splitOn '\n',
      "    ".toList <+: line := by
  have hset : ∀ margin cause : String, "    ".toList <+: margin.toList → '\n' ∉ margin.toList →
      ∀ line ∈ (Failure.setIn margin cause).toList.splitOn '\n', "    ".toList <+: line := by
    intro margin cause hmargin hbreak line hline
    have hblanks : "    ".toList <+: List.replicate margin.length ' ' := by
      have hlength : 4 ≤ margin.length := String.length_toList ▸ hmargin.length_le
      refine ⟨List.replicate (margin.length - 4) ' ', ?_⟩
      rw [← Nat.add_sub_cancel' hlength, List.replicate_add, Nat.add_sub_cancel_left]
      rfl
    have hplain : '\n' ∉ List.replicate margin.length ' ' := fun h =>
      absurd (List.eq_of_mem_replicate h) (by decide)
    rw [Failure.setIn, String.toList_append, String.toList_ofList] at hline
    rcases isPrefix_of_mem_splitOn hplain hbreak line hline with h | h
    · exact hmargin.trans h
    · exact hblanks.trans h
  intro piece hpiece
  unfold Failure.causeList at hpiece
  split at hpiece
  · rw [List.mem_singleton] at hpiece
    exact hpiece ▸ hset _ _ List.prefix_rfl (by decide)
  · obtain ⟨⟨cause, number⟩, -, rfl⟩ := List.mem_map.mp hpiece
    refine hset _ _ ?_ ?_
    · rw [String.toList_append, String.toList_append, List.append_assoc]
      exact List.prefix_append _ _
    · exact Text.not_mem_append (Text.not_mem_append (by decide) (Text.not_mem_toString _))
        (by decide)

/-- The level that a line begins with, if it looks like an entry of the log. -/
def levelOf? (line : List Char) : Option Log.Level :=
  [.error, .warning, .info, .debug, .trace].find? fun level : Log.Level =>
    (level.tag ++ " ").toList.isPrefixOf line

theorem levelOf?_text (entry : Log.Entry) : levelOf? entry.text.toList = some entry.level := by
  rw [Log.Entry.text_eq, String.toList_append]
  generalize (Log.escape entry.message ++ Log.countsText entry.fields).toList = rest
  cases entry.level with
  | error => rfl
  | warning => rfl
  | info => rfl
  | debug => rfl
  | trace => rfl

theorem levelOf?_of_isPrefix {start line : List Char} (h : start <+: line)
    (hstart : start ∈ ["    ".toList, "Error: ".toList]) : levelOf? line = none := by
  obtain ⟨rest, rfl⟩ := h
  simp only [List.mem_cons, List.not_mem_nil, or_false] at hstart
  rcases hstart with rfl | rfl
  · rfl
  · rfl

theorem not_mem_message {failure : Failure}
    (hpath : ∀ path cause, failure = .notLoaded path cause → '\n' ∉ path.spelling.toList) :
    '\n' ∉ ("Error: " ++ failure.message).toList := by
  cases failure with
  | notLoaded path cause =>
    exact Text.not_mem_append (by decide) (Text.not_mem_append (by decide) (hpath path cause rfl))
  | notWritten failed total =>
    exact Text.not_mem_append (by decide) (Text.not_mem_append (Text.not_mem_append
      (Text.not_mem_append (Text.not_mem_toString failed) (by decide))
      (Text.not_mem_toString total)) (by decide))

/-- The first line of an error has its message; the others are empty, the heading, or begin with
blanks. -/
theorem mem_linesOf_failureChars {failure : Failure}
    (hmessage : '\n' ∉ ("Error: " ++ failure.message).toList) :
    ∀ line ∈ Text.linesOf (failureChars (some failure)),
      line = ("Error: " ++ failure.message).toList ∨ line = [] ∨ line = "Caused by:".toList ∨
        "    ".toList <+: line := by
  intro line hline
  rw [failureChars, String.toList_append] at hline
  rw [show "\n".toList = ['\n'] from rfl, Text.linesOf_concat, Failure.report] at hline
  split at hline
  · rw [List.splitOn_eq_singleton hmessage, List.mem_singleton] at hline
    exact .inl hline
  · rw [String.intercalate_cons_of_ne_nil (List.cons_ne_nil _ _), ← String.append_assoc,
      ← String.append_assoc, String.toList_append, String.toList_append, List.append_assoc,
      show "\n".toList = ['\n'] from rfl, List.singleton_append, List.splitOn_append_cons_self,
      List.splitOn_eq_singleton hmessage, List.singleton_append, List.mem_cons,
      String.toList_intercalate, show "\n".toList = ['\n'] from rfl,
      Text.splitOn_intercalate (by simp), List.map_cons, List.map_cons, List.flatMap_cons,
      List.flatMap_cons, List.mem_append, List.mem_append] at hline
    rcases hline with hline | hline | hline | hline
    · exact .inl hline
    · exact .inr (.inl (List.mem_singleton.mp hline))
    · exact .inr (.inr (.inl (List.mem_singleton.mp hline)))
    · rw [List.flatMap_map, List.mem_flatMap] at hline
      obtain ⟨piece, hpiece, hline⟩ := hline
      exact .inr (.inr (.inr (isPrefix_of_mem_causeList piece hpiece line hline)))

/-- No line of an error looks like an entry of the log, unless the path of the input makes one. -/
theorem levelOf?_of_mem_failureChars {failure : Option Failure}
    (hpath : ∀ path cause, failure = some (.notLoaded path cause) → '\n' ∉ path.spelling.toList) :
    ∀ line ∈ Text.linesOf (failureChars failure), levelOf? line = none := by
  intro line hline
  cases failure with
  | none => exact absurd hline List.not_mem_nil
  | some failure =>
    have hmessage := not_mem_message fun path cause h => hpath path cause (congrArg some h)
    rcases mem_linesOf_failureChars hmessage line hline with rfl | rfl | rfl | hblanks
    · rw [String.toList_append]
      exact levelOf?_of_isPrefix (List.prefix_append _ _) (by decide)
    · decide
    · decide
    · exact levelOf?_of_isPrefix hblanks (by decide)

end CommandLine
end MidiChords

import MidiChords.Proofs.CommandLine.Log

/-! # Verbosity

How much is logged makes no difference to anything but the log, and the log at a limit is what the
limit lets through of the whole log, entry by entry. Paths are logged as they are spelled, so an
entry takes several lines if there are line breaks in the path of the input. Otherwise the same
holds line by line.

* `CommandLine.flagLevel`, `CommandLine.chosenLimit`: the limit that arguments and an override set;
* `CommandLine.Outcome.logLines`, `CommandLine.Outcome.errorLine?`: what can be told from the lines;
* `CommandLine.run_showsAt`: every limit shows its part of the whole log, and the rest is the same;
* `CommandLine.errorLine?_differs`: a path with which the first line of the error differs. -/

namespace MidiChords
namespace CommandLine

/-! ## The limit -/

/-- The level that the switches ask for. -/
def flagLevel (arguments : List String) : Log.Level :=
  if .switch .quiet ∈ items arguments then .error
  else if .switch .verbose ∈ items arguments then .debug
  else .info

/-- The limit of a run. An override wins over the switches. -/
def chosenLimit (arguments : List String) (override : Option String) : Log.Limit :=
  (override.bind Log.Limit.ofName?).getD (some (flagLevel arguments))

/-- An item sets the switch that it is, and no other. -/
theorem quiet_verbose_of_add? {arguments after : Arguments} {item : Item}
    (h : arguments.add? item = some after) :
    (after.quiet ↔ arguments.quiet ∨ item = .switch .quiet) ∧
      (after.verbose ↔ arguments.verbose ∨ item = .switch .verbose) := by
  unfold Arguments.add? at h
  split at h
  case h_1 | h_2 | h_3 | h_4 =>
    split at h
    · contradiction
    · cases h
      simp
  case h_5 | h_6 => contradiction

theorem limit_of_request {arguments : Arguments} {input : Path} {toStdout : Bool}
    {limit : Log.Limit} (h : arguments.request = .convert input toStdout limit) :
    limit = arguments.limit := by
  unfold Arguments.request at h
  split at h
  · contradiction
  · split at h
    · contradiction
    · cases h
      rfl

theorem limit_of_readItems {arguments : Arguments} {items : List Item} {input : Path}
    {toStdout : Bool} {limit : Log.Limit}
    (h : readItems arguments items = .convert input toStdout limit) :
    limit = some (if arguments.quiet ∨ .switch .quiet ∈ items then .error
      else if arguments.verbose ∨ .switch .verbose ∈ items then .debug else .info) := by
  fun_induction readItems arguments items with
  | case1 arguments =>
    simpa [Arguments.limit] using limit_of_request h
  | case2 arguments items => contradiction
  | case3 => contradiction
  | case4 arguments item items _ after hafter ih =>
    obtain ⟨hquiet, hverbose⟩ := quiet_verbose_of_add? hafter
    rw [ih h]
    simp only [hquiet, hverbose, List.mem_cons, or_assoc, eq_comm]

theorem limit_of_read {arguments : List String} {input : Path} {toStdout : Bool}
    {limit : Log.Limit} (h : read arguments = .convert input toStdout limit) :
    limit = some (flagLevel arguments) := by
  simpa [flagLevel] using limit_of_readItems h

theorem isAlphanum_of_toLower {c : Char} (h : c.toLower.isAlphanum) : c.isAlphanum := by
  by_cases hc : c.isUpper
  · change (c.isUpper || c.isLower || c.isDigit) = true
    rw [hc]
    rfl
  · have hlower : c.toLower = c := dif_neg fun hupper => hc (decide_eq_true hupper)
    rwa [hlower] at h

theorem isBlank_of_isAlphanum {c : Char} (h : c.isAlphanum) : Text.isBlank c = false := by
  have hrange : (48 ≤ c.toNat ∧ c.toNat ≤ 57) ∨ (65 ≤ c.toNat ∧ c.toNat ≤ 90) ∨
      (97 ≤ c.toNat ∧ c.toNat ≤ 122) := by
    change (decide (c.val ≥ 'A'.val ∧ c.val ≤ 'Z'.val) ||
      (decide (c.val ≥ 'a'.val) && decide (c.val ≤ 'z'.val)) ||
      (decide (c.val ≥ '0'.val) && decide (c.val ≤ '9'.val))) = true at h
    simp only [Bool.or_eq_true, Bool.and_eq_true, decide_eq_true_eq, UInt32.le_iff_toNat_le] at h
    simp only [Char.toNat]
    grind
  simp only [Text.isBlank, Text.blankRanges, List.any_cons, List.any_nil, Bool.or_false,
    Bool.or_eq_false_iff, Bool.and_eq_false_iff, decide_eq_false_iff_not]
  omega

/-- The name of a limit begins with a letter or a digit. -/
theorem isAlphanum_of_ofName? {name : String} {bare : Log.Limit}
    (h : Log.Limit.ofName? name = some bare) :
    ∃ first rest, name.toList = first :: rest ∧ first.isAlphanum := by
  have hword : ∀ {first : Char} {rest : List Char}, first.isAlphanum →
      String.ofList (name.toList.map Char.toLower) = String.ofList (first :: rest) →
      ∃ first rest, name.toList = first :: rest ∧ first.isAlphanum := by
    intro first rest hfirst hname
    obtain ⟨c, tail, hchars, rfl, -⟩ := List.map_eq_cons_iff.mp (String.ofList_injective hname)
    exact ⟨c, tail, hchars, isAlphanum_of_toLower hfirst⟩
  unfold Log.Limit.ofName? at h
  split at h
  case h_1 => contradiction
  case h_2 hname | h_3 hname | h_4 hname | h_5 hname | h_6 hname | h_7 hname =>
    exact hword (by decide) hname
  case h_8 hempty _ _ _ _ _ _ =>
    split at h
    · rename_i hdigits
      cases hchars : name.toList with
      | nil => exact absurd (by rw [hchars]; rfl) hempty
      | cons c rest =>
        rw [hchars, List.all_cons, Bool.and_eq_true] at hdigits
        exact ⟨c, rest, rfl, by simp [Char.isAlphanum, hdigits.1]⟩
    · contradiction

/-- No name of a limit is void, so the limit counts. -/
theorem limitWith_of_ofName? {name : String} {bare : Log.Limit}
    (h : Log.Limit.ofName? name = some bare) (limit : Log.Limit) :
    limitWith (some name) limit = bare := by
  obtain ⟨first, rest, hname, hfirst⟩ := isAlphanum_of_ofName? h
  have hvoid : isVoid name = false := by
    rw [isVoid, hname, List.dropWhile_cons_of_neg (by rw [isBlank_of_isAlphanum hfirst]; decide)]
    simp [hfirst]
  rw [limitWith, hvoid, if_neg Bool.false_ne_true, h, Option.getD_some]

theorem limitWith_eq {arguments : List String} {input : Path} {toStdout : Bool}
    {limit : Log.Limit} (hread : read arguments = .convert input toStdout limit)
    {override : Option String} (hbare : ∀ name ∈ override, (Log.Limit.ofName? name).isSome) :
    limitWith override limit = chosenLimit arguments override := by
  cases override with
  | none => exact limit_of_read hread
  | some name =>
    obtain ⟨bare, hname⟩ := Option.isSome_iff_exists.mp (hbare name rfl)
    rw [limitWith_of_ofName? hname, chosenLimit, Option.bind_some, hname, Option.getD_some]

/-! ## Lines -/

namespace Outcome

def errorLines (outcome : Outcome) : List (List Char) :=
  Text.linesOf outcome.standardError.toList

/-- The lines that look like entries of the log. -/
def logLines (outcome : Outcome) : List (List Char) :=
  outcome.errorLines.filter fun line => (levelOf? line).isSome

/-- The line that tells why a run failed. -/
def errorLine? (outcome : Outcome) : Option (List Char) :=
  outcome.errorLines.find? fun line => "Error: ".toList.isPrefixOf line

/-- The entries and the error can be told apart by their lines. -/
structure IsOrderly (outcome : Outcome) : Prop where
  not_mem_text : ∀ entry ∈ outcome.log, '\n' ∉ entry.text.toList
  not_mem_path : ∀ path cause, outcome.failure = some (.notLoaded path cause) →
    '\n' ∉ path.spelling.toList

namespace IsOrderly

variable {outcome : Outcome}

theorem errorLines_eq (h : outcome.IsOrderly) : outcome.errorLines =
    (outcome.log.map fun entry => entry.text.toList) ++
      Text.linesOf (failureChars outcome.failure) := by
  have hlines : Text.HasLines (outcome.log.flatMap fun entry => entry.text.toList ++ ['\n'])
      (outcome.log.map fun entry => entry.text.toList) :=
    ⟨by rw [List.flatMap_map], List.forall_mem_map.mpr h.not_mem_text⟩
  rw [errorLines, toList_standardError, Text.linesOf_append hlines]

theorem logLines_eq (h : outcome.IsOrderly) :
    outcome.logLines = outcome.log.map fun entry => entry.text.toList := by
  have hentries : ∀ line ∈ outcome.log.map fun entry => entry.text.toList,
      (levelOf? line).isSome := List.forall_mem_map.mpr fun entry _ => by
    rw [levelOf?_text, Option.isSome_some]
  have herror : ∀ line ∈ Text.linesOf (failureChars outcome.failure),
      ¬ (levelOf? line).isSome := fun line hline => by
    rw [levelOf?_of_mem_failureChars h.not_mem_path line hline]
    exact Bool.false_ne_true
  rw [logLines, h.errorLines_eq, List.filter_append, List.filter_eq_self.mpr hentries,
    List.filter_eq_nil_iff.mpr herror, List.append_nil]

theorem errorLine?_eq (h : outcome.IsOrderly) : outcome.errorLine? =
    (Text.linesOf (failureChars outcome.failure)).find? fun line =>
      "Error: ".toList.isPrefixOf line := by
  have hentries : (outcome.log.map fun entry => entry.text.toList).find? (fun line =>
      "Error: ".toList.isPrefixOf line) = none := by
    rw [List.find?_eq_none]
    refine List.forall_mem_map.mpr fun entry _ hprefix => ?_
    have hlevel := levelOf?_of_isPrefix (List.isPrefixOf_iff_prefix.mp hprefix) (by decide)
    rw [levelOf?_text] at hlevel
    contradiction
  rw [errorLine?, h.errorLines_eq, List.find?_append, hentries, Option.none_or]

theorem filter (h : outcome.IsOrderly) (limit : Log.Limit) :
    IsOrderly { outcome with log := Log.filter limit outcome.log } where
  not_mem_text entry hentry := h.not_mem_text entry (List.mem_of_mem_filter hentry)
  not_mem_path := h.not_mem_path

end IsOrderly
end Outcome

/-- Only its own input is what a run cannot load. -/
theorem eq_of_failure_process {input path : Path} {tree : FileTree} {toStdout : Bool}
    {cause : Error} (h : (process FileTree.access input toStdout tree).1.failure =
      some (.notLoaded path cause)) : path = input := by
  cases hinput : performanceOf input (tree.read input) with
  | error first =>
    rw [process_of_error hinput] at h
    cases h
    rfl
  | ok performance =>
    cases toStdout with
    | true =>
      obtain ⟨log, hprocess⟩ := process_listing hinput
      rw [hprocess] at h
      contradiction
    | false =>
      obtain ⟨log, hprocess⟩ := process_files hinput
      rw [hprocess] at h
      dsimp only at h
      split at h
      · contradiction
      · cases h

theorem isOrderly_process {input : Path} (h : '\n' ∉ input.spelling.toList) (tree : FileTree)
    (toStdout : Bool) : (process FileTree.access input toStdout tree).1.IsOrderly where
  not_mem_text entry hentry := (tells_of_mem_process toStdout entry hentry).not_mem_text h
  not_mem_path _ _ hfailure := eq_of_failure_process hfailure ▸ h

/-! ## Runs at different limits -/

/-- What a run shows at a limit, beside the whole that another run on the same input shows. -/
structure ShowsAt (limit : Log.Limit) (input : Path) (whole shown : Outcome × FileTree) : Prop where
  exitCode : shown.1.exitCode = whole.1.exitCode
  stdout : shown.1.stdout = whole.1.stdout
  failure : shown.1.failure = whole.1.failure
  tree : shown.2 = whole.2
  log : shown.1.log = whole.1.log.filter fun entry => Log.passes limit entry.level
  level : ∀ entry ∈ whole.1.log, entry.level ≠ .trace
  errorLine : '\n' ∉ input.spelling.toList → shown.1.errorLine? = whole.1.errorLine?
  logLines : '\n' ∉ input.spelling.toList → shown.1.logLines =
    whole.1.logLines.filter fun line => (levelOf? line).any (Log.passes limit)

theorem filter_trace (entries : List Log.Entry) : Log.filter (some .trace) entries = entries :=
  List.filter_eq_self.mpr fun entry _ => by cases entry.level <;> decide

/-- **How much is logged makes no difference to anything but the log**, and the log at a limit is
what it lets through of the whole log. -/
theorem run_showsAt {arguments other : List String} {input : Path} {toStdout : Bool}
    {limit otherLimit : Log.Limit} (hread : read arguments = .convert input toStdout limit)
    (hother : read other = .convert input toStdout otherLimit) {override : Option String}
    (hbare : ∀ name ∈ override, (Log.Limit.ofName? name).isSome) (tree : FileTree) :
    ShowsAt (chosenLimit arguments override) input
      (run FileTree.access other (some "trace") tree)
      (run FileTree.access arguments override tree) := by
  have htrace : limitWith (some "trace") otherLimit = some .trace :=
    limitWith_of_ofName? (by decide) otherLimit
  have htells := @tells_of_mem_process input tree toStdout
  have horderly := fun hinput => @isOrderly_process input hinput tree toStdout
  rw [run_eq hread, run_eq hother, htrace, limitWith_eq hread hbare]
  cases hdone : process FileTree.access input toStdout tree with
  | mk outcome after =>
    rw [hdone] at htells horderly
    dsimp only
    rw [filter_trace]
    refine ⟨rfl, rfl, rfl, rfl, rfl, fun entry hentry => (htells entry hentry).level,
      fun hinput => ?_, fun hinput => ?_⟩
    · rw [((horderly hinput).filter _).errorLine?_eq, (horderly hinput).errorLine?_eq]
    · rw [((horderly hinput).filter _).logLines_eq, (horderly hinput).logLines_eq,
        List.filter_map, Log.filter]
      refine congrArg (List.map _) (List.filter_congr fun entry _ => ?_)
      rw [Function.comp_apply, levelOf?_text, Option.any_some]

/-- With an override the switch for details has no effect: only the failure is logged. -/
theorem run_showsAt_override :
    let tree := (loneFile "a.mid" oneNote).put ["a_Track1.txt"] .directory
    let shown := run FileTree.access ["-v", "a.mid"] (some "warn") tree
    shown.1.log =
        [⟨.error, "Failed to write a_Track1.txt: Is a directory (os error 21)", [("track", 1)]⟩] ∧
      ShowsAt (some .warning) ⟨"a.mid"⟩ (run FileTree.access ["a.mid"] (some "trace") tree)
        shown := by
  intro tree shown
  have hverbose : read ["-v", "a.mid"] = .convert ⟨"a.mid"⟩ false (some .debug) := by decide
  have hplain : read ["a.mid"] = .convert ⟨"a.mid"⟩ false (some .info) := by decide
  have hlimit : chosenLimit ["-v", "a.mid"] (some "warn") = some .warning := by decide
  have hbare : ∀ name ∈ some "warn", (Log.Limit.ofName? name).isSome := by decide
  exact ⟨by decide +kernel, hlimit ▸ run_showsAt hverbose hplain hbare tree⟩

/-- The path of this input has a line break in it, and its second line looks like an error. Quietly
the first such line is the error itself, otherwise it belongs to an entry of the log. -/
theorem errorLine?_differs :
    let plain := run FileTree.access ["x\nError: y"] none {}
    let quiet := run FileTree.access ["-q", "x\nError: y"] none {}
    plain.1.errorLine? = some "Error: y".toList ∧
      quiet.1.errorLine? = some "Error: Could not load x".toList ∧
      plain.1.errorLine? ≠ quiet.1.errorLine? := by
  decide +kernel

end CommandLine
end MidiChords

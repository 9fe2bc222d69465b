import MidiChords.Proofs.Export.Accounts

/-! # What a conversion touches

The outputs of a conversion stand next to its input, and none of them is called like it. So the
input is never lost, and a second conversion finds what the first one found.

* `convert_eq`: a conversion by the tree before it;
* `FileTree.exists_folder_of_read`: the directory and the name of a file that can be read;
* `convert_converted`: a conversion adds or replaces its outputs and does nothing else. -/

namespace MidiChords

theorem isInvalidInput_of_performanceOf {path : Path} {content : Except FileError (List UInt8)}
    {error : Error} (h : performanceOf path content = .error error) : error.isInvalidInput := by
  unfold performanceOf at h
  split at h
  · rename_i bytes
    cases hbytes : Performance.ofBytes bytes with
    | error damage =>
      rw [hbytes] at h
      cases h
      rfl
    | ok performance =>
      rw [hbytes] at h
      contradiction
  · cases h
    split <;> rfl

theorem exists_bytes_of_performanceOf {path : Path} {content : Except FileError (List UInt8)}
    {performance : Performance} (h : performanceOf path content = .ok performance) :
    ∃ bytes, content = .ok bytes := by
  cases content with
  | error cause => contradiction
  | ok bytes => exact ⟨bytes, rfl⟩

/-- A conversion by the tree before it. -/
theorem convert_eq (options : Timeline.Options) (input : Path) (tree : FileTree) :
    convert FileTree.access options input tree =
      match performanceOf input (tree.read input) with
      | .error error => (.error error, tree)
      | .ok performance =>
        (.ok (expectedReport options input.withoutExtension tree
            (performance.instruments.zipIdx 1)),
          tree.putAll (outputs options input.withoutExtension tree
            (performance.instruments.zipIdx 1))) := by
  have hload : load FileTree.access input tree = (performanceOf input (tree.read input), tree) :=
    rfl
  simp only [convert, loadAndExport, bind, StateT.bind, hload]
  cases performanceOf input (tree.read input) with
  | error error => rfl
  | ok performance =>
    simp only [StateT.bind, bind, exportTo_eq]
    rfl

/-! ## Next to the input -/

/-- The name of an output next to an input with the given stem. A point alone is no name, so a
second one is there in front. -/
def outputName (stem : List Char) (index : Nat) : String :=
  (if stem = ['.'] then ".." else String.ofList stem) ++ "_Track" ++ toString index ++ ".txt"

theorem exists_outputName {name : List Char} (h : Path.IsName name) :
    ∃ stem, Path.IsStem name stem ∧ ∀ index,
      outputName stem index = String.ofList (Path.cutName name ++ Path.trackSuffix index) := by
  obtain ⟨stem, hstem, hcut⟩ := Path.exists_stem_cutName h.ne_self
  refine ⟨stem, hstem, fun index => ?_⟩
  have hfront : (if stem = ['.'] then ".." else String.ofList stem) =
      String.ofList (Path.cutName name) := by
    rw [hcut, apply_ite String.ofList]
  rw [String.ofList_append, Path.trackSuffix, String.ofList_toList, outputName, hfront]
  simp only [String.append_assoc]

/-- The outputs of an input are the input with other last names. -/
theorem Path.trackFile_withoutExtension {input : Path} (h : IsName input.lastName) (index : Nat) :
    input.withoutExtension.trackFile index =
      input.sibling (cutName input.lastName ++ trackSuffix index) := by
  have hcut := not_mem_cutName (by decide : '/' ≠ '.') input.not_mem_lastName
  rw [trackFile_eq_sibling, withoutExtension_eq_sibling h, lastName_sibling hcut,
    sibling_sibling hcut]

namespace FileTree

variable {tree : FileTree} {input : Path} {place : Place} {bytes : List UInt8}

/-- A file that can be read has a name of its own. -/
theorem WellFormed.isName_lastName (h : tree.WellFormed)
    (hplace : tree.resolve input = .ok place) (hfile : tree.content? place = some (.file bytes)) :
    Path.IsName input.lastName := by
  have hdirectory : tree.content? place ≠ some .directory := fun hdirectory => by
    cases hfile.symm.trans hdirectory
  obtain ⟨names, name, -, hnames, -, -, hempty, hself, hparent⟩ := h.resolve_eq_ok hplace hdirectory
  rw [input.names_eq] at hnames
  obtain rfl := List.singleton_inj.mp (List.append_inj' hnames rfl).2
  exact ⟨input.not_mem_lastName, fun he => hempty (he ▸ rfl), fun he => hself (he ▸ rfl),
    fun he => hparent (he ▸ rfl)⟩

/-- The outputs of an input are in its directory, under other names. -/
theorem resolve_output (h : Path.IsName input.lastName) (hinput : tree.resolve input = .ok place) :
    ∃ folder stem, place = folder ++ [String.ofList input.lastName] ∧
      Path.IsStem input.lastName stem ∧
      (∀ index, outputName stem index ≠ String.ofList input.lastName) ∧
      ∀ {index other}, tree.resolve (input.withoutExtension.trackFile index) = .ok other →
        other = folder ++ [outputName stem index] := by
  rw [← input.sibling_lastName] at hinput
  obtain ⟨folder, hfolder, -, hplace⟩ := resolve_sibling_eq_ok h hinput
  obtain ⟨stem, hstem, houtputName⟩ := exists_outputName h
  refine ⟨folder, stem, hplace, hstem, fun index he => ?_, fun {index other} houtput => ?_⟩
  · rw [houtputName] at he
    exact Path.cutName_append_ne _ index (String.ofList_injective he)
  · have hcut := Path.not_mem_cutName (by decide : '/' ≠ '.') input.not_mem_lastName
    rw [Path.trackFile_withoutExtension h] at houtput
    obtain ⟨folder', hfolder', -, hother⟩ :=
      resolve_sibling_eq_ok (Path.isName_append_trackSuffix hcut index) houtput
    cases hfolder.symm.trans hfolder'
    rw [houtputName, hother]

end FileTree

/-! ## The conversion -/

/-- What a conversion that reports has done. The outputs stand in the directory of the input; they
are called like it up to the extension, and none of them is called like it. Only they have changed,
and converting once more reports the same and changes nothing. -/
structure Converted (options : Timeline.Options) (input : Path) (tree : FileTree) (report : Report)
    (after : FileTree) : Prop where
  loaded : ∃ performance, load FileTree.access input tree = (.ok performance, tree) ∧
    ∀ written ∈ report.written, 1 ≤ written.1 ∧ written.1 ≤ performance.instruments.length
  placed : ∃ folder name stem bytes, tree.resolve input = .ok (folder ++ [name]) ∧
    tree.content? (folder ++ [name]) = some (.file bytes) ∧
    after.content? (folder ++ [name]) = some (.file bytes) ∧ Path.IsStem name.toList stem ∧
    ∀ written ∈ report.written, written.2 = input.withoutExtension.trackFile written.1 ∧
      tree.resolve written.2 = .ok (folder ++ [outputName stem written.1]) ∧
      outputName stem written.1 ≠ name
  others : ∀ {place : Place}, (∀ written ∈ report.written, tree.resolve written.2 ≠ .ok place) →
    after.content? place = tree.content? place
  current : after.current = tree.current
  reads : after.read input = tree.read input
  again : convert FileTree.access options input after = (.ok report, after)

section

variable (options : Timeline.Options) (base : Path) (tree : FileTree)
  (numbered : List (Instrument × Nat))

theorem areOutputs_outputs :
    FileTree.AreOutputs base tree (outputs options base tree numbered) := by
  rintro ⟨place, bytes⟩ hfile
  obtain ⟨_, index, _, _, _, htarget, _⟩ := mem_outputs.mp hfile
  exact ⟨index, htarget⟩

/-- An export after an export reports the same. -/
theorem expectedReport_putAll_outputs :
    expectedReport options base (tree.putAll (outputs options base tree numbered)) numbered =
      expectedReport options base tree numbered := by
  have hsame := FileTree.target_putAll_trackFile (areOutputs_outputs options base tree numbered)
  rw [expectedReport, expectedReport]
  exact congrArg _ (List.map_congr_left fun x _ => Attempt.expected_congr hsame)

/-- An export after an export puts the same files where they are already. -/
theorem putAll_outputs_putAll_outputs (h : (numbered.map (·.2)).Nodup) :
    (tree.putAll (outputs options base tree numbered)).putAll
        (outputs options base (tree.putAll (outputs options base tree numbered)) numbered) =
      tree.putAll (outputs options base tree numbered) := by
  have hsame := FileTree.target_putAll_trackFile (areOutputs_outputs options base tree numbered)
  have houtputs : outputs options base (tree.putAll (outputs options base tree numbered)) numbered =
      outputs options base tree numbered :=
    List.filterMap_congr fun x _ => Attempt.file?_congr hsame
  rw [houtputs]
  exact FileTree.putAll_eq_self fun file hfile =>
    FileTree.content?_putAll_of_mem fits_outputs (nodup_outputs h) hfile

end

/-- **A conversion touches only its outputs**, and never its input. -/
theorem convert_converted (options : Timeline.Options) (input : Path) {tree : FileTree}
    (h : tree.WellFormed) :
    match convert FileTree.access options input tree with
    | (.error error, after) => error.isInvalidInput ∧ after = tree
    | (.ok report, after) => Converted options input tree report after := by
  rw [convert_eq]
  cases hload : performanceOf input (tree.read input) with
  | error error => exact ⟨isInvalidInput_of_performanceOf hload, rfl⟩
  | ok performance =>
    obtain ⟨bytes, hread⟩ := exists_bytes_of_performanceOf hload
    obtain ⟨place, hplace, hfile⟩ := FileTree.read_eq_ok.mp hread
    have hname := h.isName_lastName hplace hfile
    obtain ⟨folder, stem, rfl, hstem, hne, houtput⟩ := FileTree.resolve_output hname hplace
    -- the input is not among the outputs, so it is as before
    have hkept : (tree.putAll (outputs options input.withoutExtension tree
        (performance.instruments.zipIdx 1))).content? (folder ++ [String.ofList input.lastName]) =
          some (.file bytes) := by
      rw [content?_putAll_outputs fun written hwritten hresolve => ?_, hfile]
      obtain ⟨_, _, _, _, hpath, -⟩ := mem_expectedReport_written.mp hwritten
      rw [hpath] at hresolve
      have hlast := List.append_cancel_left (houtput hresolve)
      exact hne _ (List.singleton_inj.mp hlast).symm
    have hreads : (tree.putAll (outputs options input.withoutExtension tree
        (performance.instruments.zipIdx 1))).read input = tree.read input := by
      rw [hread]
      exact FileTree.read_eq_ok.mpr
        ⟨_, FileTree.resolve_putAll_of_ok fits_outputs hplace, hkept⟩
    refine {
      loaded := ⟨performance, congrArg (·, tree) hload, fun written hwritten => ?_⟩
      placed := ⟨folder, String.ofList input.lastName, stem, bytes, hplace, hfile, hkept,
        String.toList_ofList ▸ hstem, fun written hwritten => ?_⟩
      others := content?_putAll_outputs
      current := FileTree.current_putAll ..
      reads := hreads
      again := ?_ }
    · obtain ⟨_, hmem, -⟩ := mem_expectedReport_written.mp hwritten
      have hindex := List.mem_map_of_mem (f := (·.2)) hmem
      rw [List.zipIdx_map_snd, List.mem_range'_1] at hindex
      omega
    · obtain ⟨_, _, _, _, hpath, other, htarget⟩ := mem_expectedReport_written.mp hwritten
      have hresolve := (FileTree.target_eq_ok.mp htarget).1
      refine ⟨hpath, ?_, hne _⟩
      rw [hpath] at hresolve ⊢
      rw [hresolve, houtput hresolve]
    · rw [convert_eq, hreads, hload]
      dsimp only
      rw [expectedReport_putAll_outputs, putAll_outputs_putAll_outputs _ _ _ _ (nodup_numbers _)]

/-- A directory with one file in it. -/
def loneFile (name : String) (bytes : List UInt8) : FileTree :=
  FileTree.put {} ([] ++ [name]) (.file bytes)

theorem wellFormed_loneFile (name : String) (bytes : List UInt8) :
    (loneFile name bytes).WellFormed :=
  (FileTree.WellFormed.empty []).put rfl (by simp [FileTree.content?])

/-- A file of one track with one note. -/
def oneNote : List UInt8 :=
  [0x4d, 0x54, 0x68, 0x64, 0, 0, 0, 6, 0, 0, 0, 1, 0, 0x60,
   0x4d, 0x54, 0x72, 0x6b, 0, 0, 0, 8, 0, 0x90, 60, 64, 0x60, 0x80, 60, 0]

/-- A file that is called like an output keeps its bytes. -/
theorem convert_converted_output :
    let tree := loneFile "a_Track1.txt" oneNote
    ∃ report after, convert FileTree.access {} ⟨"a_Track1.txt"⟩ tree = (.ok report, after) ∧
      report.written = [(1, ⟨"a_Track1_Track1.txt"⟩)] ∧
      Converted {} ⟨"a_Track1.txt"⟩ tree report after := by
  intro tree
  have hrun : (convert FileTree.access {} ⟨"a_Track1.txt"⟩ tree).1.map (·.written) =
      .ok [(1, ⟨"a_Track1_Track1.txt"⟩)] := by
    decide +kernel
  have htree : tree.WellFormed := wellFormed_loneFile _ _
  have hconverted := convert_converted {} ⟨"a_Track1.txt"⟩ htree
  generalize convert FileTree.access {} ⟨"a_Track1.txt"⟩ tree = outcome at hrun hconverted
  obtain ⟨result, after⟩ := outcome
  cases result with
  | error error => contradiction
  | ok report => exact ⟨report, after, rfl, Except.ok.inj hrun, hconverted⟩

/-- The stem of `..mid` is a point, but its output is not called like that: a point alone is no
name, so both points stay. -/
theorem convert_twoPoints :
    let tree := loneFile "..mid" oneNote
    tree.WellFormed ∧ Path.IsStem "..mid".toList ['.'] ∧
      ∃ report after, convert FileTree.access {} ⟨"..mid"⟩ tree = (.ok report, after) ∧
        ¬ ∀ written ∈ report.written,
          tree.resolve written.2 = .ok ["." ++ "_Track" ++ toString written.1 ++ ".txt"] := by
  intro tree
  have hrun : (convert FileTree.access {} ⟨"..mid"⟩ tree).1.map (·.written) =
      .ok [(1, ⟨".._Track1.txt"⟩)] := by
    decide +kernel
  have hstem : Path.IsStem "..mid".toList ['.'] :=
    .inl ⟨by decide, ['m', 'i', 'd'], by decide, by decide⟩
  refine ⟨wellFormed_loneFile _ _, hstem, ?_⟩
  generalize convert FileTree.access {} ⟨"..mid"⟩ tree = outcome at hrun
  obtain ⟨result, after⟩ := outcome
  cases result with
  | error error => contradiction
  | ok report =>
    refine ⟨report, after, rfl, fun hall => ?_⟩
    have hwritten : report.written = [(1, ⟨".._Track1.txt"⟩)] := Except.ok.inj hrun
    rw [hwritten] at hall
    exact absurd (hall _ (List.mem_singleton_self _)) (by decide +kernel)

end MidiChords

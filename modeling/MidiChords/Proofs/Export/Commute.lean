import MidiChords.Proofs.Export.Convert
import MidiChords.Proofs.Files.Plain

/-! # Conversions of different files

Two conversions whose inputs have different bases write to different places. If neither writes what
the other reads, each finds the same before and after the other, and the order in which they run
makes no difference.

* `FileTree.Alike`: trees that cannot be told apart;
* `conversionFiles`, `convert_putAll`: what a conversion writes, and that files elsewhere change
  neither this nor its result;
* `convert_comm`: two conversions in either order. -/

namespace MidiChords

/-! ## Trees by their contents -/

namespace FileTree

variable {tree other : FileTree} {place : Place} {files others : List (Place × List UInt8)}

/-- Relative paths start alike in the two trees, and the same stands at every place. -/
structure Alike (tree other : FileTree) : Prop where
  current : tree.current = other.current
  content : ∀ place, tree.content? place = other.content? place

theorem Fits.putAll (h : tree.Fits files) (hothers : tree.Fits others) :
    (tree.putAll others).Fits files := fun file hfile hdirectory =>
  h file hfile ((SameDirectories.putAll hothers).directory_iff.mpr hdirectory)

/-- Files at different places can be put there in either order. -/
theorem alike_putAll_comm (h : tree.Fits files) (hothers : tree.Fits others)
    (hnodup : (files.map (·.1)).Nodup) (hnodup' : (others.map (·.1)).Nodup)
    (hdisjoint : (files.map (·.1)).Disjoint (others.map (·.1))) :
    ((tree.putAll files).putAll others).Alike ((tree.putAll others).putAll files) := by
  refine ⟨by simp only [current_putAll], fun place => ?_⟩
  by_cases hmem : place ∈ files.map (·.1)
  · have hnot : place ∉ others.map (·.1) := hdisjoint hmem
    obtain ⟨⟨place, bytes⟩, hfile, rfl⟩ := List.mem_map.mp hmem
    rw [content?_putAll_of_not_mem (hothers.putAll h) hnot,
      content?_putAll_of_mem h hnodup hfile, content?_putAll_of_mem (h.putAll hothers) hnodup hfile]
  · by_cases hmem' : place ∈ others.map (·.1)
    · obtain ⟨⟨place, bytes⟩, hfile, rfl⟩ := List.mem_map.mp hmem'
      rw [content?_putAll_of_mem (hothers.putAll h) hnodup' hfile,
        content?_putAll_of_not_mem (h.putAll hothers) hmem,
        content?_putAll_of_mem hothers hnodup' hfile]
    · rw [content?_putAll_of_not_mem (hothers.putAll h) hmem', content?_putAll_of_not_mem h hmem,
        content?_putAll_of_not_mem (h.putAll hothers) hmem,
        content?_putAll_of_not_mem hothers hmem']

end FileTree

/-! ## One conversion beside files elsewhere -/

section

variable {options : Timeline.Options} {input other : Path} {tree : FileTree} {place : Place}
  {files : List (Place × List UInt8)} {i j : Nat}

/-- The files that a conversion writes. -/
def conversionFiles (options : Timeline.Options) (input : Path) (tree : FileTree) :
    List (Place × List UInt8) :=
  match performanceOf input (tree.read input) with
  | .error _ => []
  | .ok performance =>
    outputs options input.withoutExtension tree (performance.instruments.zipIdx 1)

theorem convert_snd (options : Timeline.Options) (input : Path) (tree : FileTree) :
    (convert FileTree.access options input tree).2 =
      tree.putAll (conversionFiles options input tree) := by
  rw [convert_eq, conversionFiles]
  cases performanceOf input (tree.read input) <;> rfl

theorem fits_conversionFiles : tree.Fits (conversionFiles options input tree) := by
  unfold conversionFiles
  split
  · exact fun _ h => absurd h List.not_mem_nil
  · exact fits_outputs

theorem nodup_conversionFiles : ((conversionFiles options input tree).map (·.1)).Nodup := by
  unfold conversionFiles
  split
  · exact .nil
  · exact nodup_outputs (nodup_numbers _)

/-- A conversion that writes something has read its input. -/
theorem exists_target_of_mem_conversionFiles
    (h : place ∈ (conversionFiles options input tree).map (·.1)) :
    (∃ source, tree.resolve input = .ok source) ∧
      ∃ index, tree.resolve (input.withoutExtension.trackFile index) = .ok place := by
  obtain ⟨file, hfile, rfl⟩ := List.mem_map.mp h
  unfold conversionFiles at hfile
  split at hfile
  · contradiction
  · rename_i performance hperformance
    obtain ⟨bytes, hread⟩ := exists_bytes_of_performanceOf hperformance
    obtain ⟨source, hsource, -⟩ := FileTree.read_eq_ok.mp hread
    obtain ⟨_, index, _, _, _, htarget, -⟩ := mem_outputs.mp hfile
    exact ⟨⟨source, hsource⟩, index, (FileTree.target_eq_ok.mp htarget).1⟩

/-- Where files are put that are not the input, loading it has the same result. -/
theorem performanceOf_read_putAll (h : tree.Fits files)
    (hinput : ∀ place, tree.resolve input = .ok place → place ∉ files.map (·.1)) :
    performanceOf input ((tree.putAll files).read input) =
      performanceOf input (tree.read input) := by
  cases hresolve : tree.resolve input with
  | ok place =>
    have hcontent := FileTree.content?_putAll_of_not_mem h (hinput place hresolve)
    have hput := (FileTree.resolve_putAll_eq_ok h).mpr hresolve
    rw [FileTree.read, FileTree.read, hput, hresolve]
    simp only [bind, Except.bind, hcontent]
  | error cause =>
    cases hput : (tree.putAll files).resolve input with
    | ok place =>
      cases hresolve.symm.trans ((FileTree.resolve_putAll_eq_ok h).mp hput)
    | error cause' =>
      -- the causes may differ, but neither says that there is something
      rw [FileTree.read, FileTree.read, hput, hresolve]
      simp only [bind, Except.bind, performanceOf, FileTree.isAbsence_of_resolve hput,
        FileTree.isAbsence_of_resolve hresolve, if_true]

/-- Files elsewhere change nothing for an output of an input that is there. -/
theorem target_putAll_output (h : tree.Fits files) (hname : Path.IsName input.lastName)
    {source : Place} (hsource : tree.resolve input = .ok source) (index : Nat) :
    (tree.putAll files).target (input.withoutExtension.trackFile index) =
      tree.target (input.withoutExtension.trackFile index) := by
  have hsibling := hsource
  rw [← input.sibling_lastName] at hsibling
  obtain ⟨folder, hfolder, hdirectory, -⟩ := FileTree.resolve_sibling_eq_ok hname hsibling
  have hcut := Path.not_mem_cutName (by decide : '/' ≠ '.') input.not_mem_lastName
  rw [Path.trackFile_withoutExtension hname]
  exact FileTree.target_putAll_sibling h hfolder hdirectory
    (Path.isName_append_trackSuffix hcut index).noSlash

/-- **Beside files elsewhere** a conversion has the same result and writes the same files. -/
theorem convert_putAll (hplain : input.IsPlain) (h : tree.Fits files)
    (hinput : ∀ place, tree.resolve input = .ok place → place ∉ files.map (·.1)) :
    (convert FileTree.access options input (tree.putAll files)).1 =
        (convert FileTree.access options input tree).1 ∧
      conversionFiles options input (tree.putAll files) = conversionFiles options input tree := by
  have hload := performanceOf_read_putAll h hinput
  rw [convert_eq, convert_eq, conversionFiles, conversionFiles, hload]
  cases hperformance : performanceOf input (tree.read input) with
  | error error => exact ⟨rfl, rfl⟩
  | ok performance =>
    obtain ⟨bytes, hread⟩ := exists_bytes_of_performanceOf hperformance
    obtain ⟨source, hsource, -⟩ := FileTree.read_eq_ok.mp hread
    have hname := hplain.isName_lastName (FileTree.spelling_ne_of_resolve hsource)
    have hsame := target_putAll_output h hname hsource
    refine ⟨congrArg Except.ok ?_, ?_⟩
    · rw [expectedReport, expectedReport]
      exact congrArg _ (List.map_congr_left fun x _ => Attempt.expected_congr hsame)
    · exact List.filterMap_congr fun x _ => Attempt.file?_congr hsame

/-! ## Two conversions -/

/-- The outputs of an input are plain paths. -/
theorem Path.IsPlain.trackFile (hplain : input.IsPlain) (hname : Path.IsName input.lastName)
    (index : Nat) : (input.withoutExtension.trackFile index).isAbsolute = false ∧
      ∀ name ∈ (input.withoutExtension.trackFile index).names, name ≠ "." ∧ name ≠ ".." := by
  have hcut := Path.not_mem_cutName (by decide : '/' ≠ '.') input.not_mem_lastName
  have houtput := Path.isName_append_trackSuffix hcut index
  rw [Path.trackFile_withoutExtension hname, Path.isAbsolute_sibling houtput.noSlash,
    Path.names_sibling houtput.noSlash]
  refine ⟨hplain.relative, fun name hmem => ?_⟩
  rcases List.mem_append.mp hmem with hmem | hmem
  · exact hplain.names name (input.names_eq ▸ List.mem_append_left _ hmem)
  · rw [List.mem_singleton.mp hmem]
    exact ⟨fun he => houtput.ne_self (String.ofList_injective he),
      fun he => houtput.ne_parent (String.ofList_injective he)⟩

/-- Outputs of inputs with different bases are different, whatever their numbers. -/
theorem Path.steps_withoutExtension_of_trackFile (hinput : IsName input.lastName)
    (hother : IsName other.lastName)
    (h : (input.withoutExtension.trackFile i).steps = (other.withoutExtension.trackFile j).steps) :
    input.withoutExtension.steps = other.withoutExtension.steps := by
  have hcut := not_mem_cutName (by decide : '/' ≠ '.') input.not_mem_lastName
  have hcut' := not_mem_cutName (by decide : '/' ≠ '.') other.not_mem_lastName
  have houtput := isName_append_trackSuffix hcut i
  have houtput' := isName_append_trackSuffix hcut' j
  rw [trackFile_withoutExtension hinput, trackFile_withoutExtension hother,
    steps_sibling houtput.noSlash houtput.ne_nil,
    steps_sibling houtput'.noSlash houtput'.ne_nil] at h
  obtain ⟨hfolder, hlast⟩ := List.append_inj' h rfl
  have hname := String.ofList_injective (List.singleton_inj.mp hlast)
  rw [withoutExtension_eq_sibling hinput, withoutExtension_eq_sibling hother,
    steps_sibling hcut (cutName_ne_nil hinput.ne_nil),
    steps_sibling hcut' (cutName_ne_nil hother.ne_nil), hfolder,
    (append_trackSuffix_injective hname).1]

/-- What a conversion writes is at the steps of an output. -/
theorem exists_steps_of_mem_conversionFiles (hplain : input.IsPlain)
    (h : place ∈ (conversionFiles options input tree).map (·.1)) :
    Path.IsName input.lastName ∧
      ∃ index, place = tree.current ++ (input.withoutExtension.trackFile index).steps := by
  obtain ⟨⟨source, hsource⟩, index, hplace⟩ := exists_target_of_mem_conversionFiles h
  have hname := hplain.isName_lastName (FileTree.spelling_ne_of_resolve hsource)
  obtain ⟨hrelative, hnames⟩ := hplain.trackFile hname index
  exact ⟨hname, index, FileTree.resolve_eq_append_steps hrelative hnames hplace⟩

/-- An input that is no output of the other one is not written by its conversion. -/
theorem not_mem_conversionFiles (hinput : input.IsPlain) (hother : other.IsPlain)
    (h : ∀ index, input.steps ≠ (other.withoutExtension.trackFile index).steps) :
    ∀ place, tree.resolve input = .ok place →
      place ∉ (conversionFiles options other tree).map (·.1) := by
  intro place hplace hmem
  obtain ⟨-, index, hsteps⟩ := exists_steps_of_mem_conversionFiles hother hmem
  rw [FileTree.resolve_eq_append_steps hinput.relative hinput.names hplace] at hsteps
  exact h index (List.append_cancel_left hsteps)

theorem disjoint_conversionFiles {options' : Timeline.Options} (hinput : input.IsPlain)
    (hother : other.IsPlain)
    (h : input.withoutExtension.steps ≠ other.withoutExtension.steps) :
    ((conversionFiles options input tree).map (·.1)).Disjoint
      ((conversionFiles options' other tree).map (·.1)) := by
  intro place hmem hmem'
  obtain ⟨hname, i, hi⟩ := exists_steps_of_mem_conversionFiles hinput hmem
  obtain ⟨hname', j, hj⟩ := exists_steps_of_mem_conversionFiles hother hmem'
  exact h (Path.steps_withoutExtension_of_trackFile hname hname'
    (List.append_cancel_left (hi.symm.trans hj)))

end

/-- **Conversions of different files commute.** Two inputs have different bases, and neither is an
output of the other. Then each conversion has the same result whether it comes first or second, and
both orders leave the same behind. -/
theorem convert_comm {p q : Path} (hp : p.IsPlain) (hq : q.IsPlain)
    (hbase : p.withoutExtension.steps ≠ q.withoutExtension.steps)
    (hpq : ∀ index, p.steps ≠ (q.withoutExtension.trackFile index).steps)
    (hqp : ∀ index, q.steps ≠ (p.withoutExtension.trackFile index).steps)
    (options options' : Timeline.Options) (tree : FileTree) :
    let afterP := convert FileTree.access options p tree
    let afterPQ := convert FileTree.access options' q afterP.2
    let afterQ := convert FileTree.access options' q tree
    let afterQP := convert FileTree.access options p afterQ.2
    afterP.1 = afterQP.1 ∧ afterQ.1 = afterPQ.1 ∧ afterPQ.2.Alike afterQP.2 := by
  intro afterP afterPQ afterQ afterQP
  have hfits : tree.Fits (conversionFiles options p tree) := fits_conversionFiles
  have hfits' : tree.Fits (conversionFiles options' q tree) := fits_conversionFiles
  obtain ⟨hresult, hfiles⟩ := @convert_putAll options p tree _ hp hfits'
    (not_mem_conversionFiles hp hq hpq)
  obtain ⟨hresult', hfiles'⟩ := @convert_putAll options' q tree _ hq hfits
    (not_mem_conversionFiles hq hp hqp)
  have hP : afterP.2 = tree.putAll (conversionFiles options p tree) := convert_snd ..
  have hQ : afterQ.2 = tree.putAll (conversionFiles options' q tree) := convert_snd ..
  refine ⟨?_, ?_, ?_⟩
  · rw [← hQ] at hresult
    exact hresult.symm
  · rw [← hP] at hresult'
    exact hresult'.symm
  · have hPQ : afterPQ.2 = afterP.2.putAll (conversionFiles options' q afterP.2) := convert_snd ..
    have hQP : afterQP.2 = afterQ.2.putAll (conversionFiles options p afterQ.2) := convert_snd ..
    rw [hPQ, hQP, hP, hQ, hfiles, hfiles']
    exact FileTree.alike_putAll_comm hfits hfits' nodup_conversionFiles nodup_conversionFiles
      (disjoint_conversionFiles hp hq hbase)

/-- Every output is a text file. -/
theorem Path.steps_ne_trackFile {path base : Path} {name : String}
    (hlast : path.steps.getLast? = some name) (h : ¬ ".txt".toList <:+ name.toList) :
    ∀ index, path.steps ≠ (base.trackFile index).steps := by
  intro index hsteps
  have hname := isName_append_trackSuffix base.not_mem_lastName index
  rw [hsteps, trackFile_eq_sibling, steps_sibling hname.noSlash hname.ne_nil,
    List.getLast?_concat] at hlast
  refine h ⟨base.lastName ++ ("_Track".toList ++ Nat.toDigits 10 index), ?_⟩
  have hlist : name.toList = base.lastName ++ trackSuffix index := by
    rw [← Option.some.inj hlast, String.toList_ofList]
  rw [hlist, trackSuffix_eq, List.append_assoc]

/-- The base of one input is an output of the other without its extension. -/
theorem convert_comm_tracks :
    let tree := (loneFile "a.mid" oneNote).put ["a_Track1.mid"] (.file oneNote)
    let p : Path := ⟨"a.mid"⟩
    let q : Path := ⟨"a_Track1.mid"⟩
    let afterP := convert FileTree.access {} p tree
    let afterQ := convert FileTree.access {} q tree
    p.withoutExtension.steps ≠ q.withoutExtension.steps ∧
      (∀ index, p.steps ≠ (q.withoutExtension.trackFile index).steps) ∧
      (∀ index, q.steps ≠ (p.withoutExtension.trackFile index).steps) ∧
      afterP.1.map (·.written) = .ok [(1, ⟨"a_Track1.txt"⟩)] ∧
      afterQ.1.map (·.written) = .ok [(1, ⟨"a_Track1_Track1.txt"⟩)] ∧
      afterP.1 = (convert FileTree.access {} p afterQ.2).1 ∧
      afterQ.1 = (convert FileTree.access {} q afterP.2).1 ∧
      (convert FileTree.access {} q afterP.2).2.Alike
        (convert FileTree.access {} p afterQ.2).2 := by
  intro tree p q afterP afterQ
  have hp : p.IsPlain := ⟨by decide, by decide, by decide⟩
  have hq : q.IsPlain := ⟨by decide, by decide, by decide⟩
  have hbase : p.withoutExtension.steps ≠ q.withoutExtension.steps := by decide
  have hpq : ∀ index, p.steps ≠ (q.withoutExtension.trackFile index).steps :=
    @Path.steps_ne_trackFile p _ "a.mid" (by decide) (by decide)
  have hqp : ∀ index, q.steps ≠ (p.withoutExtension.trackFile index).steps :=
    @Path.steps_ne_trackFile q _ "a_Track1.mid" (by decide) (by decide)
  exact ⟨hbase, hpq, hqp, by decide +kernel, by decide +kernel,
    convert_comm hp hq hbase hpq hqp {} {} tree⟩

end MidiChords

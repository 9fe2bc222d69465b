import MidiChords.Proofs.Files.LastName

/-! # Plain paths

A relative path without names `.` and `..` leads to the place that its names spell out, however many
slashes stand between them.

* `Path.steps`: the names that a path is compared by;
* `Path.IsPlain`: a relative path that names what it leads to;
* `FileTree.resolve_eq_append_steps`: where a plain path leads;
* `Path.append_trackSuffix_injective`: the name of an output has one base and one number;
* `FileTree.resolve_putAll_eq_ok`, `FileTree.target_putAll_sibling`: files that are put somewhere
  neither open nor close a way. -/

namespace MidiChords
namespace Path

/-- The names between the slashes without the empty ones. Paths without names `.` are the same path
if they have the same steps. -/
def steps (path : Path) : List String := path.names.filter (· ≠ "")

/-- A relative path without names `.` and `..` and without a slash at the end. -/
structure IsPlain (path : Path) : Prop where
  relative : path.isAbsolute = false
  names : ∀ name ∈ path.names, name ≠ "." ∧ name ≠ ".."
  noSlash : path.spelling.toList.getLast? ≠ some '/'

variable {path : Path} {name a b : List Char} {i j : Nat}

theorem steps_sibling (h : '/' ∉ name) (hne : name ≠ []) :
    (path.sibling name).steps =
      path.folderNames.filter (· ≠ "") ++ [String.ofList name] := by
  have hname : String.ofList name ≠ "" := fun he => hne (String.ofList_injective he)
  rw [steps, names_sibling h, List.filter_append]
  simp [hname]

theorem IsPlain.isName_lastName (h : path.IsPlain) (hne : path.spelling ≠ "") :
    IsName path.lastName := by
  have hmem : String.ofList path.lastName ∈ path.names := by
    rw [names_eq]
    exact List.mem_append_right _ (List.mem_singleton_self _)
  obtain ⟨hself, hparent⟩ := h.names _ hmem
  refine ⟨path.not_mem_lastName, fun hnil => ?_, fun he => hself (he ▸ rfl),
    fun he => hparent (he ▸ rfl)⟩
  -- without a last name the path would be empty or end in a slash
  have hfolder : path.folder = path.spelling.toList := by
    rw [← path.folder_append_lastName, hnil, List.append_nil]
  rcases path.folder_cases with hempty | ⟨outer, houter⟩
  · exact hne (String.toList_injective (hfolder.symm.trans hempty))
  · refine h.noSlash ?_
    rw [← hfolder, houter, List.getLast?_concat]

theorem cutName_ne_nil (h : name ≠ []) : cutName name ≠ [] := by
  unfold cutName
  split
  · exact h
  · rename_i stem hstem
    split
    · exact List.cons_ne_nil _ _
    · exact (stem?_eq_some hstem).1

theorem dropWhile_isDigit_reverse (a : List Char) (i : Nat) :
    (a ++ "_Track".toList ++ Nat.toDigits 10 i).reverse.dropWhile Char.isDigit =
      (a ++ "_Track".toList).reverse := by
  have hdigits : ∀ c ∈ (Nat.toDigits 10 i).reverse, c.isDigit := fun c hc =>
    Nat.isDigit_of_mem_toDigits (by decide) (by decide) (List.mem_reverse.mp hc)
  rw [List.reverse_append, List.dropWhile_append_of_pos hdigits, List.reverse_append]
  exact List.dropWhile_cons_of_neg (by decide)

/-- The number of an output can be told from what stands in front: its digits come after a
letter. -/
theorem append_trackSuffix_injective (h : a ++ trackSuffix i = b ++ trackSuffix j) :
    a = b ∧ i = j := by
  have hfront : a ++ "_Track".toList ++ Nat.toDigits 10 i =
      b ++ "_Track".toList ++ Nat.toDigits 10 j := by
    rw [trackSuffix_eq, trackSuffix_eq, ← List.append_assoc, ← List.append_assoc,
      ← List.append_assoc, ← List.append_assoc] at h
    exact List.append_cancel_right h
  have hreverse := congrArg (fun chars => chars.reverse.dropWhile Char.isDigit) hfront
  rw [dropWhile_isDigit_reverse, dropWhile_isDigit_reverse, List.reverse_inj] at hreverse
  obtain rfl := List.append_cancel_right hreverse
  exact ⟨rfl, trackSuffix_injective (List.append_cancel_left h)⟩

end Path

/-! ## Ways through a tree -/

namespace FileTree

variable {tree other : FileTree} {path : Path} {place next folder : Place} {name : String}
  {files : List (Place × List UInt8)} {b : List Char} {cause : FileError}

theorem foldlM_follow_eq_append {names : List String}
    (h : ∀ name ∈ names, name ≠ "." ∧ name ≠ "..")
    (hfold : names.foldlM tree.follow place = .ok next) :
    next = place ++ names.filter (· ≠ "") := by
  induction names generalizing place with
  | nil =>
    cases hfold
    simp
  | cons name names ih =>
    obtain ⟨⟨hself, hparent⟩, hnames⟩ := List.forall_mem_cons.mp h
    rw [List.foldlM_cons] at hfold
    obtain ⟨between, hfollow, hrest⟩ := exists_ok_of_bind hfold
    have hnext := ih hnames hrest
    rw [follow, directory_of_follow hfollow] at hfollow
    dsimp only at hfollow
    by_cases hempty : name = ""
    · rw [if_pos (.inl hempty)] at hfollow
      cases hfollow
      simpa [hempty] using hnext
    · rw [if_neg (by simp [hempty, hself]), if_neg hparent] at hfollow
      split at hfollow
      · contradiction
      · cases hfollow
        simpa [hempty] using hnext

theorem spelling_ne_of_resolve (h : tree.resolve path = .ok place) : path.spelling ≠ "" := by
  intro hempty
  rw [resolve, if_pos hempty] at h
  contradiction

/-- A plain path leads to the place that its steps spell out. -/
theorem resolve_eq_append_steps (hrelative : path.isAbsolute = false)
    (hnames : ∀ name ∈ path.names, name ≠ "." ∧ name ≠ "..")
    (h : tree.resolve path = .ok place) : place = tree.current ++ path.steps := by
  unfold resolve at h
  split at h
  · contradiction
  · obtain ⟨origin, horigin, hfold⟩ := exists_ok_of_bind h
    have hcurrent := start_eq_ok horigin
    rw [if_neg (Bool.eq_false_iff.mp hrelative)] at hcurrent
    exact hcurrent ▸ foldlM_follow_eq_append hnames hfold

theorem isAbsence_of_start (h : tree.start path = .error cause) : cause.isAbsence := by
  unfold start at h
  split at h
  · cases h
    rfl
  · split at h
    · cases h
      rfl
    · contradiction

theorem isAbsence_of_follow (h : tree.follow place name = .error cause) : cause.isAbsence := by
  unfold follow at h
  split at h
  · cases h
    rfl
  · cases h
    rfl
  · split at h
    · contradiction
    · split at h
      · contradiction
      · split at h
        · cases h
          rfl
        · contradiction

theorem isAbsence_of_foldlM_follow {names : List String}
    (h : names.foldlM tree.follow place = .error cause) : cause.isAbsence := by
  induction names generalizing place with
  | nil => contradiction
  | cons name names ih =>
    rw [List.foldlM_cons] at h
    cases hfollow : tree.follow place name with
    | error first =>
      rw [hfollow] at h
      cases h
      exact isAbsence_of_follow hfollow
    | ok next =>
      rw [hfollow] at h
      exact ih h

/-- Where no way leads there is nothing. -/
theorem isAbsence_of_resolve (h : tree.resolve path = .error cause) : cause.isAbsence := by
  unfold resolve at h
  split at h
  · cases h
    rfl
  · cases hstart : tree.start path with
    | error first =>
      rw [hstart] at h
      cases h
      exact isAbsence_of_start hstart
    | ok origin =>
      rw [hstart] at h
      exact isAbsence_of_foldlM_follow h

/-! ## Ways and files -/

/-- Relative paths start alike in the two trees, and the directories are the same. -/
structure SameDirectories (tree other : FileTree) : Prop where
  current : tree.current = other.current
  directory_iff : ∀ {place : Place},
    tree.content? place = some .directory ↔ other.content? place = some .directory

namespace SameDirectories

theorem refl (tree : FileTree) : tree.SameDirectories tree := ⟨rfl, Iff.rfl⟩

theorem symm (h : tree.SameDirectories other) : other.SameDirectories tree :=
  ⟨h.current.symm, h.directory_iff.symm⟩

theorem follow (h : tree.SameDirectories other) (hfollow : tree.follow place name = .ok next) :
    other.follow place name = .ok next := by
  have hplace := directory_of_follow hfollow
  rwa [follow_congr ((h.directory_iff.mp hplace).trans hplace.symm)]

theorem foldlM_follow (h : tree.SameDirectories other) {names : List String}
    (hfold : names.foldlM tree.follow place = .ok next) :
    names.foldlM other.follow place = .ok next := by
  induction names generalizing place with
  | nil => exact hfold
  | cons name names ih =>
    rw [List.foldlM_cons] at hfold
    obtain ⟨between, hfollow, hrest⟩ := exists_ok_of_bind hfold
    rw [List.foldlM_cons, h.follow hfollow]
    exact ih hrest

theorem resolve (h : tree.SameDirectories other) (hpath : tree.resolve path = .ok place) :
    other.resolve path = .ok place := by
  unfold FileTree.resolve at hpath ⊢
  split at hpath
  · contradiction
  · rename_i hspelling
    obtain ⟨origin, horigin, hfold⟩ := exists_ok_of_bind hpath
    have hstart : other.start path = .ok origin := by
      rw [← horigin, start, start, h.current]
    rw [if_neg hspelling, hstart]
    exact h.foldlM_follow hfold

theorem putAll (h : tree.Fits files) : tree.SameDirectories (tree.putAll files) := by
  induction files generalizing tree with
  | nil => exact refl tree
  | cons file files ih =>
    obtain ⟨hfile, hfiles⟩ := List.forall_mem_cons.mp h
    obtain ⟨hcurrent, hdirectory⟩ := ih (Fits.put hfiles hfile)
    refine ⟨hcurrent, fun {place} => Iff.trans ?_ hdirectory⟩
    rw [content?_put_of_not_directory hfile]
    split
    · rename_i he
      subst he
      simp [hfile]
    · exact Iff.rfl

end SameDirectories

theorem resolve_putAll_eq_ok (h : tree.Fits files) :
    (tree.putAll files).resolve path = .ok place ↔ tree.resolve path = .ok place :=
  ⟨(SameDirectories.putAll h).symm.resolve, (SameDirectories.putAll h).resolve⟩

/-- Files that are put elsewhere do not get in the way of one that is written to a directory. -/
theorem target_putAll_sibling (h : tree.Fits files) (hfolder : tree.folderOf path = .ok folder)
    (hdirectory : tree.content? folder = some .directory) (hb : '/' ∉ b) :
    (tree.putAll files).target (path.sibling b) = tree.target (path.sibling b) := by
  induction files generalizing tree with
  | nil => rfl
  | cons file files ih =>
    obtain ⟨hfile, hfiles⟩ := List.forall_mem_cons.mp h
    have hput : (tree.put file.1 (.file file.2)).folderOf path = .ok folder :=
      foldlM_follow_put_of_ok hfile hfolder
    rw [putAll_cons, ih (Fits.put hfiles hfile) hput (content?_put_of_directory hfile hdirectory),
      target, target, resolve_put_sibling hfile hfolder hdirectory hb, funext (vacant_put hfile)]

end FileTree
end MidiChords

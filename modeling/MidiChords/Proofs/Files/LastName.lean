import Mathlib.Data.List.TakeWhile
import MidiChords.Proofs.Files.Resolution

/-! # Paths that differ in their last names

The base of the outputs is the input without its extension, and each output is the base with more
text behind it: of all these paths only the last names differ.

* `Path.folder`, `Path.lastName`, `Path.sibling`: a path with another last name;
* `Path.trackFile_eq_sibling`, `Path.withoutExtension_eq_sibling`: outputs and bases are such paths;
* `Path.IsStem`, `Path.exists_stem_cutName`: the stem of a name, and what is left of an input's;
* `Path.cutName_append_ne`: an output is not called like its input;
* `FileTree.resolve_sibling_eq_ok`: such paths lead into one directory;
* `FileTree.target_put_sibling`: a file that is put there does not get in the way of another. -/

namespace MidiChords
namespace Path

/-- What stands before the last name, the slash included. -/
def folder (path : Path) : List Char :=
  (path.spelling.toList.reverse.dropWhile (· ≠ '/')).reverse

/-- What stands after the last slash. -/
def lastName (path : Path) : List Char :=
  (path.spelling.toList.reverse.takeWhile (· ≠ '/')).reverse

/-- The path with another last name. -/
def sibling (path : Path) (name : List Char) : Path := ⟨String.ofList (path.folder ++ name)⟩

/-- The names before the last one. -/
def folderNames (path : Path) : List String :=
  (path.folder.splitOn '/').dropLast.map String.ofList

/-- A name of something in a directory. -/
structure IsName (name : List Char) : Prop where
  noSlash : '/' ∉ name
  ne_nil : name ≠ []
  ne_self : name ≠ ['.']
  ne_parent : name ≠ ['.', '.']

variable {path : Path} {name : List Char}

theorem folder_append_lastName (path : Path) :
    path.folder ++ path.lastName = path.spelling.toList := by
  rw [folder, lastName, ← List.reverse_append, List.takeWhile_append_dropWhile,
    List.reverse_reverse]

theorem sibling_lastName (path : Path) : path.sibling path.lastName = path := by
  rw [sibling, folder_append_lastName, String.ofList_toList]

theorem not_mem_lastName (path : Path) : '/' ∉ path.lastName := fun h => by
  have hne := List.mem_takeWhile_imp (List.mem_reverse.mp h)
  simp at hne

/-- Before the last name there is nothing or a slash. -/
theorem folder_cases (path : Path) : path.folder = [] ∨ ∃ outer, path.folder = outer ++ ['/'] := by
  unfold folder
  cases h : path.spelling.toList.reverse.dropWhile (· ≠ '/') with
  | nil => exact .inl rfl
  | cons c outer =>
    have hc : c = '/' := by
      have hhead := List.head?_dropWhile_not (· ≠ '/') path.spelling.toList.reverse
      rw [h] at hhead
      simpa using hhead
    exact .inr ⟨outer.reverse, by rw [hc, List.reverse_cons]⟩

theorem reverse_toList_sibling (path : Path) (name : List Char) :
    (path.sibling name).spelling.toList.reverse = name.reverse ++ path.folder.reverse := by
  rw [sibling, String.toList_ofList, List.reverse_append]

theorem takeWhile_folder (path : Path) : path.folder.reverse.takeWhile (· ≠ '/') = [] := by
  rcases path.folder_cases with h | ⟨outer, h⟩
  · rw [h]
    rfl
  · rw [h, List.reverse_append]
    rfl

theorem lastName_sibling (h : '/' ∉ name) : (path.sibling name).lastName = name := by
  have hname : ∀ c ∈ name.reverse, decide (c ≠ '/') = true := fun c hc =>
    decide_eq_true fun he => h (he ▸ List.mem_reverse.mp hc)
  rw [lastName, reverse_toList_sibling, List.takeWhile_append_of_pos hname, takeWhile_folder,
    List.append_nil, List.reverse_reverse]

theorem folder_sibling (h : '/' ∉ name) : (path.sibling name).folder = path.folder := by
  have hall := (path.sibling name).folder_append_lastName
  rw [lastName_sibling h, sibling, String.toList_ofList] at hall
  exact List.append_cancel_right hall

theorem sibling_sibling (h : '/' ∉ name) (other : List Char) :
    (path.sibling name).sibling other = path.sibling other := by
  rw [sibling, folder_sibling h, sibling]

theorem names_sibling (h : '/' ∉ name) :
    (path.sibling name).names = path.folderNames ++ [String.ofList name] := by
  rw [names, sibling, String.toList_ofList, folderNames]
  rcases path.folder_cases with hfolder | ⟨outer, hfolder⟩
  · rw [hfolder, List.nil_append, List.splitOn_eq_singleton h]
    rfl
  · rw [hfolder, List.append_assoc, List.singleton_append, List.splitOn_append_cons_self,
      List.splitOn_append_cons_self, List.splitOn_eq_singleton h, List.splitOn_nil,
      List.dropLast_concat, List.map_append]
    rfl

theorem names_eq (path : Path) :
    path.names = path.folderNames ++ [String.ofList path.lastName] := by
  conv_lhs => rw [← path.sibling_lastName, names_sibling path.not_mem_lastName]

theorem isAbsolute_sibling (h : '/' ∉ name) : (path.sibling name).isAbsolute = path.isAbsolute := by
  have hfolder : ∀ name, '/' ∉ name →
      (path.sibling name).isAbsolute = decide (path.folder.head? = some '/') := by
    intro name h
    rw [isAbsolute, sibling, String.toList_ofList]
    cases path.folder with
    | nil =>
      have hhead : name.head? ≠ some '/' := fun hhead => h (List.mem_of_head? hhead)
      simpa using hhead
    | cons c outer => rfl
  conv_rhs => rw [← path.sibling_lastName]
  rw [hfolder name h, hfolder path.lastName path.not_mem_lastName]

/-! ## Extensions -/

theorem stem?_eq_some {stem : List Char} (h : stem? name = some stem) :
    stem ≠ [] ∧ ∃ ext, '.' ∉ ext ∧ name = stem ++ '.' :: ext := by
  unfold stem? at h
  split at h
  · contradiction
  · contradiction
  · rename_i found ext hne hsplit
    cases h
    obtain ⟨hname, hext⟩ := Text.splitAtLast_eq_some hsplit
    exact ⟨hne, ext, hext, hname⟩

/-- The stem of a name is what stands before its last point, or all of it if it has no point but at
the front. -/
def IsStem (name stem : List Char) : Prop :=
  stem ≠ [] ∧ (∃ ext, '.' ∉ ext ∧ name = stem ++ '.' :: ext) ∨ stem = name ∧ '.' ∉ name.tail

theorem not_mem_tail_of_stem? (h : stem? name = none) : '.' ∉ name.tail := by
  unfold stem? at h
  split at h
  · rename_i hsplit
    exact fun hmem => Text.splitAtLast_eq_none_iff.mp hsplit (List.mem_of_mem_tail hmem)
  · rename_i hsplit
    obtain ⟨rfl, hext⟩ := Text.splitAtLast_eq_some hsplit
    exact hext
  · contradiction

/-- A name without its extension is its stem, unless that is a point and thus no name. -/
theorem exists_stem_cutName (h : name ≠ ['.']) :
    ∃ stem, IsStem name stem ∧ cutName name = if stem = ['.'] then ['.', '.'] else stem := by
  unfold cutName
  split
  · rename_i hstem
    exact ⟨name, .inr ⟨rfl, not_mem_tail_of_stem? hstem⟩, (if_neg h).symm⟩
  · rename_i stem hstem
    exact ⟨stem, .inl (stem?_eq_some hstem), rfl⟩

theorem not_mem_cutName {c : Char} (hc : c ≠ '.') (h : c ∉ name) : c ∉ cutName name := by
  unfold cutName
  split
  · exact h
  · rename_i stem hstem
    obtain ⟨-, ext, -, rfl⟩ := stem?_eq_some hstem
    split
    · simpa using hc
    · exact fun hmem => h (List.mem_append_left _ hmem)

theorem dropIdleEnd_eq_self {chars : List Char} (hname : chars.takeWhile (· ≠ '/') ≠ [])
    (hself : chars.takeWhile (· ≠ '/') ≠ ['.']) : dropIdleEnd chars = chars := by
  unfold dropIdleEnd
  split
  · exact absurd rfl hname
  · exact absurd rfl hself
  · rfl

/-- The extension of a name is cut off, and nothing else changes. -/
theorem withoutExtension_eq_sibling (h : IsName path.lastName) :
    path.withoutExtension = path.sibling (cutName path.lastName) := by
  have hname : path.spelling.toList.reverse.takeWhile (· ≠ '/') ≠ [] := fun he =>
    h.ne_nil (by rw [lastName, he, List.reverse_nil])
  have hself : path.spelling.toList.reverse.takeWhile (· ≠ '/') ≠ ['.'] := fun he =>
    h.ne_self (by rw [lastName, he, List.reverse_singleton])
  have hidle := dropIdleEnd_eq_self hname hself
  unfold withoutExtension
  dsimp only
  rw [hidle, if_pos rfl]
  refine if_neg ?_
  rintro (hnil | hpoint | hpoints)
  · exact h.ne_nil hnil
  · exact h.ne_self hpoint
  · exact h.ne_parent hpoints

theorem dropIdleEnd_isSuffix (chars : List Char) : dropIdleEnd chars <:+ chars := by
  fun_induction dropIdleEnd chars with
  | case1 rest ih => exact ih.trans (List.suffix_cons _ _)
  | case2 rest ih => exact ih.trans ((List.suffix_cons _ _).trans (List.suffix_cons _ _))
  | case3 chars => exact List.suffix_rfl

/-- Nothing but a point can come in when an extension is cut off. -/
theorem not_mem_withoutExtension {path : Path} {c : Char} (hc : c ≠ '.')
    (h : c ∉ path.spelling.toList) : c ∉ path.withoutExtension.spelling.toList := by
  have hkept : c ∉ dropIdleEnd path.spelling.toList.reverse := fun hmem =>
    h (List.mem_reverse.mp ((dropIdleEnd_isSuffix _).subset hmem))
  have hname : c ∉ ((dropIdleEnd path.spelling.toList.reverse).takeWhile (· ≠ '/')).reverse :=
    fun hmem => hkept ((List.takeWhile_prefix _).subset (List.mem_reverse.mp hmem))
  have hfolder : c ∉ ((dropIdleEnd path.spelling.toList.reverse).dropWhile (· ≠ '/')).reverse :=
    fun hmem => hkept ((List.dropWhile_suffix _).subset (List.mem_reverse.mp hmem))
  unfold withoutExtension
  dsimp only
  split
  · exact h
  · rw [String.toList_ofList, List.mem_append, not_or]
    refine ⟨hfolder, ?_⟩
    split
    · exact not_mem_cutName hc hname
    · cases hstem : stem? _ with
      | none => exact hname
      | some stem =>
        obtain ⟨-, ext, -, he⟩ := stem?_eq_some hstem
        exact fun hmem => hname (he ▸ List.mem_append_left _ hmem)

/-! ## Outputs -/

/-- What stands behind the base in the name of an output. -/
def trackSuffix (index : Nat) : List Char := ("_Track" ++ toString index ++ ".txt").toList

theorem trackSuffix_eq (index : Nat) :
    trackSuffix index = "_Track".toList ++ Nat.toDigits 10 index ++ ".txt".toList := by
  rw [trackSuffix, String.toList_append, String.toList_append, Nat.toString_eq_repr,
    Nat.toList_repr]

theorem trackFile_eq_sibling (base : Path) (index : Nat) :
    base.trackFile index = base.sibling (base.lastName ++ trackSuffix index) := by
  refine congrArg Path.mk (String.toList_injective ?_)
  rw [String.toList_ofList, ← List.append_assoc, folder_append_lastName, trackSuffix,
    ← String.toList_append]
  simp only [String.append_assoc]

theorem trackSuffix_injective {i j : Nat} (h : trackSuffix i = trackSuffix j) : i = j := by
  rw [trackSuffix_eq, trackSuffix_eq] at h
  have hdigits := List.append_cancel_left (List.append_cancel_right h)
  have hi := Nat.ofDigitChars_ten_toDigits (n := i)
  rwa [hdigits, Nat.ofDigitChars_ten_toDigits, eq_comm] at hi

theorem not_mem_trackSuffix (index : Nat) : '/' ∉ trackSuffix index := by
  intro h
  rw [trackSuffix_eq] at h
  rcases List.mem_append.mp h with h | h
  · rcases List.mem_append.mp h with h | h
    · revert h
      decide
    · exact absurd (Nat.isDigit_of_mem_toDigits (by decide) (by decide) h) (by decide)
  · revert h
    decide

theorem length_trackSuffix (index : Nat) : 10 < (trackSuffix index).length := by
  have hdigits : 0 < (Nat.toDigits 10 index).length := Nat.length_toDigits_pos
  have htag : "_Track".toList.length = 6 := rfl
  have hend : ".txt".toList.length = 4 := rfl
  rw [trackSuffix_eq, List.length_append, List.length_append]
  omega

theorem isName_append_trackSuffix (h : '/' ∉ name) (index : Nat) :
    IsName (name ++ trackSuffix index) := by
  have hlength : 10 < (name ++ trackSuffix index).length := by
    have := length_trackSuffix index
    rw [List.length_append]
    omega
  refine ⟨fun hmem => ?_, fun he => ?_, fun he => ?_, fun he => ?_⟩
  · rcases List.mem_append.mp hmem with hmem | hmem
    · exact h hmem
    · exact not_mem_trackSuffix index hmem
  all_goals
    rw [he] at hlength
    contradiction

/-- An output is not called like its input: where the extension of the input begins with a point,
the output goes on with `_`, and if the input is called `..x`, there is no point in the `x`. -/
theorem cutName_append_ne (name : List Char) (index : Nat) :
    cutName name ++ trackSuffix index ≠ name := by
  intro he
  unfold cutName at he
  split at he
  · have hlength := congrArg List.length he
    have := length_trackSuffix index
    rw [List.length_append] at hlength
    omega
  · rename_i stem hstem
    obtain ⟨-, ext, hext, hname⟩ := stem?_eq_some hstem
    split at he
    · rename_i hpoint
      rw [hname, hpoint] at he
      have hsuffix : trackSuffix index = ext := (List.append_right_inj ['.', '.']).mp he
      have hmem : '.' ∈ trackSuffix index := by
        rw [trackSuffix_eq]
        exact List.mem_append_right _ (by decide)
      exact hext (hsuffix ▸ hmem)
    · have hsuffix : trackSuffix index = '.' :: ext :=
        List.append_cancel_left (he.trans hname)
      rw [trackSuffix_eq] at hsuffix
      cases hsuffix

end Path

/-! ## Places in one directory -/

namespace FileTree

variable {tree : FileTree} {path : Path} {place other folder origin : Place} {a b : List Char}
  {content : Content} {bytes : List UInt8}

/-- The directory that a path leads through to its last name. -/
def folderOf (tree : FileTree) (path : Path) : Except FileError Place :=
  path.folderNames.foldlM tree.follow (if path.isAbsolute then [] else tree.current)

theorem start_eq_ok (h : tree.start path = .ok origin) :
    origin = if path.isAbsolute then [] else tree.current := by
  unfold start at h
  split at h
  · contradiction
  · split at h
    · contradiction
    · exact (Except.ok.inj h).symm

theorem resolve_of_start {cause : FileError} (hpath : path.spelling ≠ "")
    (h : tree.start path = .error cause) : tree.resolve path = .error cause := by
  rw [resolve, if_neg hpath, h]
  rfl

/-- A path with another last name leads through the same directory. -/
theorem resolve_sibling (ha : '/' ∉ a) (hpath : (path.sibling a).spelling ≠ "")
    (horigin : tree.start (path.sibling a) = .ok origin) :
    tree.resolve (path.sibling a) =
      tree.folderOf path >>= fun folder => tree.follow folder (String.ofList a) := by
  have hstart := start_eq_ok horigin
  rw [Path.isAbsolute_sibling ha] at hstart
  rw [resolve, if_neg hpath, horigin, Path.names_sibling ha, hstart]
  show List.foldlM _ _ _ = _
  rw [List.foldlM_append]
  simp only [List.foldlM_cons, List.foldlM_nil, bind_pure]
  rfl

/-- A name of something in a directory leads to it. -/
theorem follow_eq_ok_of_isName (h : Path.IsName a)
    (hfollow : tree.follow folder (String.ofList a) = .ok place) :
    place = folder ++ [String.ofList a] := by
  rw [follow, directory_of_follow hfollow] at hfollow
  dsimp only at hfollow
  have hidle : ¬ (String.ofList a = "" ∨ String.ofList a = ".") := by
    rintro (he | he)
    · exact h.ne_nil (String.ofList_injective he)
    · exact h.ne_self (String.ofList_injective he)
  have hup : String.ofList a ≠ ".." := fun he => h.ne_parent (String.ofList_injective he)
  rw [if_neg hidle, if_neg hup] at hfollow
  split at hfollow
  · contradiction
  · exact (Except.ok.inj hfollow).symm

theorem spelling_sibling_ne (h : a ≠ []) : (path.sibling a).spelling ≠ "" := by
  intro he
  have hlist := congrArg String.toList he
  rw [Path.sibling, String.toList_ofList] at hlist
  exact h (List.append_eq_nil_iff.mp hlist).2

theorem resolve_sibling_eq_ok (h : Path.IsName a)
    (hpath : tree.resolve (path.sibling a) = .ok place) :
    ∃ folder, tree.folderOf path = .ok folder ∧ tree.content? folder = some .directory ∧
      place = folder ++ [String.ofList a] := by
  have hspelling : (path.sibling a).spelling ≠ "" := spelling_sibling_ne h.ne_nil
  have horigin : ∃ origin, tree.start (path.sibling a) = .ok origin := by
    rw [resolve, if_neg hspelling] at hpath
    obtain ⟨origin, horigin, -⟩ := exists_ok_of_bind hpath
    exact ⟨origin, horigin⟩
  obtain ⟨origin, horigin⟩ := horigin
  rw [resolve_sibling h.noSlash hspelling horigin] at hpath
  obtain ⟨folder, hfolder, hfollow⟩ := exists_ok_of_bind hpath
  exact ⟨folder, hfolder, directory_of_follow hfollow, follow_eq_ok_of_isName h hfollow⟩

/-- Paths with different last names lead to different places. -/
theorem resolve_sibling_ne (ha : Path.IsName a) (hb : Path.IsName b) (hne : a ≠ b)
    (hpath : tree.resolve (path.sibling a) = .ok place)
    (hother : tree.resolve (path.sibling b) = .ok other) : place ≠ other := by
  rintro rfl
  obtain ⟨folder, hfolder, -, rfl⟩ := resolve_sibling_eq_ok ha hpath
  obtain ⟨folder', hfolder', -, hplace⟩ := resolve_sibling_eq_ok hb hother
  cases hfolder.symm.trans hfolder'
  exact hne (String.ofList_injective (List.singleton_inj.mp (List.append_cancel_left hplace)))

/-- Where something is put that is not in the way, paths into a directory lead to the same place or
fail as before. -/
theorem resolve_put_sibling (h : tree.content? place ≠ some .directory)
    (hfolder : tree.folderOf path = .ok folder)
    (hdirectory : tree.content? folder = some .directory) (hb : '/' ∉ b) :
    (tree.put place content).resolve (path.sibling b) = tree.resolve (path.sibling b) := by
  by_cases hspelling : (path.sibling b).spelling = ""
  · rw [resolve, resolve, if_pos hspelling, if_pos hspelling]
  · have hstart : (tree.put place content).start (path.sibling b) = tree.start (path.sibling b) :=
      rfl
    cases horigin : tree.start (path.sibling b) with
    | error cause =>
      exact (resolve_of_start hspelling (hstart.trans horigin)).trans
        (resolve_of_start hspelling horigin).symm
    | ok origin =>
      have hput : (tree.put place content).folderOf path = .ok folder :=
        foldlM_follow_put_of_ok h hfolder
      have hbefore := resolve_sibling hb hspelling horigin
      have hafter := resolve_sibling hb hspelling (hstart.trans horigin)
      rw [hfolder] at hbefore
      rw [hput] at hafter
      exact hafter.trans ((follow_put_of_directory h hdirectory _).trans hbefore.symm)

/-- **No interference.** After a file was written, other files in its directory can be written if
and only if they could before, and at the same places. -/
theorem target_put_sibling (ha : Path.IsName a) (hb : '/' ∉ b)
    (h : tree.target (path.sibling a) = .ok place) :
    (tree.put place (.file bytes)).target (path.sibling b) = tree.target (path.sibling b) := by
  obtain ⟨hpath, hplace⟩ := target_eq_ok.mp h
  obtain ⟨folder, hfolder, hdirectory, -⟩ := resolve_sibling_eq_ok ha hpath
  rw [target, target, resolve_put_sibling hplace hfolder hdirectory hb,
    funext (vacant_put hplace)]

end FileTree
end MidiChords

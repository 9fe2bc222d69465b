import MidiChords.Proofs.Timeline.Regrouping

/-! # The order of the notes in a chord

The notes are sorted stably, so that those with one rounded start stay in the order in which they
were given. The zeros are the exception: they are equal, and their notes make one chord, but `-0`
comes before `0` in the order of the sort, and so do its notes.

* `Timeline.notesAt`, `Timeline.negativeFirst`: the notes at a start, and those of `-0` among them
  brought to the front;
* `Timeline.pitches_of_mem_group`: the pitches of a chord by the notes that were given;
* `Timeline.keepsOrder_iff`: exactly when every chord keeps the order of its notes;
* `Timeline.not_keepsOrder_zeros`: two notes that are exchanged. -/

namespace MidiChords

/-! ## Stable sorting -/

section

variable {α : Type} {le : α → α → Bool} {p : α → Bool} {xs : List α}

/-- Elements that the order does not tell apart stay in their order. -/
theorem filter_mergeSort (htrans : ∀ a b c, le a b → le b c → le a c)
    (htotal : ∀ a b, le a b || le b a) (h : ∀ a b, p a → p b → le a b) :
    (xs.mergeSort le).filter p = xs.filter p := by
  have hordered : (xs.filter p).Pairwise fun a b => le a b :=
    List.pairwise_of_forall_mem_list fun a ha b hb =>
      h a b (List.mem_filter.mp ha).2 (List.mem_filter.mp hb).2
  have hsub : (xs.filter p).Sublist (xs.mergeSort le) :=
    List.sublist_mergeSort htrans htotal hordered List.filter_sublist
  have hkept := hsub.filter p
  simp only [List.filter_filter, Bool.and_self] at hkept
  exact (hkept.eq_of_length ((List.mergeSort_perm xs le).filter p).length_eq.symm).symm

/-- A list that has the elements of one kind in front. -/
theorem filter_append_filter_of_pairwise (h : xs.Pairwise fun a b => p b → p a) :
    xs.filter p ++ xs.filter (fun a => !p a) = xs := by
  induction h with
  | nil => rfl
  | @cons a xs ha _ ih =>
    by_cases hp : p a
    · simp [hp, ih]
    · have hnone : ∀ b ∈ xs, ¬ p b := fun b hb hb' => hp (ha b hb hb')
      have hempty : xs.filter p = [] := List.filter_eq_nil_iff.mpr hnone
      have hall : xs.filter (fun a => !p a) = xs :=
        List.filter_eq_self.mpr fun b hb => by simpa using hnone b hb
      simp [hp, hempty, hall]

end

namespace Binary64

variable {x y : Binary64}

theorem eq_comm (x y : Binary64) : x.eq y = y.eq x :=
  Bool.eq_iff_iff.mpr ⟨eq_symm, eq_symm⟩

theorem isNegative_iff (h : x ≠ nan) : x.isNegative ↔ x.totalRank < 0 := by
  match x with
  | finite false rank | finite true rank =>
    simp only [isNegative, totalRank, Bool.false_eq_true, true_iff, false_iff]
    omega
  | infinite false | infinite true => simp [isNegative, totalRank]
  | nan => exact absurd rfl h

/-- Equal numbers are in their total order, unless they are the zeros in the other one. -/
theorem totalLE_of_eq (h : x.eq y) (hsign : y.isNegative → x.isNegative) : x.totalLE y := by
  obtain ⟨hx, hy, hrank⟩ := eq_iff.mp h
  rw [isNegative_iff hx, isNegative_iff hy] at hsign
  rw [totalLE_iff]
  unfold rankOfPlace at hrank
  omega

/-- The total order tells numbers apart that are not equal. -/
theorem eq_of_totalLE (hy : y ≠ nan) (hle : x.totalLE y) (hge : y.totalLE x) : x.eq y := by
  have hrank := Int.le_antisymm (totalLE_iff.mp hle) (totalLE_iff.mp hge)
  have hx : x ≠ nan := ne_nan_iff.mpr (hrank ▸ ne_nan_iff.mp hy)
  exact eq_iff.mpr ⟨hx, hy, congrArg rankOfPlace hrank⟩

/-- Only the zeros are equal and of both signs. -/
theorem isNegative_of_eq (h : x.eq y) (hzero : x.eq (zero false) = false) (hy : y.isNegative) :
    x.isNegative := by
  obtain ⟨hx, hy', hrank⟩ := eq_iff.mp h
  rw [isNegative_iff hy'] at hy
  rw [isNegative_iff hx]
  have hplace : rankOfPlace (zero false).totalRank = 0 := by decide
  have hne : rankOfPlace x.totalRank ≠ 0 := fun he => by
    rw [eq_iff.mpr ⟨hx, Binary64.noConfusion, he.trans hplace.symm⟩] at hzero
    contradiction
  unfold rankOfPlace at hrank hne
  omega

theorem isNegative_of_totalLE (h : x.eq y) (hle : x.totalLE y) (hy : y.isNegative) :
    x.isNegative := by
  obtain ⟨hx, hy', -⟩ := eq_iff.mp h
  rw [isNegative_iff hy'] at hy
  rw [isNegative_iff hx]
  have := totalLE_iff.mp hle
  omega

end Binary64

namespace Timeline

variable {decimals : Nat} {start : Binary64} {notes : List Note}

/-! ## The notes at a start -/

/-- The notes whose rounded starts equal a start, in the order in which they are given. -/
def notesAt (decimals : Nat) (start : Binary64) (notes : List Note) : List Note :=
  notes.filter fun note => (roundedStart decimals note).eq start

/-- The notes whose rounded starts have a minus sign, and after them the others. -/
def negativeFirst (decimals : Nat) (notes : List Note) : List Note :=
  notes.filter (fun note => (roundedStart decimals note).isNegative) ++
    notes.filter fun note => !(roundedStart decimals note).isNegative

theorem noteLE_trans (decimals : Nat) (a b c : Note) (hab : noteLE decimals a b)
    (hbc : noteLE decimals b c) : noteLE decimals a c :=
  Binary64.totalLE_trans _ _ _ hab hbc

theorem noteLE_total (decimals : Nat) (a b : Note) : noteLE decimals a b || noteLE decimals b a :=
  Binary64.totalLE_total _ _

/-- Sorting keeps the order of the notes at a start with one sign. -/
theorem filter_notesAt_mergeSort (negative : Bool) :
    (notesAt decimals start (notes.mergeSort (noteLE decimals))).filter
        (fun note => (roundedStart decimals note).isNegative == negative) =
      (notesAt decimals start notes).filter
        fun note => (roundedStart decimals note).isNegative == negative := by
  simp only [notesAt, List.filter_filter]
  refine filter_mergeSort (noteLE_trans decimals) (noteLE_total decimals) fun a b ha hb => ?_
  rw [Bool.and_eq_true, beq_iff_eq] at ha hb
  exact Binary64.totalLE_of_eq (Binary64.eq_trans ha.2 (Binary64.eq_symm hb.2))
    fun h => ha.1.trans (hb.1.symm.trans h)

theorem notesAt_mergeSort : notesAt decimals start (notes.mergeSort (noteLE decimals)) =
    negativeFirst decimals (notesAt decimals start notes) := by
  have hsorted := (List.pairwise_mergeSort (noteLE_trans decimals) (noteLE_total decimals)
    notes).filter fun note => (roundedStart decimals note).eq start
  have hfront : (notesAt decimals start (notes.mergeSort (noteLE decimals))).Pairwise fun a b =>
      (roundedStart decimals b).isNegative → (roundedStart decimals a).isNegative := by
    refine hsorted.imp_of_mem fun {a b} ha hb hle => ?_
    have heq := Binary64.eq_trans (List.mem_filter.mp ha).2
      (Binary64.eq_symm (List.mem_filter.mp hb).2)
    exact Binary64.isNegative_of_totalLE heq hle
  have htrue := @filter_notesAt_mergeSort decimals start notes true
  have hfalse := @filter_notesAt_mergeSort decimals start notes false
  simp only [beq_true, beq_false] at htrue hfalse
  rw [← filter_append_filter_of_pairwise hfront, htrue, hfalse, negativeFirst]

/-! ## The pitches of the chords -/

theorem notesAt_append (part others : List Note) : notesAt decimals start (part ++ others) =
    notesAt decimals start part ++ notesAt decimals start others := List.filter_append ..

theorem Collects.eq_start {chord : Event} {part : List Note} (h : Collects decimals chord part)
    (htimed : chord.start ≠ .nan) : ∀ note ∈ part, (roundedStart decimals note).eq chord.start :=
  h.starts.resolve_right fun hnan => htimed hnan.1

/-- No note of a part is at the start of another chord. -/
theorem notesAt_eq_nil {chord : Event} {part : List Note} (h : Collects decimals chord part)
    (htimed : chord.start ≠ .nan) (hne : chord.start.eq start = false) :
    notesAt decimals start part = [] := by
  refine List.filter_eq_nil_iff.mpr fun note hnote heq => ?_
  have hboth := Binary64.eq_trans (Binary64.eq_symm (h.eq_start htimed note hnote)) heq
  rw [hne] at hboth
  contradiction

theorem notesAt_flatten_eq_nil {chords : List Event} {parts : List (List Note)}
    (h : List.Forall₂ (Collects decimals) chords parts)
    (hchords : ∀ chord ∈ chords, chord.start ≠ .nan ∧ chord.start.eq start = false) :
    notesAt decimals start parts.flatten = [] := by
  induction h with
  | nil => rfl
  | cons hchord _ ih =>
    obtain ⟨⟨htimed, hne⟩, hrest⟩ := List.forall_mem_cons.mp hchords
    rw [List.flatten_cons, notesAt_append, notesAt_eq_nil hchord htimed hne, ih hrest]
    rfl

/-- The notes of a part are those at the start of its chord. -/
theorem pitches_of_mem_chords {chords : List Event} {parts : List (List Note)}
    (h : List.Forall₂ (Collects decimals) chords parts) (hordered : chords.Pairwise Event.Before)
    (htimed : ∀ chord ∈ chords, chord.start ≠ .nan) :
    ∀ chord ∈ chords,
      chord.pitches = (notesAt decimals chord.start parts.flatten).map (·.pitch) := by
  induction h with
  | nil => exact fun _ hchord => absurd hchord List.not_mem_nil
  | @cons first part chords parts hfirst hparts ih =>
    obtain ⟨hbefore, hordered⟩ := List.pairwise_cons.mp hordered
    obtain ⟨hfirstTimed, htimed⟩ := List.forall_mem_cons.mp htimed
    intro chord hchord
    rw [List.flatten_cons, notesAt_append]
    cases hchord with
    | head =>
      have hpart : notesAt decimals first.start part = part :=
        List.filter_eq_self.mpr (hfirst.eq_start hfirstTimed)
      have hothers : notesAt decimals first.start parts.flatten = [] :=
        notesAt_flatten_eq_nil hparts fun other hother =>
          ⟨htimed other hother, (Binary64.eq_comm _ _).trans (hbefore other hother).eq_false⟩
      rw [hpart, hothers, List.append_nil, hfirst.pitches]
    | tail _ hchord =>
      rw [notesAt_eq_nil hfirst hfirstTimed (hbefore chord hchord).eq_false, List.nil_append]
      exact ih hordered htimed chord hchord

theorem start_ne_nan_of_mem_group {options : Options} {chord : Event}
    (hnotes : ∀ note ∈ notes, note.start ≠ .nan) (h : chord ∈ group options notes) :
    chord.start ≠ .nan :=
  (settled_of_mem_group hnotes chord h).timed

/-- The pitches of a chord are those of the notes at its start, and of these the ones that are
rounded to a negative zero come first. -/
theorem pitches_of_mem_group {options : Options} {chord : Event}
    (hnotes : ∀ note ∈ notes, note.start ≠ .nan) (h : chord ∈ group options notes) :
    chord.pitches = (negativeFirst options.decimals
      (notesAt options.decimals chord.start notes)).map (·.pitch) := by
  obtain ⟨parts, hflatten, hchords⟩ :=
    @merge_parts options.decimals (notes.mergeSort (noteLE options.decimals))
  rw [← sortedNotes_eq_map, ← group] at hchords
  rw [← notesAt_mergeSort, ← hflatten]
  exact pitches_of_mem_chords (hchords.imp fun _ _ => IsChordOf.collects)
    (pairwise_before_group hnotes) (fun _ => start_ne_nan_of_mem_group hnotes) chord h

/-- Each chord has the names of the notes at its start, in the order in which they are given. -/
def KeepsOrder (options : Options) (notes : List Note) : Prop :=
  ∀ chord ∈ group options notes,
    chord.pitches = (notesAt options.decimals chord.start notes).map (·.pitch)

theorem notesAt_congr {other : Binary64} (h : start.eq other) :
    notesAt decimals start notes = notesAt decimals other notes := by
  refine List.filter_congr fun note _ => Bool.eq_iff_iff.mpr ⟨fun heq => ?_, fun heq => ?_⟩
  · exact Binary64.eq_trans heq h
  · exact Binary64.eq_trans heq (Binary64.eq_symm h)

/-- Only at zero are there numbers of both signs. -/
theorem negativeFirst_notesAt (h : start.eq (.zero false) = false) :
    negativeFirst decimals (notesAt decimals start notes) = notesAt decimals start notes := by
  refine filter_append_filter_of_pairwise (List.pairwise_of_forall_mem_list fun a ha b hb => ?_)
  have ha := (List.mem_filter.mp ha).2
  have hb := (List.mem_filter.mp hb).2
  have hzero : (roundedStart decimals a).eq (.zero false) = false := by
    rw [Bool.eq_false_iff]
    intro heq
    rw [Binary64.eq_trans (Binary64.eq_symm ha) heq] at h
    contradiction
  exact Binary64.isNegative_of_eq (Binary64.eq_trans ha (Binary64.eq_symm hb)) hzero

/-- **A chord keeps the order of its notes**, except that those of a negative zero come first. So
all chords do exactly if that changes nothing at zero. -/
theorem keepsOrder_iff {options : Options} (hnotes : ∀ note ∈ notes, note.start ≠ .nan) :
    (∀ chord ∈ group options notes, chord.pitches = (negativeFirst options.decimals
      (notesAt options.decimals chord.start notes)).map (·.pitch)) ∧
    (KeepsOrder options notes ↔
      (negativeFirst options.decimals (notesAt options.decimals (.zero false) notes)).map
        (·.pitch) = (notesAt options.decimals (.zero false) notes).map (·.pitch)) := by
  have hpitches : ∀ chord ∈ group options notes, _ := fun chord hchord =>
    pitches_of_mem_group hnotes hchord
  refine ⟨hpitches, fun hkeeps => ?_, fun hzero chord hchord => ?_⟩
  · by_cases hnone : notesAt options.decimals (.zero false) notes = []
    · rw [hnone]
      rfl
    · obtain ⟨note, hnote⟩ := List.exists_mem_of_ne_nil _ hnone
      obtain ⟨hmem, heq⟩ := List.mem_filter.mp hnote
      have hcount := (group_partitions options notes).unique (.zero false)
      rw [if_pos ⟨note, hmem, heq⟩] at hcount
      obtain ⟨chord, hchord, hstart⟩ := List.countP_pos_iff.mp (hcount ▸ Nat.one_pos)
      rw [← notesAt_congr hstart, ← hpitches chord hchord, hkeeps chord hchord]
  · rw [hpitches chord hchord]
    by_cases hstart : chord.start.eq (.zero false)
    · rw [notesAt_congr hstart, hzero]
    · rw [negativeFirst_notesAt (Bool.eq_false_iff.mpr hstart)]

/-- Notes of both zeros that are given in the order of the sort. -/
theorem keepsOrder_zeros :
    let notes : List Note := [⟨"E4", .zero true, .ofNat 1⟩, ⟨"C4", .zero false, .ofNat 1⟩]
    (∀ note ∈ notes, note.start ≠ .nan) ∧ KeepsOrder {} notes := by
  intro notes
  have hnotes : ∀ note ∈ notes, note.start ≠ .nan := by decide +kernel
  exact ⟨hnotes, (keepsOrder_iff hnotes).2.mpr (by decide +kernel)⟩

/-- A note at zero and then one at negative zero: they make one chord, in which the second note
comes first. -/
theorem not_keepsOrder_zeros :
    let notes : List Note := [⟨"C4", .zero false, .ofNat 1⟩, ⟨"E4", .zero true, .ofNat 1⟩]
    (∀ note ∈ notes, note.start ≠ .nan) ∧
      group {} notes = [⟨.zero true, ["E4", "C4"], .ofNat 1⟩] ∧
      (notesAt ({} : Options).decimals (.zero true) notes).map (·.pitch) = ["C4", "E4"] ∧
      ¬ KeepsOrder {} notes := by
  intro notes
  have hsorted : notes.mergeSort (noteLE ({} : Options).decimals) = notes.reverse := by
    have hle : noteLE 6 ⟨"C4", .zero false, .ofNat 1⟩ ⟨"E4", .zero true, .ofNat 1⟩ = false := by
      decide +kernel
    simp [notes, List.mergeSort, hle]
  have hgroup : group {} notes = [⟨.zero true, ["E4", "C4"], .ofNat 1⟩] := by
    rw [group, sortedNotes_eq_map, hsorted]
    decide +kernel
  have hgiven : (notesAt ({} : Options).decimals (.zero true) notes).map (·.pitch) =
      ["C4", "E4"] := by
    decide +kernel
  refine ⟨by decide +kernel, hgroup, hgiven, fun hkeeps => ?_⟩
  have hpitches := hkeeps _ (hgroup ▸ List.mem_singleton_self _)
  dsimp only at hpitches
  rw [hgiven] at hpitches
  exact absurd hpitches (by decide)

end Timeline
end MidiChords

import MidiChords.Proofs.Timeline.SourceOrder
import MidiChords.Timeline.Line

/-! # The order of notes that start apart

A stable sort forgets the order in which elements were given, except among those that it does not
tell apart. So notes may be given in any order that leaves the notes of each chord in theirs: what
the pass reads is the same list. At zero this is more than is needed, since the notes of the two
zeros are told apart by the sort, although they make one chord.

* `eq_of_perm_of_filter_eq`: lists in order with the same elements in each place;
* `mergeSort_congr_of_perm`: lists that are sorted alike;
* `Timeline.Rearranges`: orders of notes that leave each chord in its order;
* `Timeline.build_rearranged`: their timelines. -/

namespace MidiChords

/-! ## Sorting in two orders -/

section

variable {α : Type} {le : α → α → Bool} {xs ys : List α}

/-- Of two lists in order the heads are not told apart, and so they are the first of the same
elements. -/
theorem eq_of_perm_of_filter_eq (hrefl : ∀ a, le a a) (hperm : xs.Perm ys)
    (hxs : xs.Pairwise fun a b => le a b) (hys : ys.Pairwise fun a b => le a b)
    (h : ∀ a ∈ xs, xs.filter (fun b => le a b && le b a) = ys.filter fun b => le a b && le b a) :
    xs = ys := by
  induction xs generalizing ys with
  | nil => exact hperm.nil_eq
  | cons x xs ih =>
    cases ys with
    | nil => exact hperm.eq_nil
    | cons y ys =>
      obtain ⟨hx, hxsTail⟩ := List.pairwise_cons.mp hxs
      obtain ⟨hy, hysTail⟩ := List.pairwise_cons.mp hys
      have hxy : le x y := by
        cases hperm.mem_iff.mpr List.mem_cons_self with
        | head => exact hrefl x
        | tail _ hmem => exact hx y hmem
      have hyx : le y x := by
        cases hperm.mem_iff.mp List.mem_cons_self with
        | head => exact hrefl x
        | tail _ hmem => exact hy x hmem
      have hheads := h x List.mem_cons_self
      rw [List.filter_cons_of_pos (by rw [hrefl]; rfl), List.filter_cons_of_pos
        (by rw [hxy, hyx]; rfl)] at hheads
      obtain ⟨rfl, -⟩ := List.cons.inj hheads
      refine congrArg (x :: ·) (ih hperm.cons_inv hxsTail hysTail fun a ha => ?_)
      have hfilters := h a (List.mem_cons_of_mem x ha)
      rw [List.filter_cons, List.filter_cons] at hfilters
      split at hfilters
      · exact (List.cons.inj hfilters).2
      · exact hfilters

theorem mergeSort_congr_of_perm (htrans : ∀ a b c, le a b → le b c → le a c)
    (htotal : ∀ a b, le a b || le b a) (hperm : xs.Perm ys)
    (h : ∀ a ∈ xs, xs.filter (fun b => le a b && le b a) = ys.filter fun b => le a b && le b a) :
    xs.mergeSort le = ys.mergeSort le := by
  have hrefl : ∀ a, le a a := fun a => by
    have hself := htotal a a
    rwa [Bool.or_self] at hself
  have hsame : ∀ a b c, le a b && le b a → le a c && le c a → le b c := fun a b c hab hac =>
    htrans b a c (Bool.and_eq_true_iff.mp hab).2 (Bool.and_eq_true_iff.mp hac).1
  refine eq_of_perm_of_filter_eq hrefl
    ((List.mergeSort_perm xs le).trans (hperm.trans (List.mergeSort_perm ys le).symm))
    (List.pairwise_mergeSort htrans htotal xs) (List.pairwise_mergeSort htrans htotal ys) ?_
  intro a ha
  rw [filter_mergeSort htrans htotal (hsame a), filter_mergeSort htrans htotal (hsame a),
    h a (List.mem_mergeSort.mp ha)]

end

namespace Timeline

variable {decimals : Nat} {notes notes' : List Note}

/-! ## Rearranged notes -/

/-- The same notes in another order, in which those that have equal rounded starts follow each other
as before. -/
structure Rearranges (decimals : Nat) (notes notes' : List Note) : Prop where
  perm : notes.Perm notes'
  notesAt_eq : ∀ start, notesAt decimals start notes = notesAt decimals start notes'

theorem rearranges_iff : Rearranges decimals notes notes' ↔ notes.Perm notes' ∧
    ∀ note ∈ notes, notesAt decimals (roundedStart decimals note) notes =
      notesAt decimals (roundedStart decimals note) notes' := by
  refine ⟨fun h => ⟨h.perm, fun note _ => h.notesAt_eq _⟩, fun ⟨hperm, h⟩ => ⟨hperm, ?_⟩⟩
  intro start
  by_cases hsome : ∃ note ∈ notes, (roundedStart decimals note).eq start
  · obtain ⟨note, hnote, hstart⟩ := hsome
    rw [← notesAt_congr hstart, ← notesAt_congr hstart]
    exact h note hnote
  · have hnone : ∀ note ∈ notes, ¬ (roundedStart decimals note).eq start :=
      fun note hnote hstart => hsome ⟨note, hnote, hstart⟩
    have hnone' : ∀ note ∈ notes', ¬ (roundedStart decimals note).eq start :=
      fun note hnote => hnone note (hperm.mem_iff.mpr hnote)
    rw [notesAt, notesAt, List.filter_eq_nil_iff.mpr hnone, List.filter_eq_nil_iff.mpr hnone']

instance : Decidable (Rearranges decimals notes notes') := decidable_of_iff _ rearranges_iff.symm

/-- Notes that the sort does not tell apart have equal rounded starts. -/
theorem filter_noteLE_eq (note : Note) (hnote : roundedStart decimals note ≠ .nan) :
    notes.filter (fun other => noteLE decimals note other && noteLE decimals other note) =
      (notesAt decimals (roundedStart decimals note) notes).filter
        fun other => noteLE decimals note other && noteLE decimals other note := by
  rw [notesAt, List.filter_filter]
  refine List.filter_congr fun other _ => ?_
  by_cases h : noteLE decimals note other && noteLE decimals other note
  · obtain ⟨hle, hge⟩ := Bool.and_eq_true_iff.mp h
    rw [h, Binary64.eq_of_totalLE hnote hge hle, Bool.and_self]
  · rw [Bool.eq_false_iff.mpr h, Bool.false_and]

/-- Notes in two orders are sorted alike if each chord keeps its order. -/
theorem Rearranges.mergeSort_eq (h : Rearranges decimals notes notes')
    (hnotes : ∀ note ∈ notes, note.start ≠ .nan) :
    notes.mergeSort (noteLE decimals) = notes'.mergeSort (noteLE decimals) := by
  refine mergeSort_congr_of_perm (noteLE_trans decimals) (noteLE_total decimals) h.perm ?_
  intro note hnote
  have htimed := Binary64.roundTo_ne_nan decimals (hnotes note hnote)
  rw [filter_noteLE_eq note htimed, h.notesAt_eq, ← filter_noteLE_eq note htimed]

/-- **The order of unrelated notes does not matter**: notes with rounded starts that differ may be
exchanged, and the chords, the timeline and its text stay as they are. -/
theorem build_rearranged {options : Options} (hnotes : ∀ note ∈ notes, note.start ≠ .nan)
    (h : Rearranges options.decimals notes notes') :
    group options notes = group options notes' ∧ build options notes = build options notes' ∧
      render options (build options notes) = render options (build options notes') := by
  have hgroup : group options notes = group options notes' := by
    rw [group, group, sortedNotes_eq_map, sortedNotes_eq_map, h.mergeSort_eq hnotes]
  have hbuild : build options notes = build options notes' := by rw [build, build, hgroup]
  exact ⟨hgroup, hbuild, by rw [hbuild]⟩

/-- The notes of one chord move past those of another, which begins at both zeros. -/
theorem build_rearranged_zeros :
    let notes : List Note := [⟨"E4", .ofNat 1, .ofNat 2⟩, ⟨"C4", .zero false, .ofNat 1⟩,
      ⟨"D4", .zero true, .ofNat 2⟩, ⟨"G4", .ofNat 1, .ofNat 3⟩]
    let notes' : List Note := [⟨"C4", .zero false, .ofNat 1⟩, ⟨"E4", .ofNat 1, .ofNat 2⟩,
      ⟨"G4", .ofNat 1, .ofNat 3⟩, ⟨"D4", .zero true, .ofNat 2⟩]
    (∀ note ∈ notes, note.start ≠ .nan) ∧ Rearranges ({} : Options).decimals notes notes' ∧
      group {} notes = group {} notes' ∧ build {} notes = build {} notes' ∧
      render {} (build {} notes) = render {} (build {} notes') := by
  intro notes notes'
  have hnotes : ∀ note ∈ notes, note.start ≠ .nan := by decide +kernel
  have hrearranged : Rearranges ({} : Options).decimals notes notes' := by decide +kernel
  exact ⟨hnotes, hrearranged, @build_rearranged notes notes' {} hnotes hrearranged⟩

end Timeline
end MidiChords

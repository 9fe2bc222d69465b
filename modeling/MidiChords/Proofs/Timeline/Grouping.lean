import Mathlib.Data.List.Forall2
import MidiChords.Proofs.Binary64.Order
import MidiChords.Timeline.Grouping

/-! # Chords partition the notes

The pass over the sorted notes cuts them into parts, one for each chord: what it has read so far is
the parts of the chords it has closed and the part of the open one. A part is closed at a note that
comes later in the total order and does not equal its start, so every further start is greater or
NaN.

* `Timeline.merge_of_eq`: notes at one start make one chord;
* `Timeline.IsChordOf`: the notes that the pass has put into a chord;
* `Timeline.merge_parts`, `Timeline.pairwise_merge`: the parts of a pass and the order of its
  chords;
* `Timeline.group_partitions`: the notes, parted into chords. -/

namespace MidiChords
namespace Timeline

variable {decimals : Nat}

def roundedStart (decimals : Nat) (note : Note) : Binary64 := note.start.roundTo decimals

/-! ## Parts -/

/-- The open chord of a first note and the notes that were added to it. -/
def OpenChord.ofPart (decimals : Nat) (first : Note) (rest : List Note) : OpenChord where
  start := roundedStart decimals first
  pitches := (first :: rest).map (·.pitch)
  durations := (first :: rest).map fun note => (RoundedNote.ofNote decimals note).duration

theorem OpenChord.add_ofPart (first : Note) (rest : List Note) (note : Note) :
    (ofPart decimals first rest).add (.ofNote decimals note) =
      ofPart decimals first (rest ++ [note]) := by
  simp [ofPart, add, RoundedNote.ofNote]

theorem OpenChord.foldl_add (chord : OpenChord) (notes : List RoundedNote) :
    notes.foldl add chord = ⟨chord.start, chord.pitches ++ notes.map (·.pitch),
      chord.durations ++ notes.map (·.duration)⟩ := by
  induction notes generalizing chord with
  | nil => rw [List.foldl_nil, List.map_nil, List.map_nil, List.append_nil, List.append_nil]
  | cons note notes ih =>
    rw [List.foldl_cons, ih, add, List.map_cons, List.map_cons, List.append_assoc,
      List.append_assoc, List.singleton_append, List.singleton_append]

/-- Notes at the start of the open chord are added to it. -/
theorem mergeFrom_foldl_add {chord : OpenChord} {part : List RoundedNote}
    (h : ∀ note ∈ part, chord.start.eq note.start) (notes : List RoundedNote) :
    mergeFrom chord (part ++ notes) = mergeFrom (part.foldl OpenChord.add chord) notes := by
  induction part generalizing chord with
  | nil => rfl
  | cons note part ih =>
    obtain ⟨heq, hpart⟩ := List.forall_mem_cons.mp h
    rw [List.cons_append, mergeFrom, if_pos heq]
    exact ih hpart

/-- Notes at one start make one chord. -/
theorem merge_of_eq {first : RoundedNote} {rest : List RoundedNote}
    (h : ∀ note ∈ rest, first.start.eq note.start) :
    merge (first :: rest) = [OpenChord.close ⟨first.start, (first :: rest).map (·.pitch),
      (first :: rest).map (·.duration)⟩] := by
  have hmerge := @mergeFrom_foldl_add (.ofNote first) rest h []
  rw [List.append_nil, OpenChord.foldl_add] at hmerge
  exact hmerge

/-- The chord is what the pass closes after it has read the part. -/
def IsChordOf (decimals : Nat) (chord : Event) (part : List Note) : Prop :=
  ∃ first rest, part = first :: rest ∧
    (∀ note ∈ rest, (roundedStart decimals first).eq (roundedStart decimals note)) ∧
    chord = (OpenChord.ofPart decimals first rest).close

/-- The invariant of the pass: an open chord, together with the part that it was made of, and the
notes still to come. -/
theorem mergeFrom_parts (first : Note) (rest notes : List Note)
    (h : ∀ note ∈ rest, (roundedStart decimals first).eq (roundedStart decimals note)) :
    ∃ parts, parts.flatten = first :: rest ++ notes ∧
      List.Forall₂ (IsChordOf decimals)
        (mergeFrom (.ofPart decimals first rest) (notes.map (.ofNote decimals))) parts := by
  induction notes generalizing first rest with
  | nil =>
    refine ⟨[first :: rest], by simp, ?_⟩
    exact .cons ⟨first, rest, rfl, h, rfl⟩ .nil
  | cons note notes ih =>
    rw [List.map_cons, mergeFrom]
    split
    · rename_i heq
      have hrest : ∀ n ∈ rest ++ [note],
          (roundedStart decimals first).eq (roundedStart decimals n) := by
        intro n hn
        cases List.mem_append.mp hn with
        | inl hn => exact h n hn
        | inr hn => exact List.mem_singleton.mp hn ▸ heq
      obtain ⟨parts, hflatten, hparts⟩ := ih first (rest ++ [note]) hrest
      refine ⟨parts, by rw [hflatten]; simp, ?_⟩
      rw [OpenChord.add_ofPart]
      exact hparts
    · obtain ⟨parts, hflatten, hparts⟩ := ih note [] (fun _ hn => absurd hn List.not_mem_nil)
      refine ⟨(first :: rest) :: parts, by rw [List.flatten_cons, hflatten]; rfl, ?_⟩
      exact .cons ⟨first, rest, rfl, h, rfl⟩ hparts

theorem merge_parts (notes : List Note) :
    ∃ parts, parts.flatten = notes ∧
      List.Forall₂ (IsChordOf decimals) (merge (notes.map (.ofNote decimals))) parts := by
  cases notes with
  | nil => exact ⟨[], rfl, .nil⟩
  | cons note notes =>
    exact mergeFrom_parts note [] notes (fun _ hn => absurd hn List.not_mem_nil)

/-! ## The order of the chords -/

theorem start_of_mem_mergeFrom {chord : OpenChord} {notes : List RoundedNote} {event : Event}
    (h : event ∈ mergeFrom chord notes) :
    event.start = chord.start ∨ ∃ note ∈ notes, event.start = note.start := by
  induction notes generalizing chord with
  | nil =>
    rw [mergeFrom, List.mem_singleton] at h
    exact .inl (h ▸ rfl)
  | cons note notes ih =>
    rw [mergeFrom] at h
    split at h
    · cases ih h with
      | inl h => exact .inl h
      | inr h =>
        obtain ⟨n, hn, he⟩ := h
        exact .inr ⟨n, List.mem_cons_of_mem _ hn, he⟩
    · cases h with
      | head => exact .inl rfl
      | tail _ h =>
        cases ih h with
        | inl h => exact .inr ⟨note, List.mem_cons_self, h⟩
        | inr h =>
          obtain ⟨n, hn, he⟩ := h
          exact .inr ⟨n, List.mem_cons_of_mem _ hn, he⟩

theorem pairwise_mergeFrom {chord : OpenChord} {notes : List RoundedNote}
    (hsorted : notes.Pairwise fun a b => a.startLE b)
    (hle : ∀ note ∈ notes, chord.start.totalLE note.start) :
    (mergeFrom chord notes).Pairwise fun a b => a.start.Precedes b.start := by
  induction notes generalizing chord with
  | nil => exact List.pairwise_singleton ..
  | cons note notes ih =>
    obtain ⟨hnote, hnotes⟩ := List.pairwise_cons.mp hsorted
    rw [mergeFrom]
    split
    · exact ih hnotes (fun n hn => hle n (List.mem_cons_of_mem _ hn))
    · rename_i hne
      have hbefore : chord.start.Precedes note.start :=
        Binary64.precedes_of_totalLE (hle note List.mem_cons_self) (Bool.eq_false_iff.mpr hne)
      refine List.pairwise_cons.mpr ⟨?_, ih hnotes hnote⟩
      intro event hevent
      cases start_of_mem_mergeFrom hevent with
      | inl h => exact h ▸ hbefore
      | inr h =>
        obtain ⟨n, hn, he⟩ := h
        exact he ▸ hbefore.of_totalLE (hnote n hn)

theorem pairwise_merge {notes : List RoundedNote}
    (hsorted : notes.Pairwise fun a b => a.startLE b) :
    (merge notes).Pairwise fun a b => a.start.Precedes b.start := by
  cases notes with
  | nil => exact List.Pairwise.nil
  | cons note notes =>
    obtain ⟨hnote, hnotes⟩ := List.pairwise_cons.mp hsorted
    exact pairwise_mergeFrom hnotes hnote

/-- The order by rounded starts, before the notes are rounded. -/
def noteLE (decimals : Nat) (a b : Note) : Bool :=
  (roundedStart decimals a).totalLE (roundedStart decimals b)

theorem sortedNotes_eq_map (decimals : Nat) (notes : List Note) :
    sortedNotes decimals notes = (notes.mergeSort (noteLE decimals)).map (.ofNote decimals) := by
  rw [sortedNotes, List.map_mergeSort]
  intro a _ b _
  rfl

theorem pairwise_sortedNotes (decimals : Nat) (notes : List Note) :
    (sortedNotes decimals notes).Pairwise fun a b => a.startLE b := by
  apply List.pairwise_mergeSort
  · intro a b c
    exact Binary64.totalLE_trans _ _ _
  · intro a b
    exact Binary64.totalLE_total _ _

/-- Notes that are in order already are not moved. -/
theorem group_of_sorted {options : Options} {notes : List Note}
    (h : (notes.map (RoundedNote.ofNote options.decimals)).Pairwise fun a b => a.startLE b) :
    group options notes = merge (notes.map (.ofNote options.decimals)) := by
  rw [group, sortedNotes, List.mergeSort_of_pairwise h]

/-! ## The partition -/

/-- The chord has the pitches of the notes of the part, and its start equals each of their rounded
starts. A note without a time makes a chord without a time alone. -/
structure Collects (decimals : Nat) (chord : Event) (part : List Note) : Prop where
  pitches : chord.pitches = part.map (·.pitch)
  nonempty : part ≠ []
  starts : (∀ note ∈ part, (roundedStart decimals note).eq chord.start) ∨
    chord.start = .nan ∧ ∃ note, part = [note] ∧ roundedStart decimals note = .nan

theorem IsChordOf.collects {chord : Event} {part : List Note} (h : IsChordOf decimals chord part) :
    Collects decimals chord part := by
  obtain ⟨first, rest, rfl, hrest, rfl⟩ := h
  refine ⟨rfl, List.cons_ne_nil first rest, ?_⟩
  have hstart : (OpenChord.ofPart decimals first rest).close.start = roundedStart decimals first :=
    rfl
  rw [hstart]
  by_cases hnan : roundedStart decimals first = .nan
  · refine .inr ⟨hnan, first, ?_, hnan⟩
    cases rest with
    | nil => rfl
    | cons note notes =>
      have heq := hrest note List.mem_cons_self
      exact absurd hnan (Binary64.eq_iff.mp heq).1
  · refine .inl ?_
    intro note hnote
    cases hnote with
    | head => exact Binary64.eq_self_iff.mpr hnan
    | tail _ hnote => exact Binary64.eq_symm (hrest note hnote)

/-- The chords part the notes: strictly increasing chords, one for each start that the rounded notes
have, and after them the notes without a time. -/
structure Partitions (decimals : Nat) (notes : List Note) (chords : List Event) : Prop where
  parts : ∃ parts : List (List Note), parts.flatten.Perm notes ∧
    List.Forall₂ (Collects decimals) chords parts
  pitches : (chords.flatMap (·.pitches)).Perm (notes.map (·.pitch))
  nonempty : ∀ chord ∈ chords, chord.pitches ≠ []
  ordered : ∃ timed untimed, chords = timed ++ untimed ∧
    (timed.Pairwise fun a b => a.start.lt b.start) ∧
    (∀ chord ∈ timed, chord.start ≠ .nan) ∧ ∀ chord ∈ untimed, chord.start = .nan
  unique : ∀ start : Binary64, chords.countP (·.start.eq start) =
    if ∃ note ∈ notes, (roundedStart decimals note).eq start then 1 else 0

theorem flatMap_pitches_eq {chords : List Event} {parts : List (List Note)}
    (h : List.Forall₂ (Collects decimals) chords parts) :
    chords.flatMap (·.pitches) = parts.flatten.map (·.pitch) := by
  induction h with
  | nil => rfl
  | cons hchord _ ih =>
    rw [List.flatMap_cons, List.flatten_cons, List.map_append, hchord.pitches, ih]

theorem exists_of_mem_forall₂ {α β : Type} {R : α → β → Prop} {as : List α} {bs : List β} {a : α}
    (h : List.Forall₂ R as bs) (ha : a ∈ as) : ∃ b ∈ bs, R a b := by
  induction h with
  | nil => exact absurd ha List.not_mem_nil
  | cons hfirst _ ih =>
    cases ha with
    | head => exact ⟨_, List.mem_cons_self, hfirst⟩
    | tail _ ha =>
      obtain ⟨b, hb, hab⟩ := ih ha
      exact ⟨b, List.mem_cons_of_mem _ hb, hab⟩

theorem exists_timed_append {chords : List Event}
    (h : chords.Pairwise fun a b => a.start.Precedes b.start) :
    ∃ timed untimed, chords = timed ++ untimed ∧
      (timed.Pairwise fun a b => a.start.lt b.start) ∧
      (∀ chord ∈ timed, chord.start ≠ .nan) ∧ ∀ chord ∈ untimed, chord.start = .nan := by
  induction h with
  | nil => exact ⟨[], [], rfl, .nil, by simp, by simp⟩
  | @cons chord chords hchord _ ih =>
    by_cases hnan : chord.start = .nan
    · refine ⟨[], chord :: chords, rfl, .nil, by simp, ?_⟩
      intro c hc
      cases hc with
      | head => exact hnan
      | tail _ hc => exact (hnan ▸ hchord c hc).eq_nan
    · obtain ⟨timed, untimed, rfl, hlt, htimed, huntimed⟩ := ih
      have hbelow : ∀ c ∈ timed, chord.start.lt c.start := by
        intro c hc
        exact (hchord c (List.mem_append_left _ hc)).resolve_right (htimed c hc)
      exact ⟨chord :: timed, untimed, rfl, .cons hbelow hlt,
        List.forall_mem_cons.mpr ⟨hnan, htimed⟩, huntimed⟩

theorem countP_start_le_one {chords : List Event}
    (h : chords.Pairwise fun a b => a.start.Precedes b.start) (start : Binary64) :
    chords.countP (·.start.eq start) ≤ 1 := by
  induction h with
  | nil => exact Nat.zero_le 1
  | @cons chord chords hchord _ ih =>
    rw [List.countP_cons]
    split
    · rename_i heq
      have hzero : chords.countP (·.start.eq start) = 0 := by
        rw [List.countP_eq_zero]
        intro c hc
        exact (hchord c hc).not_eq heq
      omega
    · exact ih

theorem exists_start_eq_iff {notes : List Note} {chords : List Event} {parts : List (List Note)}
    (hnotes : parts.flatten.Perm notes) (hparts : List.Forall₂ (Collects decimals) chords parts)
    (start : Binary64) :
    (∃ chord ∈ chords, chord.start.eq start) ↔
      ∃ note ∈ notes, (roundedStart decimals note).eq start := by
  constructor
  · intro h
    obtain ⟨chord, hchord, heq⟩ := h
    obtain ⟨part, hpart, hcollects⟩ := exists_of_mem_forall₂ hparts hchord
    obtain ⟨note, hnote⟩ := List.exists_mem_of_ne_nil part hcollects.nonempty
    refine ⟨note, hnotes.mem_iff.mp (List.mem_flatten.mpr ⟨part, hpart, hnote⟩), ?_⟩
    cases hcollects.starts with
    | inl hstarts => exact Binary64.eq_trans (hstarts note hnote) heq
    | inr hnan => exact absurd hnan.1 (Binary64.eq_iff.mp heq).1
  · intro h
    obtain ⟨note, hnote, heq⟩ := h
    obtain ⟨part, hpart, hmem⟩ := List.mem_flatten.mp (hnotes.mem_iff.mpr hnote)
    obtain ⟨chord, hchord, hcollects⟩ := exists_of_mem_forall₂ hparts.flip hpart
    refine ⟨chord, hchord, ?_⟩
    cases hcollects.starts with
    | inl hstarts => exact Binary64.eq_trans (Binary64.eq_symm (hstarts note hmem)) heq
    | inr hnan =>
      obtain ⟨_, n, rfl, hn⟩ := hnan
      rw [List.mem_singleton.mp hmem] at heq
      exact absurd hn (Binary64.eq_iff.mp heq).1

theorem group_parts (options : Options) (notes : List Note) :
    ∃ parts, parts.flatten.Perm notes ∧
      List.Forall₂ (IsChordOf options.decimals) (group options notes) parts := by
  obtain ⟨parts, hflatten, hchords⟩ :=
    @merge_parts options.decimals (notes.mergeSort (noteLE options.decimals))
  rw [group, sortedNotes_eq_map]
  exact ⟨parts, hflatten ▸ List.mergeSort_perm _ _, hchords⟩

/-- The notes that a chord was made of are among those that were grouped. -/
theorem exists_part_of_mem_group {options : Options} {notes : List Note} {chord : Event}
    (h : chord ∈ group options notes) : ∃ part, (∀ note ∈ part, note ∈ notes) ∧
      part.length ≤ notes.length ∧ IsChordOf options.decimals chord part := by
  obtain ⟨parts, hperm, hchords⟩ := group_parts options notes
  obtain ⟨part, hpart, hof⟩ := exists_of_mem_forall₂ hchords h
  have hsub : part.Sublist parts.flatten := List.sublist_flatten_of_mem hpart
  exact ⟨part, fun note hnote => hperm.subset (hsub.subset hnote),
    hperm.length_eq ▸ hsub.length_le, hof⟩

theorem group_partitions (options : Options) (notes : List Note) :
    Partitions options.decimals notes (group options notes) := by
  obtain ⟨parts, hnotes, hchords⟩ := group_parts options notes
  have hparts : List.Forall₂ (Collects options.decimals) (group options notes) parts :=
    hchords.imp fun _ _ => IsChordOf.collects
  have hpairwise : (group options notes).Pairwise fun a b => a.start.Precedes b.start :=
    pairwise_merge (pairwise_sortedNotes options.decimals notes)
  refine ⟨⟨parts, hnotes, hparts⟩, ?_, ?_, exists_timed_append hpairwise, ?_⟩
  · rw [flatMap_pitches_eq hparts]
    exact hnotes.map _
  · intro chord hchord
    obtain ⟨part, _, hcollects⟩ := exists_of_mem_forall₂ hparts hchord
    rw [hcollects.pitches]
    exact fun h => hcollects.nonempty (List.map_eq_nil_iff.mp h)
  · intro start
    have hle := countP_start_le_one hpairwise start
    have hpos := exists_start_eq_iff hnotes hparts start
    rw [← List.countP_pos_iff] at hpos
    split
    · rename_i h
      have := hpos.mpr h
      omega
    · rename_i h
      have := mt hpos.mp h
      omega

end Timeline
end MidiChords

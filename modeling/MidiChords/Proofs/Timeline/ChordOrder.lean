import MidiChords.Proofs.Decimal.Order
import MidiChords.Proofs.Timeline.SourceOrder

/-! # Chords come in the order of their notes

The starts of notes are rounded before they are grouped, which never puts one behind another that it
was not behind already. So the notes of a chord start before the notes of every later chord.

* `Timeline.pairwise_parts`: the rounded starts of the notes of two chords;
* `Timeline.group_ordered`: of two notes, the one that starts no later is in the chord of the other
  or in an earlier one. -/

namespace MidiChords
namespace Timeline

variable {decimals : Nat} {chords : List Event} {parts : List (List Note)}

/-- The note is rounded to a start before that of the other. -/
def RoundsBefore (decimals : Nat) (a b : Note) : Prop :=
  (roundedStart decimals a).lt (roundedStart decimals b)

/-- What one note is rounded to stays behind what a note is that starts no later. -/
theorem not_roundsBefore_of_le {a b : Note} (h : a.start ≤ b.start) :
    ¬ RoundsBefore decimals b a := by
  intro hlt
  have hle := (Binary64.le_iff.mp (Binary64.roundTo_le_roundTo decimals h)).2.2
  have hrank := (Binary64.lt_iff.mp hlt).2.2
  exact absurd hrank (Int.not_lt.mpr hle)

theorem Collects.roundsBefore {first second : Event} {part other : List Note}
    (hpart : Collects decimals first part) (hother : Collects decimals second other)
    (h : first.Before second) : ∀ a ∈ part, ∀ b ∈ other, RoundsBefore decimals a b := by
  intro a ha b hb
  obtain ⟨hfirst, hsecond, hstarts⟩ := Binary64.lt_iff.mp h
  obtain ⟨haTimed, -, haRank⟩ := Binary64.eq_iff.mp (hpart.eq_start hfirst a ha)
  obtain ⟨hbTimed, -, hbRank⟩ := Binary64.eq_iff.mp (hother.eq_start hsecond b hb)
  exact Binary64.lt_iff.mpr ⟨haTimed, hbTimed, by rwa [haRank, hbRank]⟩

/-- The notes of a chord are rounded to starts before those of the notes of later chords. -/
theorem pairwise_parts (h : List.Forall₂ (Collects decimals) chords parts)
    (hordered : chords.Pairwise Event.Before) :
    parts.Pairwise fun earlier later =>
      ∀ a ∈ earlier, ∀ b ∈ later, RoundsBefore decimals a b := by
  induction h with
  | nil => exact .nil
  | cons hchord hparts ih =>
    obtain ⟨hbefore, hordered⟩ := List.pairwise_cons.mp hordered
    refine List.pairwise_cons.mpr ⟨fun later hlater => ?_, ih hordered⟩
    obtain ⟨other, hother, hcollects⟩ := exists_of_mem_forall₂ hparts.flip hlater
    exact hchord.roundsBefore hcollects (hbefore other hother)

/-- **Rounding never reorders times**, neither of two numbers nor of two notes: the chord of a note
that starts no later than another one is the chord of the other or an earlier one. -/
theorem group_ordered (options : Options) :
    (∀ x y : Binary64, x ≤ y → x.roundTo options.decimals ≤ y.roundTo options.decimals) ∧
    ∀ notes : List Note, (∀ note ∈ notes, note.start ≠ .nan) →
      ∃ parts : List (List Note), parts.flatten.Perm notes ∧
        List.Forall₂ (IsChordOf options.decimals) (group options notes) parts ∧
        ∀ i j : Fin parts.length, ∀ a ∈ parts.get i, ∀ b ∈ parts.get j,
          a.start ≤ b.start → i ≤ j := by
  refine ⟨fun x y => Binary64.roundTo_le_roundTo options.decimals, fun notes hnotes => ?_⟩
  obtain ⟨parts, hperm, hchords⟩ := group_parts options notes
  refine ⟨parts, hperm, hchords, fun i j a ha b hb hle => ?_⟩
  by_contra hlater
  have hordered := pairwise_parts (hchords.imp fun _ _ => IsChordOf.collects)
    (pairwise_before_group hnotes)
  have hbefore := List.pairwise_iff_get.mp hordered j i (Fin.not_le.mp hlater)
  exact not_roundsBefore_of_le hle (hbefore b hb a ha)

/-- Two notes on both sides of a second that are rounded to it, and a note before them. -/
theorem group_ordered_second :
    let notes : List Note := [⟨"C4", .ofDecimal false 10000004 (-7), .ofNat 2⟩,
      ⟨"D4", .ofDecimal false 5 (-1), .ofNat 2⟩, ⟨"E4", .ofDecimal false 9999996 (-7), .ofNat 2⟩]
    (∀ note ∈ notes, note.start ≠ .nan) ∧
      ∃ parts : List (List Note), parts.flatten.Perm notes ∧
        List.Forall₂ (IsChordOf 6) (group {} notes) parts ∧
        ∀ i j : Fin parts.length, ∀ a ∈ parts.get i, ∀ b ∈ parts.get j,
          a.start ≤ b.start → i ≤ j := by
  intro notes
  have hnotes : ∀ note ∈ notes, note.start ≠ .nan := by decide +kernel
  exact ⟨hnotes, (group_ordered {}).2 notes hnotes⟩

end Timeline
end MidiChords

import Mathlib.Data.List.Induction
import Mathlib.Data.List.Nodup
import MidiChords.Performance.Instrument

/-! # Filing releases by channel and program

The instruments of a log of releases are its parts by channel and program, in the order in which
these first appear.

* `Instrument.ofPart`: the part of a log for one channel and program;
* `Instrument.ofLog`: all parts of a log;
* `Instrument.ofReleases_eq_ofLog`: filing one release after the other makes these parts. -/

namespace MidiChords

open Midi (SevenBits Channel)
open Performance (Release)

/-- The channel and program of a release, which say where it is filed. -/
def Performance.Release.part (release : Release) : Channel × SevenBits :=
  (release.channel, release.program)

namespace Instrument

/-- The instrument of a channel and program with the notes of a log that belong to it, each with the
name of its key and with the times of its two ticks. -/
def ofPart (clock : Clock) (track : Nat) (name : Option String) (log : List Release)
    (part : Channel × SevenBits) : Instrument :=
  ⟨track, part.1, part.2, name, (log.filter (·.part = part)).map fun release =>
    ⟨Pitch.name release.key, clock.seconds release.start, clock.seconds release.stop⟩⟩

/-- The instruments of a log in the order of first appearance. -/
def ofLog (clock : Clock) (track : Nat) (name : Option String) (log : List Release) :
    List Instrument :=
  (log.map Release.part).eraseDups.map (ofPart clock track name log)

end Instrument

/-! ## First appearances -/

theorem eraseDups_concat {α : Type} [BEq α] [LawfulBEq α] [DecidableEq α] (as : List α) (a : α) :
    (as ++ [a]).eraseDups = if a ∈ as then as.eraseDups else as.eraseDups ++ [a] := by
  rw [List.eraseDups_append]
  by_cases h : a ∈ as <;> simp [List.removeAll, h, List.eraseDups_cons]

theorem eraseDups_filter {α : Type} [BEq α] [LawfulBEq α] [DecidableEq α] (p : α → Bool)
    (as : List α) : (as.filter p).eraseDups = as.eraseDups.filter p := by
  induction as using List.reverseRecOn with
  | nil => rfl
  | append_singleton as a ih =>
    rw [List.filter_append, eraseDups_concat, apply_ite (List.filter p), List.filter_append]
    cases hp : p a with
    | false => simp [hp, ih]
    | true => simp [hp, eraseDups_concat, ih]

theorem nodup_eraseDups {α : Type} [BEq α] [LawfulBEq α] [DecidableEq α] (as : List α) :
    as.eraseDups.Nodup := by
  induction as using List.reverseRecOn with
  | nil => exact List.nodup_nil
  | append_singleton as a ih =>
    rw [eraseDups_concat]
    split
    · exact ih
    · rw [← List.concat_eq_append]
      exact List.Nodup.concat (by simpa) ih

namespace Instrument

variable {clock : Clock} {track : Nat} {name : Option String} {log : List Release}

/-! ## Filing one release -/

/-- The notes of a part are those that filing makes. -/
theorem ofPart_eq (clock : Clock) (track : Nat) (name : Option String) (log : List Release)
    (part : Channel × SevenBits) : ofPart clock track name log part =
      ⟨track, part.1, part.2, name, (log.filter (·.part = part)).map (noteOf clock)⟩ := rfl

theorem ofPart_concat_self (release : Release) :
    ofPart clock track name (log ++ [release]) release.part =
      { ofPart clock track name log release.part with
        notes := (ofPart clock track name log release.part).notes ++ [noteOf clock release] } := by
  simp [ofPart_eq]

theorem ofPart_concat_of_ne {release : Release} {part : Channel × SevenBits}
    (h : part ≠ release.part) :
    ofPart clock track name (log ++ [release]) part = ofPart clock track name log part := by
  simp [ofPart_eq, h.symm]

theorem not_plays_of_ne {release : Release} {part : Channel × SevenBits} (h : part ≠ release.part) :
    ¬ ((ofPart clock track name log part).channel = release.channel ∧
      (ofPart clock track name log part).program = release.program) := by
  intro hplays
  exact h (Prod.ext hplays.1 hplays.2)

/-- A release changes the one instrument of its part. -/
theorem file_map_of_mem {release : Release} {parts : List (Channel × SevenBits)}
    (hnodup : parts.Nodup) (hmem : release.part ∈ parts) :
    file clock track release (parts.map (ofPart clock track name log)) =
      parts.map (ofPart clock track name (log ++ [release])) := by
  induction parts with
  | nil => exact absurd hmem List.not_mem_nil
  | cons part parts ih =>
    obtain ⟨hpart, hnodup⟩ := List.nodup_cons.mp hnodup
    rw [List.map_cons, file]
    by_cases h : part = release.part
    · -- the other parts are different ones
      have hothers : parts.map (ofPart clock track name log) =
          parts.map (ofPart clock track name (log ++ [release])) :=
        List.map_congr_left fun other hother =>
          (ofPart_concat_of_ne fun he => hpart (h ▸ he ▸ hother)).symm
      subst h
      rw [if_pos ⟨rfl, rfl⟩, List.map_cons, ofPart_concat_self, hothers]
    · rw [if_neg (not_plays_of_ne h), ih hnodup (List.mem_of_ne_of_mem (Ne.symm h) hmem),
        ← ofPart_concat_of_ne h, List.map_cons]

/-- The first release of a part adds an instrument at the end. -/
theorem file_map_of_not_mem {release : Release} {parts : List (Channel × SevenBits)}
    (hmem : release.part ∉ parts) (hnew : ∀ r ∈ log, r.part ≠ release.part) :
    file clock track release (parts.map (ofPart clock track none log)) =
      (parts ++ [release.part]).map (ofPart clock track none (log ++ [release])) := by
  induction parts with
  | nil =>
    have hlog : log.filter (·.part = release.part) = [] := by simpa using hnew
    simp only [List.nil_append, List.map_nil, List.map_singleton, file, ofPart_eq,
      List.filter_append, hlog]
    simp [Release.part]
  | cons part parts ih =>
    have h : part ≠ release.part := fun he => hmem (he ▸ List.mem_cons_self)
    rw [List.map_cons, file, if_neg (not_plays_of_ne h),
      ih fun hn => hmem (List.mem_cons_of_mem _ hn), ← ofPart_concat_of_ne h, List.cons_append,
      List.map_cons]

theorem ofReleases_concat (release : Release) : ofReleases clock track (log ++ [release]) =
    file clock track release (ofReleases clock track log) := by
  simp only [ofReleases, List.foldl_append, List.foldl_cons, List.foldl_nil]

/-- **Filing.** The instruments of a log of releases are its parts by channel and program in the
order in which these first appear. -/
theorem ofReleases_eq_ofLog : ofReleases clock track log = ofLog clock track none log := by
  induction log using List.reverseRecOn with
  | nil => rfl
  | append_singleton log release ih =>
    rw [ofReleases_concat, ih, ofLog, ofLog, List.map_append, List.map_singleton, eraseDups_concat]
    split
    · rename_i hmem
      exact file_map_of_mem (nodup_eraseDups _) (List.mem_eraseDups.mpr hmem)
    · rename_i hmem
      refine file_map_of_not_mem (fun h => hmem (List.mem_eraseDups.mp h)) ?_
      intro r hr he
      exact hmem (he ▸ List.mem_map_of_mem hr)

theorem ofTrack_eq_ofLog (events : List Midi.TimedEvent) : ofTrack clock track events =
    ofLog clock track (trackName? events) (Performance.pair events).1 := by
  simp only [ofTrack, ofReleases_eq_ofLog, ofLog, List.map_map]
  rfl

/-! ## What is in the parts -/

theorem mem_ofLog {instrument : Instrument} : instrument ∈ ofLog clock track name log ↔
    ∃ release ∈ log, ofPart clock track name log release.part = instrument := by
  simp only [ofLog, List.mem_map, List.mem_eraseDups, exists_exists_and_eq_and]

theorem notes_ne_nil_of_mem_ofLog {instrument : Instrument}
    (h : instrument ∈ ofLog clock track name log) : instrument.notes ≠ [] := by
  obtain ⟨release, hr, rfl⟩ := mem_ofLog.mp h
  refine List.ne_nil_of_mem (a := noteOf clock release) (List.mem_map_of_mem ?_)
  simpa using hr

/-- Every entry of the log is in one of the parts, and in no other. -/
theorem flatMap_filter_perm {parts : List (Channel × SevenBits)} (hnodup : parts.Nodup)
    (hcover : ∀ release ∈ log, release.part ∈ parts) :
    (parts.flatMap fun part => log.filter (·.part = part)).Perm log := by
  induction parts generalizing log with
  | nil =>
    cases log with
    | nil => exact .nil
    | cons release log => exact absurd (hcover release List.mem_cons_self) (by simp)
  | cons part parts ih =>
    obtain ⟨hpart, hnodup⟩ := List.nodup_cons.mp hnodup
    have hothers : (parts.flatMap fun other => log.filter (·.part = other)) =
        parts.flatMap fun other =>
          (log.filter fun release => !decide (release.part = part)).filter (·.part = other) := by
      refine List.flatMap_congr fun other hother => ?_
      rw [List.filter_filter]
      refine List.filter_congr fun release _ => ?_
      by_cases h : release.part = other
      · have hne : release.part ≠ part := fun he => hpart (he ▸ h ▸ hother)
        simp [h, h ▸ hne]
      · simp [h]
    rw [List.flatMap_cons, hothers]
    refine (List.Perm.append_left _ (ih hnodup ?_)).trans (List.filter_append_perm _ log)
    intro release hr
    obtain ⟨hr, hne⟩ := List.mem_filter.mp hr
    exact (List.mem_cons.mp (hcover release hr)).resolve_left (by simpa using hne)

theorem flatMap_notes_ofLog_perm : ((ofLog clock track name log).flatMap (·.notes)).Perm
    (log.map (noteOf clock)) := by
  have h := flatMap_filter_perm (nodup_eraseDups (log.map Release.part)) fun release hr =>
    List.mem_eraseDups.mpr (List.mem_map_of_mem hr)
  simpa only [ofLog, ofPart_eq, List.flatMap_map, List.map_flatMap] using h.map (noteOf clock)

end Instrument
end MidiChords

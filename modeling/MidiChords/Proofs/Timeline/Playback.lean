import MidiChords.Proofs.Timeline.Contiguity
import MidiChords.Proofs.Timeline.LineFormat

/-! # Playing a timeline back

Whoever plays the lines of a timeline one after another, each for the duration that it states, is at
every chord close to the time at which the chord starts. What is lost on the way is, for each chord,
the rounding of its own duration and either that of the silence before it or a gap up to the
tolerance that was not made explicit.

* `Timeline.statedDuration?`, `Timeline.statedTotal?`: what lines state;
* `Timeline.abs_gap_sub_le`, `Timeline.abs_duration_sub_le`: what one chord loses;
* `Timeline.exists_played_fillGaps`: the chords after a cursor;
* `Timeline.exists_played`: the chords of a timeline. -/

namespace MidiChords
namespace Timeline

open Binary64 (HasValue nearest)

/-! ## What lines state -/

/-- The duration that a line states, which stands after the last colon. -/
def statedDuration? (line : List Char) : Option ℚ := do
  let (_, field) ← Text.splitAtLast ':' line
  let numeral ← Numeral.read? field
  numeral.value?

/-- The exact sum of the durations that lines state. -/
def statedTotal? (lines : List (List Char)) : Option ℚ :=
  (lines.mapM statedDuration?).map List.sum

theorem statedDuration?_lineChars {event : Event} {d : ℚ} (places : Nat)
    (h : HasValue event.duration d) :
    statedDuration? (event.lineChars places) = some (Decimal.nearest places d) := by
  have hcolon : ':' ∉ event.duration.trimmedChars places := by
    intro hmem
    exact absurd (Binary64.isNumeralChar_of_mem_trimmedChars hmem) (by decide)
  have hvalue := h.value?_trimmedChars places
  rw [statedDuration?, Event.lineChars, Text.splitAtLast_append_cons hcolon]
  exact hvalue

theorem statedTotal?_singleton {line : List Char} {d : ℚ} (h : statedDuration? line = some d) :
    statedTotal? [line] = some d := by
  rw [statedTotal?, List.mapM_cons, h]
  exact congrArg some (add_zero d)

theorem statedTotal?_append {lines more : List (List Char)} {a b : ℚ}
    (h : statedTotal? lines = some a) (hmore : statedTotal? more = some b) :
    statedTotal? (lines ++ more) = some (a + b) := by
  obtain ⟨durations, hdurations, rfl⟩ := Option.map_eq_some_iff.mp h
  obtain ⟨further, hfurther, rfl⟩ := Option.map_eq_some_iff.mp hmore
  rw [statedTotal?, List.mapM_append, hdurations, hfurther]
  exact congrArg some List.sum_append

/-! ## What one chord loses -/

/-- The chord has a start and a duration, and it ends within `2 ^ 26` seconds. -/
structure Event.Playable (event : Event) : Prop where
  zero_le_start : .zero false ≤ event.start
  zero_le_duration : .zero false ≤ event.duration
  stop_le : event.stop ≤ .ofNat (2 ^ 26)

theorem Event.Playable.exists_values {event : Event} (h : event.Playable) : ∃ s d,
    HasValue event.start s ∧ HasValue event.duration d ∧ HasValue event.stop (nearest (s + d)) ∧
      0 ≤ s ∧ s ≤ 2 ^ 26 ∧ 0 ≤ d ∧ d ≤ 2 ^ 26 := by
  obtain ⟨s, d, hs, hd, hsnonneg, hdnonneg, hstop, hle⟩ := Binary64.exists_hasValue_of_add_le
    h.zero_le_start h.zero_le_duration h.stop_le (by decide)
  have hsle : nearest s ≤ nearest (s + d) := Binary64.nearest_mono (le_add_of_nonneg_right hdnonneg)
  have hdle : nearest d ≤ nearest (s + d) := Binary64.nearest_mono (le_add_of_nonneg_left hsnonneg)
  rw [hs.nearest_eq] at hsle
  rw [hd.nearest_eq] at hdle
  exact ⟨s, d, hs, hd, hstop, hsnonneg, hsle.trans hle, hdnonneg, hdle.trans hle⟩

variable {s c d : ℚ}

/-- The tolerance with the distance that numbers of its size allow. -/
theorem nearest_tolerance_le : nearest (1 / 10 ^ 4) ≤ 1 / 10 ^ 4 + 1 / 2 ^ 53 := by
  have hlost := Binary64.abs_nearest_sub_le (k := 0) (q := 1 / 10 ^ 4) (by norm_num)
  have habove := (abs_le.mp hlost).2
  norm_num at habove ⊢
  linarith

theorem abs_gap_sub_le (hle : c ≤ s) (hsize : s - c ≤ 2 ^ 26) :
    |nearest (s - c) - (s - c)| ≤ 2 ^ 26 / 2 ^ 53 :=
  Binary64.abs_nearest_sub_le ((abs_of_nonneg (sub_nonneg.mpr hle)).trans_le hsize)

/-- A gap that is not made explicit is lost as it is. -/
theorem abs_sub_le_of_nearest_le (hle : c ≤ s) (hsize : s - c ≤ 2 ^ 26)
    (h : nearest (s - c) ≤ nearest (1 / 10 ^ 4)) : |c - s| ≤ 10001 / 10 ^ 8 := by
  have hbelow := (abs_le.mp (abs_gap_sub_le hle hsize)).1
  have htolerance := nearest_tolerance_le
  rw [abs_sub_comm, abs_of_nonneg (sub_nonneg.mpr hle)]
  norm_num at hbelow htolerance h ⊢
  linarith

/-- The printed duration of a silence was rounded twice. -/
theorem abs_silence_sub_le (hle : c ≤ s) (hsize : s - c ≤ 2 ^ 26) :
    |c + Decimal.nearest 6 (nearest (s - c)) - s| ≤ 10001 / 10 ^ 8 := by
  obtain ⟨hlow, hhigh⟩ := abs_le.mp (abs_gap_sub_le hle hsize)
  obtain ⟨hlow', hhigh'⟩ := abs_le.mp (Decimal.abs_nearest_sub_le 6 (nearest (s - c)))
  norm_num at hlow hhigh hlow' hhigh'
  rw [abs_le]
  constructor
  · linarith
  · linarith

/-- The printed duration of a chord and the end of the chord were rounded apart. -/
theorem abs_duration_sub_le (hnonneg : 0 ≤ s + d) (hsize : s + d ≤ 2 ^ 27) :
    |s + Decimal.nearest 6 d - nearest (s + d)| ≤ 99 / 10 ^ 8 := by
  obtain ⟨hlow, hhigh⟩ :=
    abs_le.mp (Binary64.abs_nearest_sub_le ((abs_of_nonneg hnonneg).trans_le hsize))
  obtain ⟨hlow', hhigh'⟩ := abs_le.mp (Decimal.abs_nearest_sub_le 6 d)
  norm_num at hlow hhigh hlow' hhigh'
  rw [abs_le]
  constructor
  · linarith
  · linarith

/-! ## The chords after a cursor -/

/-- The silence before an event, if there is one. -/
def leadIn (tolerance cursor : Binary64) (event : Event) : List Event :=
  if tolerance.lt (event.start - cursor) then [.silence cursor (event.start - cursor)] else []

theorem fillGaps_cons (tolerance cursor : Binary64) (event : Event) (events : List Event) :
    fillGaps tolerance cursor (event :: events) =
      leadIn tolerance cursor event ++ event :: fillGaps tolerance event.stop events := by
  rw [fillGaps, leadIn]
  split
  · rfl
  · rfl

variable {cursor : Binary64}

/-- From the end of one chord to the start of the next. -/
theorem exists_total_leadIn {event : Event} (hcursor : HasValue cursor c)
    (hstart : HasValue event.start s) (hc : 0 ≤ c) (hle : c ≤ s) (hs : s ≤ 2 ^ 26) :
    ∃ total, statedTotal? ((leadIn (.ofDecimal false 1 (-4)) cursor event).map (·.lineChars 6)) =
        some total ∧ |c + total - s| ≤ 10001 / 10 ^ 8 := by
  have hnonneg : 0 ≤ s - c := sub_nonneg.mpr hle
  have hsize : s - c ≤ 2 ^ 26 := by linarith
  have hgap := hstart.sub hcursor ((abs_of_nonneg hnonneg).trans_le hsize) (by decide)
  rw [leadIn]
  split
  · refine ⟨_, statedTotal?_singleton ?_, abs_silence_sub_le hle hsize⟩
    exact @statedDuration?_lineChars (.silence cursor (event.start - cursor)) _ 6 hgap
  · rename_i hlt
    rw [hasValue_tolerance.lt_iff hgap, not_lt] at hlt
    refine ⟨0, rfl, ?_⟩
    rw [add_zero]
    exact abs_sub_le_of_nearest_le hle hsize hlt

/-- **Playback from a cursor on**: by induction on the chords before, each of which adds what it
loses itself. -/
theorem exists_played_fillGaps {earlier : List Event} {chord : Event}
    (hearlier : ∀ event ∈ earlier, event.Playable) (hchord : chord.Playable)
    (hordered : (earlier ++ [chord]).IsChain fun a b => a.stop ≤ b.start)
    (hcursor : HasValue cursor c) (hc : 0 ≤ c)
    (hfirst : ∀ first ∈ (earlier ++ [chord]).head?, cursor ≤ first.start) :
    ∃ before total start,
      (∀ later, fillGaps (.ofDecimal false 1 (-4)) cursor (earlier ++ chord :: later) =
        before ++ chord :: fillGaps (.ofDecimal false 1 (-4)) chord.stop later) ∧
      statedTotal? (before.map (·.lineChars 6)) = some total ∧ HasValue chord.start start ∧
      |c + total - start| ≤ (earlier.length + 1 : Nat) * (101 / 10 ^ 6) := by
  induction earlier generalizing cursor c with
  | nil =>
    obtain ⟨s, d, hs, -, -, -, hsle, -, -⟩ := hchord.exists_values
    have hle : c ≤ s := (hcursor.le_iff hs).mp (hfirst chord rfl)
    obtain ⟨gap, hgap, hlost⟩ := exists_total_leadIn hcursor hs hc hle hsle
    refine ⟨_, gap, s, fun later => fillGaps_cons .., hgap, hs, hlost.trans ?_⟩
    norm_num
  | cons event earlier ih =>
    obtain ⟨hevent, hearlier⟩ := List.forall_mem_cons.mp hearlier
    obtain ⟨hnext, hordered⟩ := List.isChain_cons.mp hordered
    obtain ⟨s, d, hs, hd, hstop, hsnonneg, hsle, hdnonneg, hdle⟩ := hevent.exists_values
    have hle : c ≤ s := (hcursor.le_iff hs).mp (hfirst event rfl)
    have hsum : 0 ≤ s + d := add_nonneg hsnonneg hdnonneg
    obtain ⟨gap, hgap, hgaplost⟩ := exists_total_leadIn hcursor hs hc hle hsle
    obtain ⟨before, total, start, hfilled, htotal, hstart, hlost⟩ :=
      ih hearlier hordered hstop (Binary64.nearest_nonneg hsum) hnext
    have hprinted := statedTotal?_singleton (statedDuration?_lineChars 6 hd)
    have hdurationlost := abs_duration_sub_le hsum (by linarith)
    refine ⟨leadIn (.ofDecimal false 1 (-4)) cursor event ++ event :: before,
      gap + (Decimal.nearest 6 d + total), start, ?_, ?_, hstart, ?_⟩
    · intro later
      rw [List.cons_append, fillGaps_cons, hfilled]
      simp
    · rw [List.map_append]
      exact statedTotal?_append hgap (statedTotal?_append hprinted htotal)
    · have hsplit : c + (gap + (Decimal.nearest 6 d + total)) - start =
          (c + gap - s) + (s + Decimal.nearest 6 d - nearest (s + d)) +
            (nearest (s + d) + total - start) := by ring
      calc |c + (gap + (Decimal.nearest 6 d + total)) - start|
        _ ≤ |c + gap - s| + |s + Decimal.nearest 6 d - nearest (s + d)| +
            |nearest (s + d) + total - start| := by
          rw [hsplit]
          exact abs_add_three _ _ _
        _ ≤ 10001 / 10 ^ 8 + 99 / 10 ^ 8 + (earlier.length + 1 : Nat) * (101 / 10 ^ 6) :=
          add_le_add (add_le_add hgaplost hdurationlost) hlost
        _ = ((event :: earlier).length + 1 : Nat) * (101 / 10 ^ 6) := by
          rw [List.length_cons]
          push_cast
          ring

/-! ## The chords of a timeline -/

theorem insertSilences_default (events : List Event) :
    insertSilences {} events = fillGaps (.ofDecimal false 1 (-4)) (.zero false) events := by
  rw [insertSilences]

/-- **Playback keeps time**: the durations that are printed before the line of a chord add up to the
start of the chord, up to `0.000101` seconds for each chord that has begun by then. -/
theorem exists_played {chords : List Event} (hchords : ∀ chord ∈ chords, chord.Playable)
    (hordered : chords.IsChain fun a b => a.stop ≤ b.start) {k : Nat} (hk : k < chords.length) :
    ∃ before after total start,
      insertSilences {} chords = before ++ chords[k] :: after ∧
      insertSilences {} (chords.take (k + 1)) = before ++ [chords[k]] ∧
      (render {} (insertSilences {} chords)).toList =
        renderChars 6 before ++ (chords[k].lineChars 6 ++ '\n' :: renderChars 6 after) ∧
      statedTotal? (before.map (·.lineChars 6)) = some total ∧
      HasValue chords[k].start start ∧ |total - start| ≤ (k + 1) * (101 / 10 ^ 6) := by
  have htake : chords.take (k + 1) = chords.take k ++ [chords[k]] :=
    List.take_succ_eq_append_getElem hk
  have hsplit : chords = chords.take k ++ chords[k] :: chords.drop (k + 1) := by
    rw [List.getElem_cons_drop hk, List.take_append_drop]
  have hbegun : ∀ chord ∈ (chords.take (k + 1)).head?, Binary64.zero false ≤ chord.start :=
    fun chord hmem =>
      (hchords chord (List.mem_of_mem_take (List.mem_of_mem_head? hmem))).zero_le_start
  obtain ⟨before, total, start, hfilled, htotal, hstart, hlost⟩ := exists_played_fillGaps
    (fun chord hmem => hchords chord (List.mem_of_mem_take hmem))
    (hchords chords[k] (List.getElem_mem hk)) (htake ▸ hordered.take (k + 1))
    (Binary64.hasValue_zero false) (le_refl 0) (htake ▸ hbegun)
  have hall := hfilled (chords.drop (k + 1))
  rw [← hsplit, ← insertSilences_default] at hall
  have htaken := hfilled []
  rw [← htake, ← insertSilences_default] at htaken
  rw [zero_add, List.length_take_of_le (Nat.le_of_lt hk)] at hlost
  refine ⟨before, _, total, start, hall, htaken, ?_, htotal, hstart, by exact_mod_cast hlost⟩
  rw [render, String.toList_ofList, hall, renderChars, List.flatMap_append, List.flatMap_cons,
    List.append_assoc]
  rfl

/-- A gap that is left out, and then one that is made explicit. -/
theorem exists_played_silence :
    let chords : List Event :=
      [⟨.ofDecimal false 9 (-5), ["C4"], .ofDecimal false 5 (-1)⟩, ⟨.ofNat 1, ["E4"], .ofNat 2⟩]
    render {} (insertSilences {} chords) = "(C4):0.5\n():0.49991\n(E4):2\n" ∧
      ∃ total start, statedTotal? ["(C4):0.5".toList, "():0.49991".toList] = some total ∧
        HasValue chords[1].start start ∧ |total - start| ≤ 2 * (101 / 10 ^ 6) := by
  intro chords
  refine ⟨by decide +kernel, ?_⟩
  have hplayable : ∀ chord ∈ chords, chord.Playable := by
    have hall : ∀ chord ∈ chords, .zero false ≤ chord.start ∧ .zero false ≤ chord.duration ∧
        chord.stop ≤ .ofNat (2 ^ 26) := by decide +kernel
    exact fun chord hchord =>
      ⟨(hall chord hchord).1, (hall chord hchord).2.1, (hall chord hchord).2.2⟩
  have hlines : (insertSilences {} chords).dropLast.map (·.lineChars 6) =
      ["(C4):0.5".toList, "():0.49991".toList] := by decide +kernel
  obtain ⟨before, -, total, start, -, htaken, -, htotal, hstart, hlost⟩ :=
    @exists_played chords hplayable (by decide +kernel) 1 (by decide)
  have hwhole : insertSilences {} chords = before ++ [chords[1]] := htaken
  have hbefore : before = (insertSilences {} chords).dropLast := by
    rw [hwhole, List.dropLast_concat]
  refine ⟨total, start, ?_, hstart, ?_⟩
  · rw [← hlines, ← hbefore]
    exact htotal
  · norm_num at hlost ⊢
    exact hlost

end Timeline
end MidiChords

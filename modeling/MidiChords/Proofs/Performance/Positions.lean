import MidiChords.Performance.Pairing

/-! # Note-ons and note-offs by their positions

A released note comes from two positions of its track, that of its note-on and that of the note-off
that ends it. Which pairs of positions belong together is said here by the events alone, without
the list of open notes that is kept while a track is played.

* `Performance.noteOn?`, `Performance.noteOff?`: what the event at a position begins and ends;
* `Performance.Sounds`: a note-on is still open when a position is reached;
* `Performance.openAt`: the notes that are open when a position is reached;
* `Performance.Releases`: a note-off releases a note-on;
* `Performance.releasePairs`, `Performance.releaseLog`: the positions of the released notes of a
  track, and the notes themselves. -/

namespace MidiChords

open Midi (SevenBits Channel Event)

/-! ## Events -/

/-- The channel and key on which an event begins a note. -/
def Midi.Event.beginsOn? : Event → Option (Channel × SevenBits)
  | .channel c (.noteOn key velocity) => if velocity.val = 0 then none else some (c, key)
  | _ => none

/-- The channel and key whose notes an event ends. A note-on of velocity 0 is a note-off. -/
def Midi.Event.endsOn? : Event → Option (Channel × SevenBits)
  | .channel c (.noteOff key _) => some (c, key)
  | .channel c (.noteOn key velocity) => if velocity.val = 0 then some (c, key) else none
  | _ => none

/-- The program that an event sets on a channel. -/
def Midi.Event.programOn? (c : Channel) : Event → Option SevenBits
  | .channel d (.programChange program) => if d = c then some program else none
  | _ => none

theorem Midi.Event.beginsOn?_eq_none_of_endsOn? {event : Event} {key : Channel × SevenBits}
    (h : event.endsOn? = some key) : event.beginsOn? = none := by
  unfold endsOn? at h
  split at h
  · rfl
  · split at h
    · simp [beginsOn?, *]
    · contradiction
  · contradiction

namespace Performance

variable (track : List (Nat × Event))

/-! ## Positions -/

/-- The note that the event at a position begins. -/
def noteOn? (p : Nat) : Option OpenNote :=
  track[p]?.bind fun (tick, event) =>
    event.beginsOn?.map fun (channel, key) => ⟨channel, key, tick⟩

/-- The tick of the event at a position if that is a note-off of the key of the given note. -/
def noteOff? (note : OpenNote) (q : Nat) : Option Nat :=
  track[q]?.bind fun (tick, event) =>
    if event.endsOn? = some (note.channel, note.key) then some tick else none

/-- The program of a channel when a position is reached, as the last change on the channel before
it has set it, and program 0 if there is none. -/
def programAt (channel : Channel) (q : Nat) : SevenBits :=
  ((track.take q).filterMap fun (_, event) => event.programOn? channel).getLast?.getD
    ⟨0, Nat.zero_lt_succ 127⟩

/-- The note-on at position `p` is still open when position `q` is reached: every note-off of its
key in between is on its own tick and finds an open note of the key that began earlier. -/
def Sounds (p q : Nat) : Prop :=
  p < q ∧ ∃ note ∈ noteOn? track p, ∀ r : Fin q, p < r → ∀ tick ∈ noteOff? track note r,
    tick = note.start ∧ ∃ p' < r.val, ∃ other ∈ noteOn? track p',
      other.isOf note.channel note.key ∧ other.start < note.start ∧ Sounds p' r
termination_by q
decreasing_by exact r.isLt

/-- When position `r` is reached, an open note of the key of the given one began earlier than it. -/
def FindsEarlier (note : OpenNote) (r : Nat) : Prop :=
  ∃ p < r, ∃ other ∈ noteOn? track p,
    other.isOf note.channel note.key ∧ other.start < note.start ∧ Sounds track p r

/-- The note-off at position `q` releases the note-on at position `p`: it is the first note-off of
the key after `p` on a later tick, and each note-off of the key after `p` on the tick of `p` finds
an open note that began earlier. -/
def Releases (p q : Nat) : Prop :=
  p < q ∧ ∃ note ∈ noteOn? track p,
    (∃ tick ∈ noteOff? track note q, note.start < tick) ∧
    (∀ r < q, p < r → ∀ tick ∈ noteOff? track note r, ¬ note.start < tick) ∧
    ∀ r < track.length, p < r → note.start ∈ noteOff? track note r → FindsEarlier track note r

instance Sounds.decidable : (q : Nat) → (p : Nat) → Decidable (Sounds track p q)
  | q => fun p =>
    have (r : Fin q) (p' : Nat) : Decidable (Sounds track p' r) := Sounds.decidable r p'
    decidable_of_iff
      (p < q ∧ ∃ note ∈ noteOn? track p, ∀ r : Fin q, p < r → ∀ tick ∈ noteOff? track note r,
        tick = note.start ∧ ∃ p' < r.val, ∃ other ∈ noteOn? track p',
          other.isOf note.channel note.key ∧ other.start < note.start ∧ Sounds track p' r)
      (by rw [Sounds])
termination_by q => q
decreasing_by exact r.isLt

instance (note : OpenNote) (r : Nat) : Decidable (FindsEarlier track note r) :=
  inferInstanceAs (Decidable (∃ p < r, ∃ other ∈ noteOn? track p,
    other.isOf note.channel note.key ∧ other.start < note.start ∧ Sounds track p r))

instance (p q : Nat) : Decidable (Releases track p q) :=
  inferInstanceAs (Decidable (p < q ∧ ∃ note ∈ noteOn? track p,
    (∃ tick ∈ noteOff? track note q, note.start < tick) ∧
    (∀ r < q, p < r → ∀ tick ∈ noteOff? track note r, ¬ note.start < tick) ∧
    ∀ r < track.length, p < r → note.start ∈ noteOff? track note r → FindsEarlier track note r))

/-- The notes that sound when a position is reached, in the order of their note-ons. -/
def openAt (q : Nat) : List OpenNote :=
  ((List.range q).filter (Sounds track · q)).filterMap (noteOn? track)

/-- The note that begins at position `p` and ends at position `q`. -/
def noteBetween? (p q : Nat) : Option Release :=
  (noteOn? track p).bind fun note => (noteOff? track note q).map fun tick =>
    ⟨note.channel, programAt track note.channel q, note.key, note.start, tick⟩

/-- The positions of the note-on and the note-off of each released note, in the order of the
note-offs and, for one note-off, of the note-ons. -/
def releasePairs : List (Nat × Nat) :=
  (List.range track.length).flatMap fun q =>
    ((List.range q).filter (Releases track · q)).map (·, q)

/-- The released notes of a track. -/
def releaseLog : List Release :=
  (releasePairs track).filterMap fun (p, q) => noteBetween? track p q

/-! ## Basic facts -/

variable {track} {p q r tick : Nat} {note : OpenNote}

theorem sounds_iff : Sounds track p q ↔ p < q ∧ ∃ note ∈ noteOn? track p,
    ∀ r < q, p < r → ∀ tick ∈ noteOff? track note r,
      tick = note.start ∧ FindsEarlier track note r := by
  rw [Sounds]
  simp only [FindsEarlier, Fin.forall_iff]

theorem Sounds.lt (h : Sounds track p q) : p < q := (sounds_iff.mp h).1

theorem Releases.lt (h : Releases track p q) : p < q := h.1

theorem mem_openAt : note ∈ openAt track q ↔
    ∃ p < q, note ∈ noteOn? track p ∧ Sounds track p q := by
  simp only [openAt, List.mem_filterMap, List.mem_filter, List.mem_range, decide_eq_true_eq]
  constructor
  · rintro ⟨p, ⟨hp, hs⟩, hn⟩
    exact ⟨p, hp, hn, hs⟩
  · rintro ⟨p, hp, hn, hs⟩
    exact ⟨p, ⟨hp, hs⟩, hn⟩

theorem findsEarlier_iff : FindsEarlier track note r ↔
    ∃ other ∈ openAt track r, other.isOf note.channel note.key ∧ other.start < note.start := by
  simp only [mem_openAt, FindsEarlier]
  constructor
  · rintro ⟨p, hp, other, hn, hkey, hlt, hs⟩
    exact ⟨other, ⟨p, hp, hn, hs⟩, hkey, hlt⟩
  · rintro ⟨other, ⟨p, hp, hn, hs⟩, hkey, hlt⟩
    exact ⟨p, hp, other, hn, hkey, hlt, hs⟩

theorem noteOn?_of_getElem? {event : Event} (h : track[p]? = some (tick, event)) :
    noteOn? track p = event.beginsOn?.map fun (channel, key) => ⟨channel, key, tick⟩ := by
  simp only [noteOn?, h, Option.bind_some]

theorem isOf_iff {channel : Channel} {key : SevenBits} :
    note.isOf channel key ↔ note.channel = channel ∧ note.key = key := by
  simp [OpenNote.isOf]

theorem noteOff?_of_endsOn? {event : Event} {channel : Channel} {key : SevenBits}
    (h : track[q]? = some (tick, event)) (hend : event.endsOn? = some (channel, key)) :
    noteOff? track note q = if note.isOf channel key then some tick else none := by
  simp only [noteOff?, h, hend, Option.bind_some, isOf_iff, Option.some.injEq, Prod.mk.injEq,
    eq_comm (a := channel), eq_comm (a := key)]

theorem noteOff?_of_endsOn?_eq_none {event : Event} (h : track[q]? = some (tick, event))
    (hend : event.endsOn? = none) : noteOff? track note q = none := by
  simp [noteOff?, h, hend]

theorem noteOn?_eq_some (h : noteOn? track p = some note) :
    ∃ event, track[p]? = some (note.start, event) := by
  simp only [noteOn?, Option.bind_eq_some_iff, Option.map_eq_some_iff] at h
  obtain ⟨⟨tick, event⟩, hp, ⟨channel, key⟩, _, rfl⟩ := h
  exact ⟨event, hp⟩

theorem noteOff?_eq_some (h : noteOff? track note q = some tick) :
    ∃ event, track[q]? = some (tick, event) ∧
      event.endsOn? = some (note.channel, note.key) := by
  simp only [noteOff?, Option.bind_eq_some_iff] at h
  obtain ⟨⟨t, event⟩, hq, h⟩ := h
  split at h
  · cases h
    exact ⟨event, hq, ‹_›⟩
  · contradiction

theorem noteOff?_lt_length (h : noteOff? track note q = some tick) : q < track.length := by
  obtain ⟨event, hq, _⟩ := noteOff?_eq_some h
  exact (List.getElem?_eq_some_iff.mp hq).1

theorem Releases.noteBetween?_eq (h : Releases track p q) :
    ∃ note ∈ noteOn? track p, ∃ tick ∈ noteOff? track note q, noteBetween? track p q =
      some ⟨note.channel, programAt track note.channel q, note.key, note.start, tick⟩ := by
  obtain ⟨_, note, hn, ⟨tick, ht, _⟩, _⟩ := h
  refine ⟨note, hn, tick, ht, ?_⟩
  simp only [noteBetween?, Option.mem_def.mp hn, Option.mem_def.mp ht,
    Option.bind_some, Option.map_some]

/-! ## The released pairs -/

theorem mem_releasePairs : (p, q) ∈ releasePairs track ↔ Releases track p q := by
  simp only [releasePairs, List.mem_flatMap, List.mem_map, List.mem_filter, List.mem_range,
    decide_eq_true_eq, Prod.mk.injEq]
  constructor
  · rintro ⟨_, _, _, ⟨_, h⟩, rfl, rfl⟩
    exact h
  · intro h
    obtain ⟨note, _, tick, ht, _⟩ := h.noteBetween?_eq
    exact ⟨q, noteOff?_lt_length ht, p, ⟨h.lt, h⟩, rfl, rfl⟩

/-- The order of pairs: by their note-offs and then by their note-ons. -/
abbrev PairBefore (a b : Nat × Nat) : Prop := a.2 < b.2 ∨ a.2 = b.2 ∧ a.1 < b.1

theorem releasePairs_pairwise : (releasePairs track).Pairwise PairBefore := by
  refine List.pairwise_flatMap.mpr ⟨fun q _ => ?_, ?_⟩
  · refine List.pairwise_map.mpr ((List.pairwise_lt_range.filter _).imp fun h => ?_)
    exact .inr ⟨rfl, h⟩
  · refine List.pairwise_lt_range.imp fun h a ha b hb => ?_
    obtain ⟨_, _, rfl⟩ := List.mem_map.mp ha
    obtain ⟨_, _, rfl⟩ := List.mem_map.mp hb
    exact .inl h

/-- Each released pair makes one entry of the log. -/
theorem releaseLog_map_some : (releaseLog track).map some =
    (releasePairs track).map fun (p, q) => noteBetween? track p q := by
  have h : ∀ x ∈ releasePairs track, (noteBetween? track x.1 x.2).isSome := by
    intro x hx
    obtain ⟨_, _, _, _, h⟩ := (mem_releasePairs.mp hx).noteBetween?_eq
    simp [h]
  unfold releaseLog
  generalize releasePairs track = pairs at h ⊢
  induction pairs with
  | nil => rfl
  | cons x pairs ih =>
    obtain ⟨hx, hpairs⟩ := List.forall_mem_cons.mp h
    obtain ⟨release, hx⟩ := Option.isSome_iff_exists.mp hx
    simp only [List.filterMap_cons, hx, List.map_cons, ih hpairs]

end Performance
end MidiChords

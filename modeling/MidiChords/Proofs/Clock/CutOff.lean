import MidiChords.Proofs.Clock.Walk
import MidiChords.Proofs.Midi.CutOff
import MidiChords.Proofs.Midi.Sizes
import MidiChords.Proofs.Performance.Pairing

/-! # The clock of a track that was cut off

A track that was cut off has lost tempo changes, but none that alters the time of a tick up to its
last event.

* `Midi.Event.TempoFits`, `Midi.File.tempoFits_read`: every tempo that is read has three bytes;
* `Midi.Track.endTick`: the tick of the last event;
* `Clock.seconds_ofDivision_cut`: the two clocks agree up to there. -/

namespace MidiChords
namespace Midi

/-! ## Tempi -/

/-- A tempo, if the event sets one, is of three bytes. -/
def Event.TempoFits : Event → Prop
  | .tempo n => n < Clock.tempoLimit
  | _ => True

theorem bigEndian_lt (bytes : List UInt8) : bigEndian bytes < 256 ^ bytes.length := by
  induction bytes using List.reverseRecOn with
  | nil => decide
  | append_singleton bytes byte ih =>
    have hbyte := byte.toNat_lt
    rw [bigEndian_concat, List.length_append, List.length_singleton, Nat.pow_succ]
    omega

theorem Event.tempoFits_of_ofMeta? {kind : UInt8} {data : List UInt8} {event : Event}
    (h : ofMeta? kind data = some event) : event.TempoFits := by
  unfold ofMeta? at h
  split at h
  · cases h
    trivial
  · split at h
    · rename_i hdata
      cases h
      have hlt := bigEndian_lt (data.take 3)
      rwa [List.length_take_of_le hdata.2] at hlt
    · split at h
      · contradiction
      · split at h
        · contradiction
        · cases h
          trivial

theorem Event.tempoFits_of_read? {running status : Option UInt8} {bytes rest : List UInt8}
    {event : Event} (h : read? running bytes = some (event, status, rest)) : event.TempoFits := by
  match bytes with
  | [] => contradiction
  | byte :: bytes =>
    unfold read? at h
    dsimp only at h
    split at h
    · simp only [Option.bind_eq_some_iff, Option.map_eq_some_iff, Prod.mk.injEq] at h
      obtain ⟨_, _, _, _, rfl, _⟩ := h
      trivial
    · split at h
      · simp only [Option.map_eq_some_iff, Prod.mk.injEq] at h
        obtain ⟨_, _, rfl, _⟩ := h
        trivial
      · split at h
        · match bytes with
          | [] => contradiction
          | kind :: bytes =>
            simp only [Option.map_eq_some_iff, Prod.mk.injEq] at h
            obtain ⟨_, hmeta, rfl, _⟩ := h
            exact tempoFits_of_ofMeta? hmeta
        · split at h
          · simp only [Option.some.injEq, Prod.mk.injEq] at h
            obtain ⟨rfl, _⟩ := h
            split
            · trivial
            · trivial
          · contradiction

theorem Track.tempoFits_readFrom {running : Option UInt8} {bytes : List UInt8} :
    ∀ event ∈ readFrom running bytes, event.event.TempoFits := by
  induction hlength : bytes.length using Nat.strongRecOn generalizing running bytes with
  | ind length ih =>
    subst hlength
    cases hread : Event.read? running (variableLength bytes).2 with
    | none =>
      rw [readFrom_of_eq_none hread]
      exact List.forall_mem_nil _
    | some next =>
      obtain ⟨event, status, rest⟩ := next
      have hrest : rest.length < bytes.length :=
        Nat.lt_of_lt_of_le (Event.read?_length hread) (variableLength_length bytes)
      rw [readFrom_of_eq_some hread]
      exact List.forall_mem_cons.mpr ⟨Event.tempoFits_of_read? hread, ih _ hrest rfl⟩

theorem File.tempoFits_read {bytes : List UInt8} {file : File} (h : File.read bytes = .ok file) :
    ∀ events ∈ file.tracks, ∀ event ∈ events, event.event.TempoFits := by
  intro events hevents
  obtain ⟨data, rfl, -⟩ := exists_data_of_read h hevents
  exact Track.tempoFits_readFrom

/-! ## Ticks -/

namespace Track

/-- The tick of the last event. -/
def endTick (events : List TimedEvent) : Nat := (events.map (·.delta)).sum

theorem withTicksFrom_append (tick : Nat) (events later : List TimedEvent) :
    withTicksFrom tick (events ++ later) =
      withTicksFrom tick events ++ withTicksFrom (tick + endTick events) later := by
  induction events generalizing tick with
  | nil => rfl
  | cons event events ih =>
    have htick : tick + endTick (event :: events) = tick + event.delta + endTick events :=
      (Nat.add_assoc ..).symm
    rw [htick, List.cons_append, withTicksFrom, withTicksFrom, ih, List.cons_append]

theorem withTicks_append (events later : List TimedEvent) :
    withTicks (events ++ later) = withTicks events ++ withTicksFrom (endTick events) later := by
  rw [withTicks, withTicksFrom_append, Nat.zero_add]
  rfl

theorem mem_withTicksFrom {tick : Nat} {events : List TimedEvent} {x : Nat × Event}
    (h : x ∈ withTicksFrom tick events) :
    x.1 ≤ tick + endTick events ∧ ∃ event ∈ events, event.event = x.2 := by
  induction events generalizing tick with
  | nil => contradiction
  | cons event events ih =>
    rw [endTick, List.map_cons, List.sum_cons, ← Nat.add_assoc]
    rcases List.mem_cons.mp h with rfl | h
    · exact ⟨Nat.le_add_right .., event, List.mem_cons_self, rfl⟩
    · obtain ⟨hle, other, hother, heq⟩ := ih h
      exact ⟨hle, other, List.mem_cons_of_mem _ hother, heq⟩

theorem le_endTick {events : List TimedEvent} {x : Nat × Event} (h : x ∈ withTicks events) :
    x.1 ≤ endTick events := by
  have hle := (mem_withTicksFrom h).1
  rwa [Nat.zero_add] at hle

end Track
end Midi

/-! ## The two clocks -/

namespace Clock

open Midi (Event TimedEvent)
open Midi.Track (endTick withTicksFrom)

/-- The tempo that an event sets, with its tick. -/
def tempoChange? : Nat × Event → Option (Nat × Nat)
  | (tick, .tempo tempo) => some (tick, tempo)
  | _ => none

theorem tempoChanges_eq (events : List TimedEvent) :
    tempoChanges events = (Midi.Track.withTicks events).filterMap tempoChange? :=
  List.filterMap_congr fun x _ => by
    obtain ⟨tick, event⟩ := x
    cases event <;> rfl

theorem tempoChange?_eq_some {x : Nat × Event} {change : Nat × Nat}
    (h : tempoChange? x = some change) : x = (change.1, .tempo change.2) := by
  unfold tempoChange? at h
  split at h
  · cases h
    rfl
  · contradiction

variable {events idle rest : List TimedEvent}

theorem tempoChanges_append (events later : List TimedEvent) :
    tempoChanges (events ++ later) =
      tempoChanges events ++ (withTicksFrom (endTick events) later).filterMap tempoChange? := by
  rw [tempoChanges_eq, tempoChanges_eq, Midi.Track.withTicks_append, List.filterMap_append]

theorem tempoChanges_append_idle (h : ∀ event ∈ idle, event.event.IsIdle) :
    tempoChanges (events ++ idle) = tempoChanges events := by
  have hnone : (withTicksFrom (endTick events) idle).filterMap tempoChange? = [] := by
    refine List.filterMap_eq_nil_iff.mpr fun x hx => ?_
    obtain ⟨-, event, hevent, heq⟩ := Midi.Track.mem_withTicksFrom hx
    have hidle := h event hevent
    obtain ⟨tick, setter⟩ := x
    dsimp only at heq
    rw [heq] at hidle
    cases setter with
    | tempo n => exact absurd hidle id
    | _ => rfl
  rw [tempoChanges_append, hnone, List.append_nil]

/-- What a change that is read says: where it can be, and that it has three bytes. -/
theorem le_of_mem_tempoChanges {tick : Nat} {change : Nat × Nat}
    (hfits : ∀ event ∈ events, event.event.TempoFits)
    (h : change ∈ (withTicksFrom tick events).filterMap tempoChange?) :
    tick ≤ change.1 ∧ change.2 < tempoLimit := by
  obtain ⟨x, hx, hchange⟩ := List.mem_filterMap.mp h
  obtain rfl := tempoChange?_eq_some hchange
  obtain ⟨-, event, hevent, heq⟩ := Midi.Track.mem_withTicksFrom hx
  have hevent := hfits event hevent
  rw [heq] at hevent
  exact ⟨Midi.Track.le_of_mem_withTicksFrom hx, hevent⟩

/-- The clocks of a track that was cut off and of the whole track agree up to the last event before
the cut. -/
theorem seconds_ofDivision_cut (division : Midi.Division)
    (hidle : ∀ event ∈ idle, event.event.IsIdle)
    (hfits : ∀ event ∈ events ++ rest, event.event.TempoFits) {tick : Nat}
    (htick : tick ≤ endTick events) :
    (ofDivision (tempoChanges (events ++ idle)) division).seconds tick =
      (ofDivision (tempoChanges (events ++ rest)) division).seconds tick := by
  obtain ⟨hevents, hrest⟩ := List.forall_mem_append.mp hfits
  rw [tempoChanges_append_idle hidle, tempoChanges_append]
  symm
  refine seconds_ofDivision_append division (fun change hchange => ?_) fun change hchange => ?_
  · rw [tempoChanges_eq] at hchange
    exact (le_of_mem_tempoChanges hevents hchange).2
  · obtain ⟨hle, hlt⟩ := le_of_mem_tempoChanges hrest hchange
    exact ⟨Nat.le_trans htick hle, hlt⟩

end Clock
end MidiChords

import MidiChords.Json.Record
import MidiChords.Main
import MidiChords.Proofs.Performance.Instruments
import MidiChords.Proofs.Performance.CutOff
import MidiChords.Proofs.Timeline.Grouping
import MidiChords.Proofs.Timeline.LineFormat
import MidiChords.Proofs.Midi.ReadBack
import MidiChords.Proofs.Export.Convert
import MidiChords.Proofs.Binary64.Monotone
import MidiChords.Proofs.Binary64.Unsigned
import MidiChords.Proofs.Clock.Monotone
import MidiChords.Proofs.Performance.Times
import MidiChords.Proofs.Decimal.Rounded
import MidiChords.Proofs.Timeline.Durations
import MidiChords.Proofs.Export.WellFormed
import MidiChords.Proofs.CommandLine.Modes
import MidiChords.Proofs.CommandLine.Listing
import MidiChords.Proofs.Rounding
import MidiChords.Proofs.Binary64.Fraction
import MidiChords.Proofs.Binary64.Value
import MidiChords.Proofs.Decimal.Value
import MidiChords.Proofs.Timeline.Contiguity
import MidiChords.Proofs.Timeline.Starts
import MidiChords.Proofs.Timeline.Playback
import MidiChords.Proofs.Performance.Isolation
import MidiChords.Proofs.Performance.Channels
import MidiChords.Proofs.Midi.Container
import MidiChords.Proofs.Decimal.Idempotent
import MidiChords.Proofs.Midi.Acceptance
import MidiChords.Proofs.Timeline.Regrouping
import MidiChords.Proofs.Timeline.SourceOrder
import MidiChords.Proofs.Export.Commute
import MidiChords.Proofs.CommandLine.Log
import MidiChords.Proofs.CommandLine.Verbosity
import MidiChords.Proofs.Binary64.Rank
import MidiChords.Proofs.Decimal.Shortest
import MidiChords.Proofs.Binary64.Near
import MidiChords.Proofs.Json.Scale
import MidiChords.Proofs.Json.Layout
import MidiChords.Proofs.Json.Text
import MidiChords.Proofs.Json.Value
import MidiChords.Proofs.Json.Record
import MidiChords.Proofs.Clock.PlainWalk
import MidiChords.Proofs.Decimal.Order
import MidiChords.Proofs.Decimal.Grammar
import MidiChords.Proofs.Timeline.ChordOrder
import MidiChords.Proofs.Timeline.LineGrammar
import MidiChords.Proofs.Decimal.Canonical
import MidiChords.Proofs.Timeline.Silences
import MidiChords.Proofs.Timeline.Rearrangement
import MidiChords.Proofs.Binary64.Accuracy
import MidiChords.Proofs.Clock.Integral
import MidiChords.Proofs.Timeline.EqualDurations
import MidiChords.Proofs.Clock.Checked
import MidiChords.Proofs.Performance.Collecting
import MidiChords.Proofs.Performance.Safety

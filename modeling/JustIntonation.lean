import JustIntonation.Main
import JustIntonation.Proofs.Midi.Performance
import JustIntonation.Proofs.Midi.Reader
import JustIntonation.Settings.Text
import JustIntonation.Proofs.Midi.Decoding
import JustIntonation.Proofs.Number.Order
import JustIntonation.Proofs.Tuning.KeyMap
import JustIntonation.Proofs.Midi.Stroke
import JustIntonation.Proofs.Midi.RoundTrip
import JustIntonation.Proofs.Midi.Undisturbed
import JustIntonation.Proofs.Tuning.MappingFile
import JustIntonation.Proofs.Tuning.Retuning
import JustIntonation.Proofs.Midi.Retuned
import JustIntonation.Proofs.Notation.Layout
import JustIntonation.Proofs.Notation.Reading
import JustIntonation.Proofs.Notation.Acceptance
import JustIntonation.Proofs.Notation.Passage
import JustIntonation.Proofs.Notation.Soundness
import JustIntonation.Proofs.Score.Duration
import JustIntonation.Proofs.Number.ByValue
import JustIntonation.Proofs.Midi.Refusal
import JustIntonation.Proofs.Music.Traversal
import JustIntonation.Proofs.Notation.Meaning
import JustIntonation.Proofs.Settings.Check
import JustIntonation.Proofs.Score.Document
import JustIntonation.Proofs.Compilation
import JustIntonation.Proofs.Notation.Descent
import JustIntonation.Proofs.Midi.Length
import JustIntonation.Proofs.Midi.Release
import JustIntonation.Proofs.Tuning.Transposition
import JustIntonation.Proofs.Midi.Alike
import JustIntonation.Proofs.Midi.Transposition
import JustIntonation.Proofs.Temperament.Steps
import JustIntonation.Proofs.Notation.Evaluation
import JustIntonation.Proofs.Settings.Layering
import JustIntonation.Proofs.Notation.Rereading
import JustIntonation.Proofs.Notation.Joining
import JustIntonation.Proofs.Notation.Image
import JustIntonation.Proofs.Notation.Writing
import JustIntonation.Proofs.Midi.Allocation
import JustIntonation.Proofs.Midi.SameValues
import JustIntonation.Proofs.Midi.Rhythm
import JustIntonation.Proofs.Binary64.Shortest
import JustIntonation.Proofs.Settings.RoundTrip
import JustIntonation.Proofs.Notation.Completion
import JustIntonation.Proofs.Notation.Commitment
import JustIntonation.Proofs.Score.Bodies
import JustIntonation.Proofs.Json.Reading
import JustIntonation.Proofs.Json.Music
import JustIntonation.Proofs.Notation.Refusal
import JustIntonation.Proofs.Tuning.ScaleFile
import JustIntonation.Proofs.Score.Annotations
import JustIntonation.Proofs.Music.FrequencySet
import JustIntonation.Proofs.Temperament.Frame
import JustIntonation.Proofs.Midi.Ticks
import JustIntonation.Proofs.Midi.Bend
import JustIntonation.Proofs.Temperament.Idempotence
import JustIntonation.Proofs.Report.Table
import JustIntonation.Proofs.Score.Structure
import JustIntonation.Proofs.Report.Listing
import JustIntonation.Proofs.Midi.VariableLength
import JustIntonation.Proofs.Midi.Timeline
import JustIntonation.Proofs.Notation.Location
import JustIntonation.Proofs.Music.Laws

import LyricScore.Export.Folder
import LyricScore.Main
import LyricScore.Proofs.Midi.Clock
import LyricScore.Proofs.Midi.Overlap
import LyricScore.Proofs.Performance.Accidentals
import LyricScore.Proofs.Performance.Extents
import LyricScore.Proofs.Performance.Playing
import LyricScore.Proofs.Performance.Strikes
import LyricScore.Proofs.Pipeline.Footprint
import LyricScore.Proofs.Pipeline.Lines
import LyricScore.Proofs.Pipeline.Progress
import LyricScore.Proofs.Pipeline.Resume
import LyricScore.Proofs.Pipeline.Soundness
import LyricScore.Proofs.Pipeline.Stages
import LyricScore.Proofs.Pipeline.TieMarks
import LyricScore.Proofs.Pipeline.Unbroken
import LyricScore.Proofs.Pipeline.Wordless
import LyricScore.Proofs.Rhythm.BeatLines
import LyricScore.Proofs.Score.Grammar
import LyricScore.Proofs.Score.PitchWords
import LyricScore.Proofs.Score.Printer
import LyricScore.Proofs.Score.RoundTrip
import LyricScore.Proofs.Score.Source
import LyricScore.Proofs.Score.Words
import LyricScore.Proofs.Sequence
import LyricScore.Proofs.Table.Accounts
import LyricScore.Proofs.Table.Beats
import LyricScore.Proofs.Table.Changes
import LyricScore.Proofs.Table.Classes
import LyricScore.Proofs.Table.Composition
import LyricScore.Proofs.Table.Dump
import LyricScore.Proofs.Table.Frame
import LyricScore.Proofs.Table.Keys
import LyricScore.Proofs.Table.Meters
import LyricScore.Proofs.Table.Positions
import LyricScore.Proofs.Table.Redundancy
import LyricScore.Proofs.Table.Regions
import LyricScore.Proofs.Table.Replay
import LyricScore.Proofs.Table.SameNotes
import LyricScore.Proofs.Table.Scored
import LyricScore.Proofs.Table.Settled
import LyricScore.Proofs.Table.Sustain
import LyricScore.Proofs.Table.Timeline
import LyricScore.Proofs.Table.Tones
import LyricScore.Proofs.Table.Underlay
import LyricScore.Proofs.Table.Units
import LyricScore.Proofs.Table.Voicing
import LyricScore.Proofs.Table.Wordless
import LyricScore.Proofs.Text.Decimal
import LyricScore.Proofs.Text.Numeral
import LyricScore.Proofs.Text.Split
import LyricScore.Proofs.Text.Squeeze
import LyricScore.Proofs.Tune.Agreement
import LyricScore.Proofs.Tune.Carry
import LyricScore.Proofs.Tune.Conservation
import LyricScore.Proofs.Tune.Continuation
import LyricScore.Proofs.Tune.Dots
import LyricScore.Proofs.Tune.Folding
import LyricScore.Proofs.Tune.Fragment
import LyricScore.Proofs.Tune.Handover
import LyricScore.Proofs.Tune.Hearing
import LyricScore.Proofs.Tune.Ink
import LyricScore.Proofs.Tune.Lines
import LyricScore.Proofs.Tune.Music
import LyricScore.Proofs.Tune.Neat
import LyricScore.Proofs.Tune.Playable
import LyricScore.Proofs.Tune.Reading
import LyricScore.Proofs.Tune.Script
import LyricScore.Proofs.Tune.Spacing
import LyricScore.Proofs.Tune.Tidy
import LyricScore.Proofs.Tune.Token
import LyricScore.Proofs.Tune.Tying
import LyricScore.Proofs.Tune.WrittenTime
import LyricScore.Table.Compare

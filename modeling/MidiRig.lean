import MidiRig.Config
import MidiRig.Clock.Meter
import MidiRig.Clock.Stepping
import MidiRig.Document.Toml.Reader
import MidiRig.Document.Toml.Writer
import MidiRig.Player.Work
import MidiRig.Engine.Perform
import MidiRig.Event.Bytes
import MidiRig.Router.Counter
import MidiRig.Router.Tap
import MidiRig.Rule.Text
import MidiRig.Session
import MidiRig.Setup.ConfigFile
import MidiRig.Stage.Rehearsal
import MidiRig.Proofs.Engine.Agenda
import MidiRig.Proofs.Engine.Timer
import MidiRig.Proofs.Stage.Members
import MidiRig.Proofs.Stage.Move
import MidiRig.Proofs.Stage.Part
import MidiRig.Proofs.Router.Moves
import MidiRig.Proofs.Session.Operation
import MidiRig.Proofs.Player.Callbacks
import MidiRig.Proofs.Session.Callbacks
import MidiRig.Proofs.Session.Table
import MidiRig.Proofs.Stage.Kept
import MidiRig.Proofs.Stage.Roster
import MidiRig.Proofs.Session.Switch
import MidiRig.Proofs.Player.Notes
import MidiRig.Proofs.Session.Notes
import MidiRig.Proofs.Router.Desk
import MidiRig.Proofs.Router.Native
import MidiRig.Proofs.Router.Release
import MidiRig.Proofs.Stage.Drain
import MidiRig.Proofs.Session.Advance
import MidiRig.Proofs.Session.Score
import MidiRig.Proofs.Text.Words
import MidiRig.Proofs.Rule.Tokens
import MidiRig.Proofs.Rule.RangeText
import MidiRig.Proofs.Rule.Options
import MidiRig.Proofs.Rule.Notation
import MidiRig.Proofs.Player.Files
import MidiRig.Proofs.Stage.Files
import MidiRig.Proofs.Session.Files
import MidiRig.Proofs.Player.Recording
import MidiRig.Proofs.Number.Nearest
import MidiRig.Proofs.Number.Rounding
import MidiRig.Proofs.Number.Value
import MidiRig.Proofs.Number.Arithmetic
import MidiRig.Proofs.Number.Reading
import MidiRig.Proofs.Number.Modulo
import MidiRig.Proofs.Clock.Tempo
import MidiRig.Proofs.Player.Pass
import MidiRig.Proofs.Player.Timeline
import MidiRig.Proofs.Player.Cuts
import MidiRig.Proofs.Session.Monitor
import MidiRig.Proofs.Number.Whole
import MidiRig.Proofs.Router.Channels
import MidiRig.Proofs.Number.Equal
import MidiRig.Proofs.Number.Digits
import MidiRig.Proofs.Number.Shortest
import MidiRig.Proofs.Number.Nearby
import MidiRig.Proofs.Number.Text
import MidiRig.Proofs.Event.Text
import MidiRig.Proofs.Toml.Quoted
import MidiRig.Proofs.Toml.Scalar
import MidiRig.Proofs.Toml.Value
import MidiRig.Proofs.Toml.Document
import MidiRig.Proofs.Toml.Bounds
import MidiRig.Proofs.Setup.Saving
import MidiRig.Proofs.Setup.Definition
import MidiRig.Proofs.Setup.Bank
import MidiRig.Proofs.Setup.ConfigFile
import MidiRig.Proofs.Router.Velocity
import MidiRig.Proofs.Player.Edits
import MidiRig.Proofs.Player.Undo
import MidiRig.Proofs.Stage.Rehearsal
import MidiRig.Proofs.Number.Infinite
import MidiRig.Proofs.Number.Ticks
import MidiRig.Proofs.Clock.Rounding
import MidiRig.Proofs.Player.Order
import MidiRig.Proofs.Stage.Waiting
import MidiRig.Proofs.Stage.Passes
import MidiRig.Proofs.Session.CountedPlay
import MidiRig.Proofs.Player.Place
import MidiRig.Proofs.Stage.Course
import MidiRig.Proofs.Session.TempoChange
import MidiRig.Proofs.Player.Patterns
import MidiRig.Proofs.Session.Patterns
import MidiRig.Proofs.Stage.Log
import MidiRig.Proofs.Session.Log
import MidiRig.Proofs.Player.Emissions
import MidiRig.Proofs.Session.Steps
import MidiRig.Proofs.Player.Pairs
import MidiRig.Proofs.Session.LetGo
import MidiRig.Proofs.Player.Visits
import MidiRig.Proofs.Stage.Steps
import MidiRig.Proofs.Session.CountedSteps
import MidiRig.Proofs.Player.Countdown
import MidiRig.Proofs.Session.Countdown
import MidiRig.Proofs.Player.Keys
import MidiRig.Proofs.Player.Playhead
import MidiRig.Proofs.Rule.Grammar
import MidiRig.Proofs.Event.Payload
import MidiRig.Proofs.Event.Bytes
import MidiRig.Proofs.Event.Fields
import MidiRig.Proofs.Router.TapTempo
import MidiRig.Proofs.Number.Order
import MidiRig.Proofs.Router.Counters
import MidiRig.Proofs.Player.Seeks
import MidiRig.Proofs.Player.Jumps
import MidiRig.Proofs.Player.Bars
import MidiRig.Proofs.Session.Drift
import MidiRig.Proofs.Session.Sums

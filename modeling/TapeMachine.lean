import TapeMachine.Main
import TapeMachine.Proofs.Program.Nesting
import TapeMachine.Proofs.Machine.Act
import TapeMachine.Proofs.Machine.Stir
import TapeMachine.Proofs.Schedule.Frame
import TapeMachine.Proofs.Schedule.Move
import TapeMachine.Proofs.Schedule.Stage
import TapeMachine.Proofs.Schedule.Turn
import TapeMachine.Proofs.Schedule.Advance
import TapeMachine.Proofs.Schedule.Sound
import TapeMachine.Proofs.Machine.Later
import TapeMachine.Proofs.Schedule.Past
import TapeMachine.Proofs.Machine.Nested
import TapeMachine.Proofs.Schedule.LoopStack
import TapeMachine.Proofs.Machine.Report
import TapeMachine.Proofs.Schedule.Warning
import TapeMachine.Proofs.Schedule.Alone
import TapeMachine.Proofs.Schedule.Calm
import TapeMachine.Proofs.Schedule.Serial
import TapeMachine.Proofs.Program.Block
import TapeMachine.Proofs.Machine.Store
import TapeMachine.Proofs.Machine.Structured
import TapeMachine.Proofs.Schedule.Structured
import TapeMachine.Proofs.Schedule.Heed
import TapeMachine.Proofs.Schedule.Roster
import TapeMachine.Proofs.Schedule.RunLoop
import TapeMachine.Proofs.Schedule.Script
import TapeMachine.Proofs.Session.Serve
import TapeMachine.Proofs.Session.Phase
import TapeMachine.Proofs.Session.Attend
import TapeMachine.Proofs.Session.Coherence
import TapeMachine.Proofs.Session.Access
import TapeMachine.Proofs.Session.Reentrance
import TapeMachine.Proofs.Machine.Core
import TapeMachine.Proofs.Schedule.Spent
import TapeMachine.Proofs.Schedule.Lapse
import TapeMachine.Proofs.Schedule.Aged
import TapeMachine.Proofs.Schedule.Solo
import TapeMachine.Proofs.Schedule.Reset
import TapeMachine.Proofs.Schedule.Control
import TapeMachine.Proofs.Schedule.Layer
import TapeMachine.Proofs.Schedule.Exclusion
import TapeMachine.Proofs.Schedule.Entry
import TapeMachine.Proofs.Schedule.Stop
import TapeMachine.Proofs.Schedule.Request
import TapeMachine.Proofs.Session.Contact
import TapeMachine.Proofs.Session.Drive
import TapeMachine.Proofs.Session.Gone
import TapeMachine.Proofs.Session.Discard
import TapeMachine.Proofs.Program.Rank
import TapeMachine.Proofs.Machine.Stripped
import TapeMachine.Proofs.Machine.Scene
import TapeMachine.Proofs.Machine.Whole
import TapeMachine.Proofs.Schedule.Single
import TapeMachine.Proofs.Schedule.Row
import TapeMachine.Proofs.Schedule.Stripped
import TapeMachine.Proofs.Schedule.Recut
import TapeMachine.Proofs.Schedule.Queue
import TapeMachine.Proofs.Schedule.Conservation
import TapeMachine.Proofs.Session.Custody
import TapeMachine.Proofs.Machine.Bounds
import TapeMachine.Proofs.Schedule.Bounds
import TapeMachine.Proofs.Session.Fresh
import TapeMachine.Proofs.Text.Lines
import TapeMachine.Proofs.Program.Location
import TapeMachine.Proofs.Program.Place
import TapeMachine.Proofs.Session.Marker
import TapeMachine.Proofs.Encoding.Utf8
import TapeMachine.Proofs.Encoding.WellFormed
import TapeMachine.Proofs.Text.Numeral
import TapeMachine.Proofs.Files.Load
import TapeMachine.Proofs.CommandLine.Arguments
import TapeMachine.Proofs.CommandLine.RunCommand
import TapeMachine.Proofs.CommandLine.Settings
import TapeMachine.Proofs.Run.Tended
import TapeMachine.Proofs.Run.Complete
import TapeMachine.Proofs.Run.Driver
import TapeMachine.Proofs.Run.Lifetime
import TapeMachine.Proofs.Run.Trace
import TapeMachine.Proofs.Machine.Counting
import TapeMachine.Proofs.Schedule.Counting
import TapeMachine.Proofs.Schedule.Pending
import TapeMachine.Proofs.Schedule.Restore
import TapeMachine.Proofs.Schedule.Refusal
import TapeMachine.Proofs.Machine.Reading
import TapeMachine.Proofs.Schedule.Reading
import TapeMachine.Proofs.Program.Partner
import TapeMachine.Proofs.Program.Diagnostic
import TapeMachine.Proofs.Machine.Widened
import TapeMachine.Proofs.Schedule.Widened
import TapeMachine.Proofs.Run.Relay
import TapeMachine.Proofs.Text.Columns
import TapeMachine.Proofs.Tape.Window
import TapeMachine.Proofs.Text.Quoted
import TapeMachine.Proofs.Failure.MemorySize
import TapeMachine.Proofs.Program.Landing
import TapeMachine.Proofs.Schedule.Landing
import TapeMachine.Proofs.Text.Ended
import TapeMachine.Proofs.Schedule.Stream

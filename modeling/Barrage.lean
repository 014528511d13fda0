import Barrage.Bullet.Basic
import Barrage.Bullet.Pool
import Barrage.Expr.Basic
import Barrage.Expr.Parser
import Barrage.Geometry
import Barrage.Handle
import Barrage.Json.Basic
import Barrage.Json.Number
import Barrage.Json.Reader
import Barrage.Json.Writer
import Barrage.Library.Basic
import Barrage.Library.Folder
import Barrage.Library.Source
import Barrage.Main
import Barrage.Markup.Attribute
import Barrage.Markup.Bytes
import Barrage.Markup.Entity
import Barrage.Markup.Event
import Barrage.Number.Binary32
import Barrage.Number.Random
import Barrage.Number.Shortest
import Barrage.Pattern.Basic
import Barrage.Pattern.Document
import Barrage.Pattern.Element
import Barrage.Pattern.Error
import Barrage.Pattern.Node
import Barrage.Runner
import Barrage.Settings.Basic
import Barrage.Settings.Codec
import Barrage.Simulation.Basic
import Barrage.Simulation.Binding
import Barrage.Simulation.Context
import Barrage.Simulation.Fire
import Barrage.Simulation.Frame
import Barrage.Simulation.Resolution
import Barrage.Simulation.Run
import Barrage.Simulation.Turn
import Barrage.Store
import Barrage.Task.Arena
import Barrage.Task.Basic
import Barrage.Text.Blank
import Barrage.Text.Digits
import Barrage.Text.Utf8
import Barrage.Proofs.Store
import Barrage.Proofs.Arena
import Barrage.Proofs.Forest
import Barrage.Proofs.Pool
import Barrage.Proofs.Binding
import Barrage.Proofs.Bound
import Barrage.Proofs.Trace
import Barrage.Proofs.Fit
import Barrage.Proofs.Leaves
import Barrage.Proofs.Turn
import Barrage.Proofs.Execution
import Barrage.Proofs.Owned
import Barrage.Proofs.Orderly
import Barrage.Proofs.Frame
import Barrage.Proofs.Host
import Barrage.Proofs.Ownership
import Barrage.Proofs.FrameOrder
import Barrage.Proofs.Safety
import Barrage.Proofs.Validation
import Barrage.Proofs.PoolHistory
import Barrage.Proofs.Firing
import Barrage.Proofs.Sequence
import Barrage.Proofs.Chains
import Barrage.Proofs.Termination
import Barrage.Proofs.Play
import Barrage.Proofs.Shows
import Barrage.Proofs.Enacting
import Barrage.Proofs.Portrayal
import Barrage.Proofs.Acting
import Barrage.Proofs.Coupling
import Barrage.Proofs.Performance
import Barrage.Proofs.Spares
import Barrage.Proofs.Family
import Barrage.Proofs.Isolation
import Barrage.Proofs.Depth
import Barrage.Proofs.Accounting
import Barrage.Proofs.Lexing
import Barrage.Proofs.Grammar
import Barrage.Proofs.Nesting
import Barrage.Proofs.Outline
import Barrage.Proofs.Shape
import Barrage.Proofs.Truncation
import Barrage.Proofs.Headroom
import Barrage.Proofs.Thrives
import Barrage.Proofs.Loading
import Barrage.Proofs.Transparency
import Barrage.Proofs.Splicing
import Barrage.Proofs.Unrolling
import Barrage.Proofs.EmptyTags
import Barrage.Proofs.Cache
import Barrage.Proofs.Listing
import Barrage.Proofs.Saving
import Barrage.Proofs.Grafting
import Barrage.Proofs.Scoping
import Barrage.Proofs.Entering
import Barrage.Proofs.Atomicity
import Barrage.Proofs.Departure
import Barrage.Proofs.Removal
import Barrage.Proofs.Agenda
import Barrage.Proofs.Schedule
import Barrage.Proofs.Timing
import Barrage.Proofs.Tally
import Barrage.Proofs.Eviction
import Barrage.Proofs.Vacancy
import Barrage.Proofs.Labels
import Barrage.Proofs.Levels
import Barrage.Proofs.Reach
import Barrage.Proofs.Lifetimes
import Barrage.Proofs.Height
import Barrage.Proofs.Confinement
import Barrage.Proofs.Counters
import Barrage.Proofs.Checked

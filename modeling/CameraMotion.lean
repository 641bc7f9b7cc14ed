import CameraMotion.Animation.Basic
import CameraMotion.Animation.Mixing
import CameraMotion.Animation.Play
import CameraMotion.Animation.Run
import CameraMotion.Animation.Snapshot
import CameraMotion.Callbacks
import CameraMotion.Channel
import CameraMotion.Clock
import CameraMotion.Config
import CameraMotion.Decimal.Basic
import CameraMotion.Decimal.Shortest
import CameraMotion.Decimal.Significant
import CameraMotion.Declarations
import CameraMotion.Event
import CameraMotion.Follow
import CameraMotion.Follow.Calls
import CameraMotion.Leaf
import CameraMotion.Leaf.Reading
import CameraMotion.Logged
import CameraMotion.Motion
import CameraMotion.Motion.Ramp
import CameraMotion.Plane.Affine
import CameraMotion.Plane.Point
import CameraMotion.Plane.Rect
import CameraMotion.Proofs.Accounting
import CameraMotion.Proofs.Advance
import CameraMotion.Proofs.Alone
import CameraMotion.Proofs.Answers
import CameraMotion.Proofs.Arena
import CameraMotion.Proofs.BiggerChanges
import CameraMotion.Proofs.Capping
import CameraMotion.Proofs.Chains
import CameraMotion.Proofs.Commuting
import CameraMotion.Proofs.Compatible
import CameraMotion.Proofs.Continuity
import CameraMotion.Proofs.Contracts
import CameraMotion.Proofs.Coverage
import CameraMotion.Proofs.Draining
import CameraMotion.Proofs.Exclusivity
import CameraMotion.Proofs.FrameCuts
import CameraMotion.Proofs.Fresh
import CameraMotion.Proofs.History
import CameraMotion.Proofs.Journal
import CameraMotion.Proofs.Keeping
import CameraMotion.Proofs.Kinds
import CameraMotion.Proofs.Landing
import CameraMotion.Proofs.Lasting
import CameraMotion.Proofs.Life
import CameraMotion.Proofs.Lifecycle
import CameraMotion.Proofs.Members
import CameraMotion.Proofs.Moments
import CameraMotion.Proofs.NaturalDurations
import CameraMotion.Proofs.Numbering
import CameraMotion.Proofs.Ownership
import CameraMotion.Proofs.Placement
import CameraMotion.Proofs.Precedence
import CameraMotion.Proofs.Progress
import CameraMotion.Proofs.Promotion
import CameraMotion.Proofs.Punctual
import CameraMotion.Proofs.Rejection
import CameraMotion.Proofs.Relay
import CameraMotion.Proofs.Renaming
import CameraMotion.Proofs.ResolvedView
import CameraMotion.Proofs.Roster
import CameraMotion.Proofs.RoundTrip
import CameraMotion.Proofs.Run
import CameraMotion.Proofs.RunningTime
import CameraMotion.Proofs.Scan
import CameraMotion.Proofs.SideBySide
import CameraMotion.Proofs.SizeOfChange
import CameraMotion.Proofs.SlowestPart
import CameraMotion.Proofs.StraightWay
import CameraMotion.Proofs.Tick
import CameraMotion.Proofs.Transforms
import CameraMotion.Proofs.Tree
import CameraMotion.Proofs.Turns
import CameraMotion.Proofs.Undriven
import CameraMotion.Proofs.VisibleArea
import CameraMotion.PropertyValue
import CameraMotion.Scalar
import CameraMotion.Scalar.Checked
import CameraMotion.Scalar.Double
import CameraMotion.Scalar.Real
import CameraMotion.Scheduler.Answer
import CameraMotion.Scheduler.Arena
import CameraMotion.Scheduler.Basic
import CameraMotion.Scheduler.Cache
import CameraMotion.Scheduler.Frame
import CameraMotion.Scheduler.Insertion
import CameraMotion.Scheduler.Run
import CameraMotion.Timing
import CameraMotion.Timing.Durations
import CameraMotion.Toml.Document
import CameraMotion.Toml.Moment
import CameraMotion.Toml.Number
import CameraMotion.Toml.Quoted
import CameraMotion.Toml.Table
import CameraMotion.Toml.Text
import CameraMotion.Tween
import CameraMotion.Viewport
import CameraMotion.Viewport.Mapped
import CameraMotion.Violation

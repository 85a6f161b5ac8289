import ShadowMount.App
import ShadowMount.Children.Batch
import ShadowMount.Children.Edit
import ShadowMount.Children.MovePlan
import ShadowMount.Children.Schedule
import ShadowMount.Error
import ShadowMount.Log
import ShadowMount.Modules.Basic
import ShadowMount.Modules.Registry
import ShadowMount.Mount.Destroy
import ShadowMount.Mount.Escalate
import ShadowMount.Mount.Measure
import ShadowMount.Mount.Pass
import ShadowMount.Mount.Reconcile
import ShadowMount.Mount.State
import ShadowMount.Native.Channel
import ShadowMount.Native.Hierarchy
import ShadowMount.Native.Platform
import ShadowMount.Node
import ShadowMount.Numeric.Binary64
import ShadowMount.Numeric.ShortestDecimal
import ShadowMount.Operation
import ShadowMount.OrderedMap
import ShadowMount.Proofs.Children.Acceptance
import ShadowMount.Proofs.Children.Edits
import ShadowMount.Proofs.Children.Emptying
import ShadowMount.Proofs.Children.Filling
import ShadowMount.Proofs.Children.Parking
import ShadowMount.Proofs.Children.Schedule
import ShadowMount.Proofs.Core.Reachable
import ShadowMount.Proofs.Mount.Destroy
import ShadowMount.Proofs.Mount.Escalate
import ShadowMount.Proofs.Mount.Reconcile
import ShadowMount.Proofs.Mount.Requests
import ShadowMount.Proofs.Native.Commands
import ShadowMount.Proofs.Native.Flush
import ShadowMount.Proofs.Native.Links
import ShadowMount.Proofs.Native.Mirror
import ShadowMount.Proofs.Native.Replay
import ShadowMount.Proofs.Outcome
import ShadowMount.Proofs.Tree.Edits
import ShadowMount.Proofs.Tree.Links
import ShadowMount.Proofs.Tree.Relink
import ShadowMount.Proofs.Tree.Trim
import ShadowMount.Proofs.Tree.Walks
import ShadowMount.Proofs.Ui.Anchors
import ShadowMount.Proofs.Ui.Effects
import ShadowMount.Proofs.Ui.Session
import ShadowMount.Proofs.Ui.Transactions
import ShadowMount.Props
import ShadowMount.Sample
import ShadowMount.Tree.Action
import ShadowMount.Tree.Basic
import ShadowMount.Tree.Edit
import ShadowMount.Tree.Outline
import ShadowMount.Tree.Walk
import ShadowMount.Ui.Basic
import ShadowMount.Ui.Command
import ShadowMount.Ui.Managers
import ShadowMount.Proofs.Core.Shape
import ShadowMount.Proofs.Ui.MountFlags
import ShadowMount.Proofs.Ui.Emission
import ShadowMount.Proofs.Ui.Journal
import ShadowMount.Proofs.Ui.Creates
import ShadowMount.Proofs.Ui.Drops
import ShadowMount.Proofs.Ui.Requests
import ShadowMount.Proofs.Ui.Sends
import ShadowMount.Proofs.Ui.FrameReports
import ShadowMount.Proofs.Native.Exchange
import ShadowMount.Proofs.Mount.Blind
import ShadowMount.Proofs.Native.Contents
import ShadowMount.Proofs.Ui.Pruning
import ShadowMount.Proofs.Ui.Reuse
import ShadowMount.Proofs.Modules.Lifecycle
import ShadowMount.Proofs.Mount.Itinerary
import ShadowMount.Proofs.Core.Quiescence
import ShadowMount.Proofs.Core.Escalation
import ShadowMount.Proofs.Children.Effect
import ShadowMount.Proofs.Children.Prepending
import ShadowMount.Proofs.Mount.Journeys
import ShadowMount.Proofs.Core.Climb
import ShadowMount.Proofs.Core.Backing
import ShadowMount.Proofs.Mount.Placement
import ShadowMount.Proofs.Core.Accuracy
import ShadowMount.Proofs.Core.Agreement
import ShadowMount.Proofs.Native.Upkeep
import ShadowMount.Proofs.Core.Targets
import ShadowMount.Proofs.Core.Measurement
import ShadowMount.Proofs.Native.Record
import ShadowMount.Proofs.Ui.LastFrames
import ShadowMount.Proofs.Ui.LayoutParents
import ShadowMount.Proofs.Props.Deltas
import ShadowMount.Proofs.Core.Subtrees
import ShadowMount.Proofs.Tree.Traversals
import ShadowMount.Proofs.Tree.Bounds
import ShadowMount.Proofs.Core.Recursions
import ShadowMount.Proofs.Core.Termination
import ShadowMount.Proofs.Native.Portraits
import ShadowMount.Proofs.Ui.Snapshots
import ShadowMount.Proofs.Children.MoveOrders

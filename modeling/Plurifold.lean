import Plurifold.Core
import Plurifold.Scheduler
import Plurifold.Planner.Reduction
import Plurifold.Planner.FusionSearch
import Plurifold.Planner.Timeline
import Plurifold.Planner.Greedy
import Plurifold.Planner.RoleGraph
import Plurifold.Planner.Preview
import Plurifold.Fabric.Run
import Plurifold.Fabric.Lifecycle
import Plurifold.Fabric.Lease
import Plurifold.Fabric.Epoch
import Plurifold.Fabric.Accepted
import Plurifold.Fabric.Graph
import Plurifold.Fabric.Objects
import Plurifold.Fabric.Tiling
import Plurifold.Fabric.Ledger
import Plurifold.Fabric.Sound
import Plurifold.Fabric.View
import Plurifold.Fabric.Materialize
import Plurifold.Fabric.Chains
import Plurifold.Fabric.Settle
import Plurifold.Fabric.Refinement
import Plurifold.Fabric.Consistent
import Plurifold.Fabric.Stable
import Plurifold.Fabric.Wiring
import Plurifold.Fabric.FanIn
import Plurifold.Fabric.Isolation
import Plurifold.Fabric.Atomic
import Plurifold.Fabric.Unstuck
import Plurifold.Fabric.Live
import Plurifold.Fabric.Table
import Plurifold.Fabric.Origin
import Plurifold.Fabric.Delivery
import Plurifold.Agent.Pipeline
import Plurifold.Agent.Sum
import Plurifold.Agent.Replicas
import Plurifold.Agent.AcceptedPipeline
import Plurifold.Agent.ConcurrentPut
import Plurifold.Coordinator.Poll
import Plurifold.Coordinator.Links
import Plurifold.Coordinator.Booking
import Plurifold.Coordinator.Calls
import Plurifold.Coordinator.Attempts
import Plurifold.Coordinator.Answers
import Plurifold.Agent.Alone
import Plurifold.System.Site
import Plurifold.System.Invariant
import Plurifold.System.Steps
import Plurifold.System.Rules
import Plurifold.System.Routines
import Plurifold.System.Executions
import Plurifold.System.Safety
import Plurifold.System.Meaning
import Plurifold.System.Results
import Plurifold.System.Valuation
import Plurifold.System.Outcomes
import Plurifold.System.Totals
import Plurifold.System.Agreement

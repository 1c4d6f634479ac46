import ConduitRuntime.Http.Connections
import ConduitRuntime.Http.Consequences
import ConduitRuntime.Http.Isolation
import ConduitRuntime.Http.Layout
import ConduitRuntime.Http.Leftover
import ConduitRuntime.Http.RoundTrip
import ConduitRuntime.Memory.FreeCount
import ConduitRuntime.Memory.Handover
import ConduitRuntime.Memory.PinnedSafety
import ConduitRuntime.Memory.PoolSafety
import ConduitRuntime.Memory.SlabSafety
import ConduitRuntime.Memory.ThrowingMake
import ConduitRuntime.Net.CounterWrap
import ConduitRuntime.Net.PooledLink
import ConduitRuntime.Net.TcpSender
import ConduitRuntime.Net.TxRing
import ConduitRuntime.Net.WirePadding
import ConduitRuntime.Ownership.Conservation
import ConduitRuntime.Pipeline.Reclaim
import ConduitRuntime.Programs.GracefulDrain
import ConduitRuntime.Programs.NetworkRouting
import ConduitRuntime.Programs.PooledDrain
import ConduitRuntime.Programs.PooledRouting
import ConduitRuntime.Programs.PooledSharding
import ConduitRuntime.Programs.ShardingEnds
import ConduitRuntime.Ring.SpscFifo
import ConduitRuntime.Ring.SpscRing
import ConduitRuntime.Routing.Fairness
import ConduitRuntime.Routing.FanFifo
import ConduitRuntime.Routing.FanSafety
import ConduitRuntime.Runtime.MeshDelivery
import ConduitRuntime.Runtime.Polling
import ConduitRuntime.Storage.ReplayExact
import ConduitRuntime.Storage.ReplaySafety
import ConduitRuntime.Storage.RoundTrip
import ConduitRuntime.Supplemental.EnvironmentRuns
import ConduitRuntime.Supplemental.Exporter
import ConduitRuntime.Supplemental.LoadGenerator
import ConduitRuntime.Supplemental.Logger
import ConduitRuntime.Supplemental.Telemetry
import ConduitRuntime.Timing.ClockNode
import ConduitRuntime.Timing.DelayOrder
import ConduitRuntime.Timing.LateCancel
import ConduitRuntime.Timing.MoeDispatcher
import ConduitRuntime.Timing.WheelExact
import ConduitRuntime.Workflow.StateMachine

import MEADcast.Datagram
import MEADcast.Header
import MEADcast.Lib.Atoi
import MEADcast.Lib.Block
import MEADcast.Lib.Forest
import MEADcast.Lib.Fuel
import MEADcast.Lib.Inet
import MEADcast.Lib.Loop
import MEADcast.Lib.Memory
import MEADcast.Lib.OnesSum
import MEADcast.Lib.OrderedTree
import MEADcast.Lib.ParentMap
import MEADcast.Lib.Reach
import MEADcast.Lib.Refines
import MEADcast.Lib.Similar
import MEADcast.Lib.Swarm
import MEADcast.Lib.TimerFd
import MEADcast.Lib.TreePath
import MEADcast.Network.Boot
import MEADcast.Network.Discovery
import MEADcast.Network.EndToEnd
import MEADcast.Network.EventLoop
import MEADcast.Network.ExactlyOnce
import MEADcast.Network.LinkLoad
import MEADcast.Network.Lossless
import MEADcast.Network.OctetSystem
import MEADcast.Network.OnWire
import MEADcast.Network.Passage
import MEADcast.Network.Published
import MEADcast.Network.SendFailures
import MEADcast.Network.SharedBuffer
import MEADcast.Network.Sketch
import MEADcast.Network.Stabilization
import MEADcast.Network.System
import MEADcast.Network.Validity
import MEADcast.Network.WireFormat
import MEADcast.Router.Bounds
import MEADcast.Router.Conservation
import MEADcast.Router.Csum
import MEADcast.Router.Data
import MEADcast.Router.DataSpec
import MEADcast.Router.Failures
import MEADcast.Router.Forward
import MEADcast.Router.Integrity
import MEADcast.Router.Octets
import MEADcast.Router.SkBuff
import MEADcast.Router.Travel
import MEADcast.Router.WellFormed
import MEADcast.Segments
import MEADcast.Sender.Arguments
import MEADcast.Sender.ArrivalOrder
import MEADcast.Sender.Buffers
import MEADcast.Sender.Checksum
import MEADcast.Sender.Component
import MEADcast.Sender.Consistency
import MEADcast.Sender.Coverage
import MEADcast.Sender.Delivery
import MEADcast.Sender.Designated
import MEADcast.Sender.Discover
import MEADcast.Sender.GreedySpec
import MEADcast.Sender.Group
import MEADcast.Sender.Grouping
import MEADcast.Sender.Headers
import MEADcast.Sender.HeapView
import MEADcast.Sender.Inv
import MEADcast.Sender.Isolation
import MEADcast.Sender.Leaders
import MEADcast.Sender.List
import MEADcast.Sender.MergeRange
import MEADcast.Sender.Narrow
import MEADcast.Sender.Node
import MEADcast.Sender.PackSpec
import MEADcast.Sender.Partition
import MEADcast.Sender.PathSearch
import MEADcast.Sender.Phase
import MEADcast.Sender.Plan
import MEADcast.Sender.PlanMap
import MEADcast.Sender.PlanSpec
import MEADcast.Sender.Progress
import MEADcast.Sender.Pruning
import MEADcast.Sender.Rebuild
import MEADcast.Sender.ReduceSpec
import MEADcast.Sender.ResetSpec
import MEADcast.Sender.RouterTree
import MEADcast.Sender.Rx
import MEADcast.Sender.RxBuffer
import MEADcast.Sender.RxSpec
import MEADcast.Sender.Span
import MEADcast.Sender.Strays
import MEADcast.Sender.Timeout
import MEADcast.Sender.Together
import MEADcast.Sender.Topology
import MEADcast.Sender.Tree
import MEADcast.Sender.TreeInvariant
import MEADcast.Sender.TreeSpec
import MEADcast.Sender.Tx
import MEADcast.Sender.TxBuffer
import MEADcast.Sender.View
import MEADcast.Sender.Visits
import MEADcast.Sender.WalkSpec
import MEADcast.Testbed.AddressPlan
import MEADcast.Wire

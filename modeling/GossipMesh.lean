import GossipMesh.Foundation.Transition
import GossipMesh.Foundation.Word
import GossipMesh.Foundation.Wire
import GossipMesh.Foundation.FifoFlood
import GossipMesh.Foundation.Blocks
import GossipMesh.Foundation.Paths
import GossipMesh.Foundation.Interleaving
import GossipMesh.Foundation.Mutex
import GossipMesh.Foundation.Channel
import GossipMesh.Overlay.Reclassify
import GossipMesh.Overlay.Clusters
import GossipMesh.Overlay.Partition
import GossipMesh.Overlay.Diversity
import GossipMesh.Overlay.Sampling
import GossipMesh.Overlay.FanOut
import GossipMesh.Overlay.Nearest
import GossipMesh.Overlay.RandomPeers
import GossipMesh.Engine.Ordered
import GossipMesh.Engine.OrderedProgress
import GossipMesh.Engine.OrderedWindow
import GossipMesh.Engine.OrderedTimers
import GossipMesh.Engine.OrderedSteps
import GossipMesh.Engine.OrderedRaces
import GossipMesh.Engine.OrderedAlone
import GossipMesh.Engine.Seen
import GossipMesh.Engine.SeenSteps
import GossipMesh.Engine.SeenHistory
import GossipMesh.Engine.Priming
import GossipMesh.Engine.Batch
import GossipMesh.Engine.BatchCodec
import GossipMesh.Engine.BatchGrammar
import GossipMesh.Engine.Buffering
import GossipMesh.Engine.EagerStream
import GossipMesh.Engine.EagerWriter
import GossipMesh.Engine.EagerSenders
import GossipMesh.Engine.Repair
import GossipMesh.Engine.RepairCache
import GossipMesh.Engine.Engine
import GossipMesh.Engine.SeqRange
import GossipMesh.Engine.RepairPull
import GossipMesh.Engine.Channels
import GossipMesh.Engine.Arrival
import GossipMesh.Engine.Reorder
import GossipMesh.Engine.Unprimed
import GossipMesh.Engine.Echo
import GossipMesh.Transport.Pool
import GossipMesh.Transport.Dialing
import GossipMesh.Objstore.MemoryStore
import GossipMesh.Objstore.Versions
import GossipMesh.Objstore.Scan
import GossipMesh.Bootstrap.ClusterCA
import GossipMesh.Bootstrap.Registry
import GossipMesh.Bootstrap.Discovery
import GossipMesh.Engine.Task
import GossipMesh.Cluster.Cluster
import GossipMesh.Cluster.Flood
import GossipMesh.Cluster.Integrity
import GossipMesh.Cluster.Serving
import GossipMesh.Cluster.Marks
import GossipMesh.Cluster.Forwarding
import GossipMesh.Cluster.Lossless
import GossipMesh.Cluster.LosslessNode
import GossipMesh.Cluster.Completeness
import GossipMesh.Transport.Dispatch
import GossipMesh.Relay.Relay
import GossipMesh.Natutil.Reflect
import GossipMesh.Mesh.Wire
import GossipMesh.Mesh.Membership
import GossipMesh.Mesh.Mesh
import GossipMesh.Mesh.Meta
import GossipMesh.Mesh.Order
import GossipMesh.Mesh.View
import GossipMesh.Mesh.Advertising
import GossipMesh.S3nat.Registration
import GossipMesh.S3nat.Connect
import GossipMesh.S3nat.Mutual
import GossipMesh.Holepunch.Signal
import GossipMesh.Holepunch.Pairs
import GossipMesh.Holepunch.Punch

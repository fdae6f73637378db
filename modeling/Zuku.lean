import Zuku.ShardedArrayCreate
import Zuku.BroadcastGroups
import Zuku.ReplicatedPointToPoint
import Zuku.SliceBounds
import Zuku.TileShard
import Zuku.GatherShards
import Zuku.RendezvousOrder
import Zuku.RendezvousLocal
import Zuku.SequentialTasks
import Zuku.StoreRelease
import Zuku.TaskProgress
import Zuku.ReshardHistory
import Zuku.UniqueIds
import Zuku.BroadcastRoles
import Zuku.ViewTree
import Zuku.ViewMoves
import Zuku.FutureReaders
import Zuku.NestedValues
import Zuku.TokenCoverage
import Zuku.StoreDeletion
import Zuku.StoreNotifications
import Zuku.LocalElements
import Zuku.TileReuse
import Zuku.AgreeingIds
import Zuku.AllocationCounts
import Zuku.Shutdown
import Zuku.DeviceNumbering
import Zuku.DifferingDimension
import Zuku.InstanceCache
import Zuku.MovedArray
import Zuku.RendezvousCompletes
import Zuku.StreamConsistency
import Zuku.MovedContents
import Zuku.SingleController

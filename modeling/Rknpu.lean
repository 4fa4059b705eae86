import Rknpu.Dispatch
import Rknpu.GangRuns
import Rknpu.Sync
import Rknpu.DomainReset
import Rknpu.PowerUsers
import Rknpu.Idle
import Rknpu.ClearAmount
import Rknpu.Timeline
import Rknpu.Unlink
import Rknpu.Coverage
import Rknpu.TaskBounds
import Rknpu.Completions
import Rknpu.Nodes
import Rknpu.Abort
import Rknpu.BusyTime
import Rknpu.Reset
import Rknpu.DomainSwitch
import Rknpu.PowerRelease
import Rknpu.CacheSync
import Rknpu.SyncExact
import Rknpu.MmapRange
import Rknpu.PageCount
import Rknpu.InFence
import Rknpu.IrqClear
import Rknpu.Overdue
import Rknpu.SyncWalk
import Rknpu.Create
import Rknpu.ObjectDomain
import Rknpu.GemClients
import Rknpu.GangSpec
import Rknpu.DomainTable
import Rknpu.Lifecycle
import Rknpu.PowerSettle
import Rknpu.Debugfs

import Ladybug.Storage.Equiv.AppendBatches
import Ladybug.Storage.Equiv.NodeGroupCollection
import Ladybug.Wal.Equiv.LogPrefix
import Ladybug.Wal.Equiv.BufferedRoundTrip
import Ladybug.Storage.Equiv.NodeTable
import Ladybug.Storage.Equiv.PageReuse
import Ladybug.Storage.Equiv.PopFreePages
import Ladybug.Storage.Equiv.FreeSpaceSerialization
import Ladybug.Storage.Equiv.CsrHeader
import Ladybug.Storage.Equiv.DeleteConflict
import Ladybug.Storage.Equiv.DiskArrayInPlace
import Ladybug.Index.Equiv.HashIndexReserve
import Ladybug.Index.Equiv.InMemSize
import Ladybug.Storage.Equiv.SegmentCheckpoint
import Ladybug.Storage.Equiv.UndoMemoryBuffer
import Ladybug.Storage.Equiv.CSRIndex
import Ladybug.Storage.Equiv.ZoneMap
import Ladybug.Optimizer.Equiv.LimitPushDown
import Ladybug.Catalog.Equiv.Sequence
import Ladybug.Common.Equiv.Interval
import Ladybug.Transaction.Equiv.FailedCommit

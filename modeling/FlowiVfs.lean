import FlowiVfs.Program
import FlowiVfs.ChainedClose
import FlowiVfs.ChainedOrder
import FlowiVfs.Readiness
import FlowiVfs.HandleIds
import FlowiVfs.ReleaseHooks
import FlowiVfs.LocalExecutor
import FlowiVfs.TaskCancel
import FlowiVfs.MappedRead
import FlowiVfs.WorkerReads
import FlowiVfs.MountOwnership
import FlowiVfs.MountContainers
import FlowiVfs.TreeRuns
import FlowiVfs.MountStatus
import FlowiVfs.ListingContents
import FlowiVfs.ListingVersions
import FlowiVfs.ArchiveSizes
import FlowiVfs.ArchiveChildren
import FlowiVfs.InsertionSort
import FlowiVfs.WatcherPaths
import FlowiVfs.CancelTiming
import FlowiVfs.ReadContents
import FlowiVfs.ResultChannels
import FlowiVfs.MappedOutcome
import FlowiVfs.WriteCopies
import FlowiVfs.ReadOwnership
import FlowiVfs.ArchiveOwnership
import FlowiVfs.DoublyLinked
import FlowiVfs.DriverList
import FlowiVfs.ArchiveFlag
import FlowiVfs.ChildOrder
import FlowiVfs.FilteredListing
import FlowiVfs.JobWaits
import FlowiVfs.WaitAll
import FlowiVfs.BorrowedMemory
import FlowiVfs.WindowCounters
import FlowiVfs.SegmentRanges
import FlowiVfs.CloneOwnership
import FlowiVfs.ReadContinuation
import FlowiVfs.HeldNames
import FlowiVfs.HeldNodes
import FlowiVfs.WatchedWalks
import FlowiVfs.OwnedNames
import FlowiVfs.Custody
import FlowiVfs.HandleUses
import FlowiVfs.NodeHandles
import FlowiVfs.HandleLedger
import FlowiVfs.HandleFootprint
import FlowiVfs.ReservedHandles
import FlowiVfs.WorkerCalls
import FlowiVfs.WorkerTickets
import FlowiVfs.WorkerProcess
import FlowiVfs.WorkerGuarantees
import FlowiVfs.CallReturns
import FlowiVfs.OpenMounts
import FlowiVfs.UpdateWalk

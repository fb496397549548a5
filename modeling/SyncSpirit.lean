import SyncSpirit.Proto
import SyncSpirit.Version
import SyncSpirit.FileInfo
import SyncSpirit.Resolver
import SyncSpirit.Convergence
import SyncSpirit.Lib.VectorClock
import SyncSpirit.Lib.Run
import SyncSpirit.VersionHistory
import SyncSpirit.Diff
import SyncSpirit.DiffAssembler
import SyncSpirit.IterativeController
import SyncSpirit.Lib.Splice
import SyncSpirit.Lib.Fallible
import SyncSpirit.Lib.Forest
import SyncSpirit.FileActor
import SyncSpirit.Lib.Backlink
import SyncSpirit.Store
import SyncSpirit.FileUpdate
import SyncSpirit.FolderInfo
import SyncSpirit.UpdateFolder
import SyncSpirit.UpdateFolderSpec
import SyncSpirit.IndexMessage
import SyncSpirit.FileDb
import SyncSpirit.Advance
import SyncSpirit.Availability
import SyncSpirit.AvailabilityRun
import SyncSpirit.Network
import SyncSpirit.Lib.Keyed
import SyncSpirit.Sharing
import SyncSpirit.ClusterUpdate
import SyncSpirit.ClusterUpdateSpec
import SyncSpirit.Introductions
import SyncSpirit.Lib.Wire
import SyncSpirit.Relay
import SyncSpirit.Bep
import SyncSpirit.Lib.LexicalPath
import SyncSpirit.FilePath
import SyncSpirit.LocalUpdate
import SyncSpirit.AdvanceDiff
import SyncSpirit.AdvanceSpec
import SyncSpirit.AdvanceRun
import SyncSpirit.AdvanceContent
import SyncSpirit.LocalBatch
import SyncSpirit.PostponedFiles
import SyncSpirit.Controller
import SyncSpirit.ControllerSpec
import SyncSpirit.Lib.Tally
import SyncSpirit.BlockRequests
import SyncSpirit.WriteBudget
import SyncSpirit.LocalDifference
import SyncSpirit.Watcher
import SyncSpirit.Coalescing
import SyncSpirit.WatcherRun
import SyncSpirit.WatchTable
import SyncSpirit.WatchTree
import SyncSpirit.WatchRename
import SyncSpirit.UpdatesStreamer
import SyncSpirit.UpdatesOrder
import SyncSpirit.BlockLocks
import SyncSpirit.FileTransfer
import SyncSpirit.Lib.Totals
import SyncSpirit.Presentation
import SyncSpirit.UpdateFolderRun
import SyncSpirit.IndexBlocks
import SyncSpirit.IndexValidation
import SyncSpirit.IndexRepeat
import SyncSpirit.Scheduler
import SyncSpirit.PeerState
import SyncSpirit.PeerActor
import SyncSpirit.HashBudget
import SyncSpirit.FolderEntity
import SyncSpirit.FolderTree
import SyncSpirit.PresentationTotals
import SyncSpirit.PresentationInsert
import SyncSpirit.PresentationRun
import SyncSpirit.VersionBumps
import SyncSpirit.Lib.Champion
import SyncSpirit.LocalOriginal
import SyncSpirit.BestFile
import SyncSpirit.OrphanedBlocks
import SyncSpirit.BlockOffset
import SyncSpirit.Lib.Quota
import SyncSpirit.IndexPush
import SyncSpirit.TransmitOrder
import SyncSpirit.LocalBlocks
import SyncSpirit.Lib.SortedSet
import SyncSpirit.FileIterator
import SyncSpirit.Renewal
import SyncSpirit.FileIteratorSpec
import SyncSpirit.FileIteratorNext
import SyncSpirit.FileIteratorRun
import SyncSpirit.FileIteratorComplete
import SyncSpirit.FileIteratorQueues
import SyncSpirit.UpdatesMediator
import SyncSpirit.MaskCredits
import SyncSpirit.Lib.Postorder
import SyncSpirit.ScanDeletions
import SyncSpirit.Lib.Cut
import SyncSpirit.HashSegments
import SyncSpirit.WatchNotify
import SyncSpirit.Lib.Radix
import SyncSpirit.Base32
import SyncSpirit.DeviceText
import SyncSpirit.CanonicalIds
import SyncSpirit.ShortIds
import SyncSpirit.ScanStack
import SyncSpirit.ScanStackRun
import SyncSpirit.PeerRequests
import SyncSpirit.PeerServing
import SyncSpirit.PullOrder
import SyncSpirit.FileMap
import SyncSpirit.Base32Counters
import SyncSpirit.BlockRefs
import SyncSpirit.Lib.Columns
import SyncSpirit.WindowsNames
import SyncSpirit.Lib.Segments
import SyncSpirit.PathPieces
import SyncSpirit.FolderSync
import SyncSpirit.LateAnswers
import SyncSpirit.HandleRename
import SyncSpirit.RenameBatch
import SyncSpirit.Lib.WriteLog
import SyncSpirit.Database
import SyncSpirit.DatabaseFrame
import SyncSpirit.DatabaseAdvance
import SyncSpirit.DatabaseIndex
import SyncSpirit.DatabaseRun
import SyncSpirit.DatabaseStale
import SyncSpirit.DatabaseLoad
import SyncSpirit.DatabaseReload
import SyncSpirit.DatabaseRestart

import OSProjects.Foundation.ByteMemory
import OSProjects.Foundation.CString
import OSProjects.Foundation.VersionedLog
import OSProjects.Foundation.StepSystem
import OSProjects.Wfs.Layout
import OSProjects.Wfs.Mount
import OSProjects.Wfs.Tools
import OSProjects.Wfs.LogView
import OSProjects.Wfs.Directory
import OSProjects.Wfs.Path
import OSProjects.Wfs.Effects
import OSProjects.Wfs.Versions
import OSProjects.Wfs.Calls
import OSProjects.Wfs.Runs
import OSProjects.Wfs.Namespace
import OSProjects.Wfs.InodeNumbers
import OSProjects.Wfs.NumberInvariant
import OSProjects.Wfs.Uniqueness
import OSProjects.Wfs.Execution
import OSProjects.Wfs.LogShape
import OSProjects.Wfs.Tree
import OSProjects.Wfs.Refinement
import OSProjects.Wfs.Contents
import OSProjects.Wfs.Unlink
import OSProjects.Wfs.CompactLoop
import OSProjects.Wfs.Compaction
import OSProjects.Xv6.Machine
import OSProjects.Xv6.Vm
import OSProjects.Xv6.File
import OSProjects.Xv6.Mmap
import OSProjects.Xv6.Proc
import OSProjects.Xv6.Mapping
import OSProjects.Xv6.VmaTable
import OSProjects.Xv6.Boot
import OSProjects.Foundation.Loop
import OSProjects.Foundation.ReferenceCount
import OSProjects.Xv6.Panics
import OSProjects.Xv6.References
import OSProjects.Foundation.StableOrder
import OSProjects.Proxy.SafeQueue
import OSProjects.Proxy.QueueBounds
import OSProjects.Proxy.Threads
import OSProjects.Foundation.StringSearch
import OSProjects.Proxy.Request
import OSProjects.Proxy.Malformed
import OSProjects.Proxy.Listeners
import OSProjects.Foundation.LeastScan
import OSProjects.Scheduler.Table
import OSProjects.Scheduler.Conserving
import OSProjects.Scheduler.RoundRobin
import OSProjects.Shell.Jobs
import OSProjects.Shell.Tracking
import OSProjects.Wfs.Stores
import OSProjects.Wfs.Space
import OSProjects.Wfs.Atomicity
import OSProjects.Wfs.NoRoom
import OSProjects.Xv6.Allocation
import OSProjects.Xv6.PageLoop
import OSProjects.Xv6.Fixed
import OSProjects.Xv6.Growth
import OSProjects.Xv6.GrowthLaws
import OSProjects.Xv6.Unmap
import OSProjects.Xv6.FilePages
import OSProjects.Proxy.Descriptors
import OSProjects.Proxy.SharedCursor
import OSProjects.Foundation.LineReading
import OSProjects.Manual.Wgroff
import OSProjects.Manual.Wapropos
import OSProjects.Manual.Agreement
import OSProjects.Xv6.Fork
import OSProjects.Xv6.Inheritance
import OSProjects.Xv6.Exec
import OSProjects.Proxy.Classification
import OSProjects.Xv6.Pinned
import OSProjects.Wfs.Parents
import OSProjects.Scheduler.Sleeping
import OSProjects.Scheduler.Charging
import OSProjects.Xv6.WriteBack
import OSProjects.Wfs.LongNames
import OSProjects.Wfs.Listing
import OSProjects.Xv6.Acts
import OSProjects.Xv6.Clearing
import OSProjects.Xv6.SafeUnmap
import OSProjects.Xv6.Recycling
import OSProjects.Foundation.Touching
import OSProjects.Foundation.Transfer
import OSProjects.Proxy.Relay
import OSProjects.Proxy.DelayHeader
import OSProjects.Shell.DefaultJob
import OSProjects.Shell.JobBounds
import OSProjects.Shell.PipeLoop
import OSProjects.Shell.Splitting
import OSProjects.Foundation.DescriptorTable
import OSProjects.Shell.Pipes
import OSProjects.Foundation.CharBuffer
import OSProjects.Manual.FormatBuffer
import OSProjects.Manual.SourceLines
import OSProjects.Manual.TitleHeader
import OSProjects.Manual.PageLines
import OSProjects.Manual.Wman
import OSProjects.Xv6.Visits
import OSProjects.Xv6.KeptFiles
import OSProjects.Xv6.SharedFile
import OSProjects.Xv6.LastCat
import OSProjects.Foundation.RedoLog
import OSProjects.Storage.Block
import OSProjects.Storage.Log
import OSProjects.Storage.LogInvariant
import OSProjects.Storage.LogRecovery
import OSProjects.Storage.LogProgress
import OSProjects.Storage.LogSpace
import OSProjects.Foundation.LinkedRing
import OSProjects.Storage.BufferCache
import OSProjects.Storage.BufferInvariant
import OSProjects.Storage.BufferRuns
import OSProjects.Storage.BufferOrder
import OSProjects.Foundation.CircularBuffer
import OSProjects.Xv6.Pipe
import OSProjects.Xv6.PipeRuns
import OSProjects.Foundation.Allocation
import OSProjects.Foundation.PackedRecord
import OSProjects.Storage.Layout
import OSProjects.Storage.Inode
import OSProjects.Storage.BlockOwnership
import OSProjects.Storage.BlockMap
import OSProjects.Storage.Truncation
import OSProjects.Storage.Volumes
import OSProjects.Storage.VolumeRuns
import OSProjects.Foundation.Citations
import OSProjects.Foundation.Rooted
import OSProjects.Storage.LinkRuns
import OSProjects.Storage.Tree
import OSProjects.Storage.MkfsTree

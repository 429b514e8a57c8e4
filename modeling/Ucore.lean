import Ucore.Library.Carried
import Ucore.Library.CircularList
import Ucore.Library.Transition
import Ucore.Library.Spans
import Ucore.Library.DeltaList
import Ucore.Library.SiblingChain
import Ucore.Library.Tally
import Ucore.Library.Ownership
import Ucore.Library.RingBuffer
import Ucore.Library.LinkedRing
import Ucore.Library.PathNames
import Ucore.Library.SkewTree
import Ucore.Library.LinkedTree
import Ucore.Library.Sections
import Ucore.Library.SafeCalls
import Ucore.Libs.Error
import Ucore.Libs.CString
import Ucore.Libs.EmbeddedList
import Ucore.Libs.Memory
import Ucore.Libs.Text
import Ucore.Libs.Strtol
import Ucore.Libs.Printfmt
import Ucore.Libs.PrintFormats
import Ucore.Libs.PrintLoops
import Ucore.Libs.PrintRuns
import Ucore.Libs.Snprintf
import Ucore.Libs.SkewHeap
import Ucore.Driver.Console
import Ucore.Mm.DefaultPmm
import Ucore.Mm.FreeBlocks
import Ucore.Mm.FirstFit
import Ucore.Mm.BestFit
import Ucore.Mm.Slob
import Ucore.Mm.SlobRing
import Ucore.Mm.SlobHeap
import Ucore.Mm.SlobRuns
import Ucore.Mm.Kmalloc
import Ucore.Mm.KmallocRuns
import Ucore.Mm.PageRuns
import Ucore.Mm.PageSafety
import Ucore.Mm.Vmm
import Ucore.Mm.UserMem
import Ucore.Mm.VmaLookup
import Ucore.Mm.UserBytes
import Ucore.Mm.CopyString
import Ucore.Mm.PageTable
import Ucore.Mm.TableTree
import Ucore.Mm.PageRefs
import Ucore.Mm.PageRefRuns
import Ucore.Mm.UnmapRange
import Ucore.Mm.PageMap
import Ucore.Mm.ExitRange
import Ucore.Mm.ExitMmap
import Ucore.Mm.PgFault
import Ucore.Mm.SwapClock
import Ucore.Mm.SwapFifo
import Ucore.Mm.SwapLru
import Ucore.Mm.AllocPages
import Ucore.Mm.SwapFault
import Ucore.Mm.SwapPages
import Ucore.Mm.SwapPlaces
import Ucore.Mm.SwapRuns
import Ucore.Schedule.Sched
import Ucore.Schedule.DefaultSched
import Ucore.Schedule.RoundRobin
import Ucore.Schedule.Timers
import Ucore.Schedule.TimerRuns
import Ucore.Schedule.BoundedWaiting
import Ucore.Sync.Sem
import Ucore.Sync.SemRuns
import Ucore.Sync.Semaphore
import Ucore.Sync.Philosophers
import Ucore.Sync.LockedCalls
import Ucore.Process.ProcTable
import Ucore.Process.ProcessTree
import Ucore.Process.ProcessRuns
import Ucore.Process.ChildWait
import Ucore.Process.ChildWakeups
import Ucore.Process.ChildWaitRuns
import Ucore.Process.GetPid
import Ucore.Process.LoadIcode
import Ucore.Process.LoadImage
import Ucore.Process.LoadReads
import Ucore.Sfs.InodeCache
import Ucore.Sfs.InodeCacheRuns
import Ucore.Sfs.Bitmap
import Ucore.Sfs.BlockIo
import Ucore.Sfs.BlockMap
import Ucore.Sfs.BlockOwnership
import Ucore.Sfs.VolumeRuns
import Ucore.Sfs.SuperMarks
import Ucore.Sfs.SizeBlocks
import Ucore.Sfs.DirtyInodes
import Ucore.Sfs.Mount
import Ucore.Sfs.Dirent
import Ucore.Sfs.Directory
import Ucore.Sfs.DirectoryTree
import Ucore.Sfs.FileContents
import Ucore.Sfs.SfsSync
import Ucore.Sfs.Formatted
import Ucore.Sfs.Remount
import Ucore.Sfs.FreeSet
import Ucore.Sfs.FailedMapping
import Ucore.Sfs.MapLimit
import Ucore.Fs.File
import Ucore.Fs.FileCounts
import Ucore.Fs.FileTables
import Ucore.Fs.FileRuns
import Ucore.Process.ProcFiles
import Ucore.Fs.DevStdin
import Ucore.Fs.Vnode
import Ucore.Fs.VfsFile
import Ucore.Fs.FileCalls
import Ucore.Fs.NodeCounts
import Ucore.Fs.FailedOpen
import Ucore.Fs.CallsKeepFiles
import Ucore.Fs.TreeLookups
import Ucore.Fs.PathWalk
import Ucore.Fs.WorkingDir
import Ucore.Fs.BootFs
import Ucore.Fs.VfsDevList
import Ucore.Fs.DevTable
import Ucore.Fs.ReadOnly
import Ucore.Fs.Iobuf
import Ucore.Sfs.Getdirentry
import Ucore.Fs.NameFile
import Ucore.Fs.NamePath
import Ucore.Fs.Getcwd
import Ucore.Fs.HeldNodes
import Ucore.Fs.HeldSlots
import Ucore.Fs.AppendWrites
import Ucore.Fs.NodeOps
import Ucore.Fs.UsedOps
import Ucore.Fs.NodeMoves
import Ucore.Fs.NodeRuns
import Ucore.Fs.Sysfile
import Ucore.Fs.Disk0
import Ucore.Sfs.SfsIo
import Ucore.Sfs.IoRuns
import Ucore.Sfs.WordIo
import Ucore.Tools.Mksfs
import Ucore.Tools.ImagePointers
import Ucore.Tools.ImageRuns
import Ucore.Tools.CloseImage
import Ucore.Tools.BlockCache
import Ucore.Tools.MountImage
import Ucore.Tools.ImageBlocks
import Ucore.Tools.ImageEntries
import Ucore.Tools.HostTree
import Ucore.Tools.FileData
import Ucore.Tools.HostPaths
import Ucore.Tools.ImageTree
import Ucore.Tools.ImagePaths
import Ucore.Tools.ServedImage
import Ucore.Debug.Kmonitor
import Ucore.User.Gettoken
import Ucore.User.Sh

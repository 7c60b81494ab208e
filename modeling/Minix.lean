import Minix.Lib.Chain
import Minix.Lib.Run
import Minix.Lib.Triple
import Minix.Lib.Outcome
import Minix.Lib.IndexTree
import Minix.Lib.Fields
import Minix.Lib.Layout
import Minix.Lib.Ring
import Minix.MM.Alloc
import Minix.Lib.Extent
import Minix.Lib.Parcels
import Minix.MM.HoleList
import Minix.MM.Memory
import Minix.MM.Mproc
import Minix.MM.ForkExit
import Minix.MM.Exec
import Minix.MM.Signal
import Minix.MM.Main
import Minix.MM.Effects
import Minix.MM.Calls
import Minix.MM.Shape
import Minix.MM.Sizing
import Minix.MM.Partition
import Minix.MM.Incarnations
import Minix.MM.Pids
import Minix.MM.Reaping
import Minix.MM.Replies
import Minix.FS.Filedes
import Minix.FS.Cache
import Minix.FS.CacheChains
import Minix.FS.Coherence
import Minix.FS.Pipe
import Minix.FS.Transfer
import Minix.FS.Ends
import Minix.FS.PipeCalls
import Minix.FS.Waiting
import Minix.FS.Revivals
import Minix.FS.PipeContents
import Minix.Kernel.Sched
import Minix.Kernel.Flags
import Minix.Kernel.Callers
import Minix.Kernel.Proc
import Minix.Kernel.System
import Minix.Kernel.Effects
import Minix.Kernel.ReadyQueues
import Minix.Kernel.RoundRobin
import Minix.Kernel.Calls
import Minix.Kernel.Rendezvous
import Minix.Kernel.Buffers
import Minix.Kernel.Interrupts
import Minix.Kernel.Printer
import Minix.Kernel.Signals
import Minix.Kernel.Umap
import Minix.Kernel.UserCopies
import Minix.Kernel.Memory
import Minix.Kernel.Console
import Minix.FS.Wakeups
import Minix.FS.ReleaseCalls
import Minix.FS.Unpause
import Minix.Kernel.Tty
import Minix.Kernel.TtyQueue
import Minix.Kernel.TtyProtocol
import Minix.Kernel.Clock
import Minix.Kernel.Ticks
import Minix.MM.Tells
import Minix.MM.Adjust
import Minix.Alarms
import Minix.MM.Timers
import Minix.Agreement
import Minix.Maps
import Minix.MM.Capacity
import Minix.Execs
import Minix.FS.Inodes
import Minix.FS.BitMaps
import Minix.FS.MapBuffers
import Minix.FS.Paths
import Minix.FS.PathNames
import Minix.FS.Access
import Minix.FS.NameCalls
import Minix.FS.References
import Minix.FS.ZoneMaps
import Minix.FS.Volumes
import Minix.FS.ZoneTrees
import Minix.FS.ReadWrite
import Minix.FS.Special
import Minix.FS.MapBounds
import Minix.FS.Positions
import Minix.FetchNames
import Minix.StackImages
import Minix.ExecImages
import Minix.Lib.SlotTable
import Minix.FS.Directories
import Minix.FS.FileBlocks
import Minix.Kernel.Winchester
import Minix.Kernel.Floppy
import Minix.Libc.Doprintf
import Minix.Libc.Stdio
import Minix.Libc.Malloc
import Minix.Tools.Image
import Minix.Tools.Zones
import Minix.Tools.Files
import Minix.Tools.PutGet
import Minix.Tools.InodeNumbers
import Minix.Lib.I8088
import Minix.Lib.Segments
import Minix.Kernel.PhysCopy
import Minix.Kernel.VidCopy
import Minix.Kernel.Mpx
import Minix.Kernel.Switching
import Minix.Libsys.SendRec
import Minix.Libsys.CatchSig
import Minix.Kernel.StartMaps
import Minix.Tools.Build
import Minix.BootImages

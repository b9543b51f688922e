import LfsXv6.Lib.ByteFile
import LfsXv6.Lib.Int32Codec
import LfsXv6.Lib.Program
import LfsXv6.Lib.Run
import LfsXv6.Lib.Rpc
import LfsXv6.Lib.Ring
import LfsXv6.Lib.Circular
import LfsXv6.Lib.LinkedQueue
import LfsXv6.Lib.Cursors
import LfsXv6.Lib.SlotTable
import LfsXv6.Lib.Total
import LfsXv6.Linux.Layout
import LfsXv6.Linux.Lfs
import LfsXv6.Linux.ListenServer
import LfsXv6.Linux.Mfs
import LfsXv6.Linux.FileTree
import LfsXv6.Linux.TreeStep
import LfsXv6.Linux.Image
import LfsXv6.Linux.WellFormed
import LfsXv6.Linux.Search
import LfsXv6.Linux.Checkpoint
import LfsXv6.Linux.Refinement
import LfsXv6.Linux.Slots
import LfsXv6.Linux.Update
import LfsXv6.Linux.Write
import LfsXv6.Linux.Creat
import LfsXv6.Linux.Unlink
import LfsXv6.Linux.Serving
import LfsXv6.Linux.Ownership
import LfsXv6.Linux.LastWrite
import LfsXv6.Linux.Rejection
import LfsXv6.Linux.Restart
import LfsXv6.Linux.Entries
import LfsXv6.Linux.Namespace
import LfsXv6.Linux.Findable
import LfsXv6.Linux.Retransmission
import LfsXv6.Linux.Clients
import LfsXv6.Linux.Inodes
import LfsXv6.Linux.Overflow
import LfsXv6.Linux.Determinism
import LfsXv6.Linux.Crash
import LfsXv6.Linux.Removal
import LfsXv6.Linux.Creation
import LfsXv6.Linux.Kinds
import LfsXv6.Xv6.Layout
import LfsXv6.Xv6.Bio
import LfsXv6.Xv6.Fs
import LfsXv6.Xv6.Icache
import LfsXv6.Xv6.Locks
import LfsXv6.Xv6.Bitmap
import LfsXv6.Xv6.Blocks
import LfsXv6.Xv6.Writes
import LfsXv6.Xv6.Truncate
import LfsXv6.Xv6.Accounting
import LfsXv6.Xv6.Allocator
import LfsXv6.Xv6.Contents
import LfsXv6.Xv6.Files
import LfsXv6.Xv6.Checksums
import LfsXv6.Xv6.Corruption
import LfsXv6.Xv6.Pipe
import LfsXv6.Xv6.Proc
import LfsXv6.Xv6.Family
import LfsXv6.Xv6.Scheduler
import LfsXv6.Xv6.UserMemory
import LfsXv6.Xv6.Bcache
import LfsXv6.Xv6.Ide
import LfsXv6.Xv6.Itable
import LfsXv6.Xv6.Lookup
import LfsXv6.Xv6.Directory
import LfsXv6.Xv6.Sysfile
import LfsXv6.Xv6.Mkfs
import LfsXv6.Xv6.MkfsImage
import LfsXv6.Xv6.MkfsPlan
import LfsXv6.Xv6.MkfsLimits
import LfsXv6.Xv6.MkfsLookup
import LfsXv6.Xv6.Vm
import LfsXv6.Xv6.VmPages
import LfsXv6.Xv6.VmCalls
import LfsXv6.Xv6.OutOfMemory
import LfsXv6.Xv6.GrowProc
import LfsXv6.Xv6.NewSpace
import LfsXv6.Xv6.Exec
import LfsXv6.Xv6.Dirlink
import LfsXv6.Xv6.Paths
import LfsXv6.Xv6.Umalloc
import LfsXv6.Xv6.Console
import LfsXv6.Xv6.Grep
import LfsXv6.Xv6.FileTable
import LfsXv6.Xv6.OpenFiles
import LfsXv6.Xv6.Spinlock
import LfsXv6.Xv6.ProgramImage
import LfsXv6.Xv6.Isolation
import LfsXv6.Xv6.Leaks
import LfsXv6.Xv6.Making
import LfsXv6.Xv6.Unlink
import LfsXv6.Xv6.MkfsLinks
import LfsXv6.Xv6.Sh
import LfsXv6.Xv6.ShRun

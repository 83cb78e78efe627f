import RecoverOs.Logic.Transition
import RecoverOs.Logic.Counting
import RecoverOs.Logic.Bytes
import RecoverOs.Basic
import RecoverOs.Lib.Bitmap
import RecoverOs.Task.Process
import RecoverOs.Task.Schedule
import RecoverOs.Task.Effects
import RecoverOs.Task.Wakeup
import RecoverOs.Task.Tree
import RecoverOs.Task.Pml4
import RecoverOs.Fs.InodeCache
import RecoverOs.Fs.InodeCacheSafety
import RecoverOs.Fs.Inode
import RecoverOs.Fs.Dir
import RecoverOs.Fs.Format
import RecoverOs.Fs.OpenInodes
import RecoverOs.Logic.Ledger
import RecoverOs.Fs.Layout
import RecoverOs.Fs.BlockOwnership
import RecoverOs.Fs.InodeSessions
import RecoverOs.Fs.File
import RecoverOs.Fs.OpenCounts
import RecoverOs.Fs.Descriptors
import RecoverOs.Fs.DescriptorCalls
import RecoverOs.Fs.DescriptorRuns
import RecoverOs.Fs.OpenBalance
import RecoverOs.Logic.Ring
import RecoverOs.Fs.Ring
import RecoverOs.Logic.Forest
import RecoverOs.Memory.Pool
import RecoverOs.Memory.PoolLimits
import RecoverOs.Memory.Paging
import RecoverOs.Memory.Space
import RecoverOs.Memory.PageMap
import RecoverOs.Memory.Tables
import RecoverOs.Memory.Forking
import RecoverOs.Memory.Accounting
import RecoverOs.Memory.Room
import RecoverOs.Memory.Snapshot
import RecoverOs.Logic.Linked
import RecoverOs.Lib.LinkedList
import RecoverOs.Memory.Slab
import RecoverOs.Memory.SlabSafety
import RecoverOs.Task.Sync
import RecoverOs.Device.Ioqueue
import RecoverOs.Task.Kernel
import RecoverOs.Task.KernelSafety
import RecoverOs.Task.TreeSafety
import RecoverOs.Fs.Contents
import RecoverOs.Fs.FileHandles
import RecoverOs.Fs.Directory
import RecoverOs.Fs.Resolve
import RecoverOs.Fs.DirTree
import RecoverOs.Logic.Catalog
import RecoverOs.Logic.Rooted
import RecoverOs.Memory.Regions
import RecoverOs.Fs.Growth
import RecoverOs.Fs.FileData
import RecoverOs.Fs.DirectoryMap
import RecoverOs.Fs.TreeCalls
import RecoverOs.Fs.RootDir
import RecoverOs.Fs.TreeEdits
import RecoverOs.Fs.TreeRuns
import RecoverOs.Fs.PathWalk
import RecoverOs.Fs.Mknod
import RecoverOs.Fs.ReadWrite
import RecoverOs.Fs.Unlink
import RecoverOs.Fs.Rmdir
import RecoverOs.Fs.Mkdir
import RecoverOs.Fs.Pipe
import RecoverOs.Fs.BadDescriptors
import RecoverOs.Memory.Translation
import RecoverOs.Memory.LazyCopy
import RecoverOs.Fs.NewFiles
import RecoverOs.Device.Ide
import RecoverOs.Fs.FreshDisk
import RecoverOs.Command.Shell
import RecoverOs.Command.Words
import RecoverOs.Command.Pipeline
import RecoverOs.Memory.BrkOwner
import RecoverOs.Memory.Threads
import RecoverOs.Userprog.Elf
import RecoverOs.Userprog.Exec
import RecoverOs.Userprog.Image
import RecoverOs.Userprog.Recording
import RecoverOs.Memory.Loading
import RecoverOs.Userprog.FailedExec
import RecoverOs.Userprog.Segments
import RecoverOs.Lib.Stdio
import RecoverOs.Device.Print
import RecoverOs.Command.Readline
import RecoverOs.Device.Keyboard
import RecoverOs.Logic.Amd64
import RecoverOs.Task.Switch
import RecoverOs.Kernel.Descriptors
import RecoverOs.Kernel.Interrupt
import RecoverOs.Task.FirstRun
import RecoverOs.Userprog.SystemCall
import RecoverOs.Userprog.Clone
import RecoverOs.Memory.KernelHalf
import RecoverOs.Memory.DirectMap
import RecoverOs.Device.Drive
import RecoverOs.Fs.BioAtomic

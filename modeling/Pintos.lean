import Pintos.Lib.WriteBack
import Pintos.Lib.CInt
import Pintos.Lib.Trace
import Pintos.Lib.Loop
import Pintos.Lib.Memory
import Pintos.Devices.Block
import Pintos.Kernel.Bitmap
import Pintos.Kernel.BitmapView
import Pintos.Filesys.Cache
import Pintos.Filesys.Inode
import Pintos.Filesys.FreeMap
import Pintos.Filesys.Directory
import Pintos.Filesys.Filesys
import Pintos.Filesys.Resize
import Pintos.Filesys.ReadWrite
import Pintos.Filesys.Concurrent
import Pintos.Filesys.Monitor
import Pintos.Filesys.File
import Pintos.Filesys.DenyWrite
import Pintos.Kernel.Console
import Pintos.Lib.Interleave
import Pintos.Userprog.WaitStatus
import Pintos.Userprog.Syscall
import Pintos.Userprog.Pagedir
import Pintos.Userprog.WaitRuns
import Pintos.Userprog.WaitRefs
import Pintos.Userprog.WaitResult
import Pintos.Userprog.ExecResult
import Pintos.Userprog.FdCalls
import Pintos.Userprog.ArgStack
import Pintos.Userprog.ArgLayout
import Pintos.Kernel.Arithmetic
import Pintos.Threads.Palloc
import Pintos.Kernel.String
import Pintos.Threads.FixedPoint
import Pintos.Devices.Intq
import Pintos.Threads.Malloc
import Pintos.Devices.Partition
import Pintos.Filesys.OpenInodes
import Pintos.Kernel.Search
import Pintos.Lib.BinaryHeap
import Pintos.Kernel.HeapSort
import Pintos.Kernel.Format
import Pintos.Kernel.Ustar
import Pintos.Schedlab.Simulator
import Pintos.Schedlab.Operations
import Pintos.Schedlab.Conservation
import Pintos.Kernel.Strtok
import Pintos.Userprog.WordList
import Pintos.Lib.Links
import Pintos.Lib.RunMerge
import Pintos.Kernel.List
import Pintos.Lib.OrderedList
import Pintos.Kernel.ListOps
import Pintos.Lib.KeyedSet
import Pintos.Kernel.ListFamily
import Pintos.Kernel.Hash
import Pintos.Kernel.HashTable
import Pintos.Kernel.HashOps
import Pintos.Threads.Scheduler
import Pintos.Threads.ThreadLife

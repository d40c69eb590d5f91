import SomeOs.Cache.CachedDevice
import SomeOs.Cache.Coherence
import SomeOs.Cache.TableRuns
import SomeOs.Chmod.ParseMode
import SomeOs.Cp.CopyFile
import SomeOs.Devices.BlockFileCall
import SomeOs.Devices.BlockTransfer
import SomeOs.Devices.DevFs
import SomeOs.Devices.DeviceTree
import SomeOs.Devices.InFlight
import SomeOs.Edit.FlatText
import SomeOs.Expr.Sentences
import SomeOs.Files.DescriptorCalls
import SomeOs.Files.Fifo
import SomeOs.Files.Select
import SomeOs.Files.StringMapRuns
import SomeOs.Grep.Selection
import SomeOs.Harts.Messages
import SomeOs.Harts.SpinLocks
import SomeOs.Harts.Timeouts
import SomeOs.HeadTail.Selected
import SomeOs.Heap.Locking
import SomeOs.Heap.Realloc
import SomeOs.Libc.FormatBounds
import SomeOs.Libc.FormatIntegers
import SomeOs.Libc.MemOp
import SomeOs.Memory.CloneFailure
import SomeOs.Memory.HeapBreak
import SomeOs.Memory.Integers
import SomeOs.Memory.RefCounts
import SomeOs.Memory.RefRuns
import SomeOs.Memory.TableRange
import SomeOs.Memory.Translate
import SomeOs.Minix.DirRuns
import SomeOs.Minix.Evict
import SomeOs.Minix.FileCalls
import SomeOs.Minix.MapRuns
import SomeOs.Minix.ZeroTail
import SomeOs.Pipe.EndOfFile
import SomeOs.Pipe.NonBlocking
import SomeOs.Pipe.Queues
import SomeOs.Process.Sessions
import SomeOs.Process.SetUserFiles
import SomeOs.Process.Tree
import SomeOs.Process.Wait
import SomeOs.Random.Counter
import SomeOs.Random.KeySchedule
import SomeOs.Signals.Deferral
import SomeOs.Sort.LineOrder
import SomeOs.Task.Mutex
import SomeOs.Task.QueueRemoval
import SomeOs.Task.ReadyQueue
import SomeOs.Task.Wakeups
import SomeOs.Tty.Blocking
import SomeOs.Tty.Canonical
import SomeOs.Vfs.CreatePath
import SomeOs.Vfs.LinkRuns
import SomeOs.Vfs.LookupRefs
import SomeOs.Vfs.Mounts
import SomeOs.Vfs.NodeTable
import SomeOs.Vfs.NodeUpdates
import SomeOs.Vfs.RealPath
import SomeOs.Vfs.SplitPath
import SomeOs.Vfs.TmpMounts

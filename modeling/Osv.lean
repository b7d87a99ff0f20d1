import Osv.Lib.Transition
import Osv.Lib.Runs
import Osv.Lib.Simulation
import Osv.Lib.LinkedList
import Osv.Lib.Queue
import Osv.Lib.Count
import Osv.Lib.Bytes
import Osv.Lib.Threaded
import Osv.Lib.OptionLoop
import Osv.Lib.IeeeFloat
import Osv.Lib.Word
import Osv.Mempool.PageRange
import Osv.Mempool.PageBuffer
import Osv.Mempool.PageAllocator
import Osv.Mempool.Pool
import Osv.Mempool.Malloc
import Osv.Lockfree.Ring
import Osv.Lockfree.QueueMpsc
import Osv.Lockfree.Mutex
import Osv.Lockfree.MutexRun
import Osv.Sync.Semaphore
import Osv.Sync.Condvar
import Osv.Sync.Rwlock
import Osv.Sched.Cpu
import Osv.Sched.CpuRun
import Osv.Libc.PthreadOnce
import Osv.Core.Pvclock
import Osv.Core.Elf
import Osv.Core.ElfAddr
import Osv.Bsd.Synch
import Osv.Bsd.Callout
import Osv.Vfs.Fcntl
import Osv.Vfs.Descrip
import Osv.Core.TraceFormat
import Osv.Core.TraceLog
import Osv.Core.TraceRing
import Osv.Drivers.Vring
import Osv.Drivers.VringRun
import Osv.Libc.PipeBuffer
import Osv.Libc.PipeBufferRun
import Osv.Bsd.UmaStub
import Osv.Mempool.PoolAlloc
import Osv.Core.PercpuWorker
import Osv.Core.Rcu
import Osv.Mmu.AddressSpace
import Osv.Mmu.PopulateRace
import Osv.Vfs.Mount
import Osv.Vfs.Task
import Osv.Core.Percpu
import Osv.Mmu.FileSync
import Osv.Core.Poll
import Osv.Core.Epoll
import Osv.Core.Dhcp
import Osv.Core.ElfReloc
import Osv.Lib.MinElement
import Osv.Core.ElfLoad
import Osv.Vfs.Namei
import Osv.Mempool.CrossFree
import Osv.Core.ElfTls
import Osv.Vfs.Physio
import Osv.Drivers.VirtioBlk
import Osv.Bsd.Mbuf
import Osv.Drivers.VirtioNet
import Osv.Fs.Ramfs
import Osv.Core.ElfLibrary
import Osv.Mmu.LinearMap
import Osv.Sched.Runtime
import Osv.Mmu.Evacuate
import Osv.Mmu.Unpopulate
import Osv.Sched.CpuSet
import Osv.Mmu.SplitLargePage
import Osv.Core.Select
import Osv.Drivers.Console
import Osv.Core.Callstack
import Osv.Core.TraceRace

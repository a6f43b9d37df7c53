import AxonOS.Cpu.Timekeeping
import AxonOS.Cpu.Timeouts
import AxonOS.Frame.Conservation
import AxonOS.Fs.Chroot
import AxonOS.Fs.Mounts
import AxonOS.Futex.Runs
import AxonOS.Heap.Accounting
import AxonOS.Heap.Isolation
import AxonOS.Ipc.Atomic
import AxonOS.Ipc.Readers
import AxonOS.Ipc.Timerfd
import AxonOS.Ipc.UnixStream
import AxonOS.Ipc.Waiters
import AxonOS.Mm.Brk
import AxonOS.Net.Dhcp
import AxonOS.Net.Dns
import AxonOS.Net.Handshake
import AxonOS.Net.RxQueue
import AxonOS.PageCache.Coherence
import AxonOS.Paging.Walkers
import AxonOS.Process.Limits
import AxonOS.Process.Mirrors
import AxonOS.Process.TreeRuns
import AxonOS.Ramfs.Contents
import AxonOS.Ramfs.Namespace
import AxonOS.Signal.Privilege
import AxonOS.Signal.Stacks
import AxonOS.Vma.GapSearch
import AxonOS.Vma.Mprotect

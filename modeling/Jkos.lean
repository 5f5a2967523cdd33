import Jkos.Kheap.Partition
import Jkos.Lib.RedBlack
import Jkos.Kheap.Pages
import Jkos.Page.Static
import Jkos.Page.FreeMemory
import Jkos.Page.Identity
import Jkos.Rbt.Refine
import Jkos.Syscall.Contract
import Jkos.Task.Lookup
import Jkos.Kheap.BestFit
import Jkos.Task.RoundRobin
import Jkos.Page.Protect
import Jkos.Elf.Confine
import Jkos.Rbt.Order
import Jkos.Kheap.NodePool
import Jkos.Cxx.Finalize
import Jkos.Fs.Ramdisk
import Jkos.Klog.Console
import Jkos.Klog.Render
import Jkos.Page.Quiet
import Jkos.Page.Lost
import Jkos.Elf.Content
import Jkos.Elf.Exec
import Jkos.Elf.Image
import Jkos.Elf.Stale
import Jkos.Task.Fair
import Jkos.Task.Context
import Jkos.Rbt.Depth
import Jkos.Rbt.Clear
import Jkos.Machine.Isolation
import Jkos.Interrupt.Transparent
import Jkos.Interrupt.Segments
import Jkos.Fs.Open
import Jkos.Task.MoveStack

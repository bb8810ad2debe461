import Xv6.Param
import Xv6.Lib.LittleEndian
import Xv6.Lib.Ownership
import Xv6.Lib.LowBits
import Xv6.Syscall
import Xv6.Lib.Run
import Xv6.Proc
import Xv6.Trap
import Xv6.Disk
import Xv6.Log
import Xv6.Crash
import Xv6.Atomicity
import Xv6.Namespace
import Xv6.Mkfs
import Xv6.Kalloc
import Xv6.Vm
import Xv6.Pgdir
import Xv6.Mappages
import Xv6.Freevm
import Xv6.Kvm
import Xv6.Uvm
import Xv6.LogSpace
import Xv6.Sbrk
import Xv6.Copyout
import Xv6.Lifecycle
import Xv6.Lib.Count
import Xv6.Files
import Xv6.Refcount
import Xv6.Ide
import Xv6.Sched
import Xv6.Exec
import Xv6.Grep
import Xv6.Umalloc
import Xv6.Pipe
import Xv6.Lib.RingBuf
import Xv6.Console
import Xv6.Memmove
import Xv6.Printint
import Xv6.Match
import Xv6.Lib.While
import Xv6.Mp
import Xv6.Pid
import Xv6.Balloc
import Xv6.Inode
import Xv6.Filewrite
import Xv6.Namei
import Xv6.Lib.Store
import Xv6.Bio
import Xv6.Itrunc
import Xv6.FsOps
import Xv6.Spinlock
import Xv6.Shell
import Xv6.Runcmd

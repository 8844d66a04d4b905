import Znu.Machine.Agreement
import Znu.Elf.Protection
import Znu.Elf.Entry
import Znu.Kernel.Wait
import Znu.Kernel.Signals
import Znu.Syscall.Malloc
import Znu.Kernel.HeapVisible
import Znu.Kernel.Lifecycle
import Znu.Sched.AddressSpace
import Znu.Sched.Registers
import Znu.Sched.ThreadPointer
import Znu.Sched.Orphans
import Znu.Sched.Lines
import Znu.Sched.Slots
import Znu.Files.Redirection
import Znu.Files.Isolation
import Znu.Files.Descriptors
import Znu.Files.Pipe
import Znu.Vfs.ReadOnly
import Znu.Vfs.Initramfs
import Znu.Lz4.Bounds
import Znu.Hash.Random
import Znu.Net.Dns
import Znu.Net.Stream
import Znu.Net.Connect
import Znu.Modl.References
import Znu.Modl.Relocate
import Znu.Sync.Mutex
import Znu.Sync.Rwlock
import Znu.Sync.Semaphore
import Znu.Sync.Mailbox
import Znu.Libc.Snprintf
import Znu.Drivers.Ahci
import Znu.Drivers.E1000
import Znu.Libc.Memmove
import Znu.Drivers.Evdev

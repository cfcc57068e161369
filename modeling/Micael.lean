import Micael.Arch.Access
import Micael.Arch.BootDirectory
import Micael.Arch.Destroy
import Micael.Arch.Duplicate
import Micael.Arch.ForkRights
import Micael.Arch.MapPage
import Micael.Arch.Mmu
import Micael.Arch.PageTables
import Micael.Arch.PointUpdate
import Micael.Arch.Processes
import Micael.Arch.Spaces
import Micael.Drivers.Pci
import Micael.Drivers.Rtl8139
import Micael.Drivers.Tty
import Micael.Drivers.Vbe
import Micael.Foundation.BinaryHeap
import Micael.Foundation.Circular
import Micael.Foundation.LastWrite
import Micael.Foundation.Layout
import Micael.Foundation.Loop
import Micael.Foundation.Memory
import Micael.Foundation.OnesComplement
import Micael.Foundation.RefCount
import Micael.Foundation.Ring
import Micael.Foundation.Run
import Micael.Foundation.Slots
import Micael.Foundation.ThreeWay
import Micael.Foundation.Tiling
import Micael.Fs.BinfmtElf
import Micael.Fs.Char
import Micael.Fs.Contexts
import Micael.Fs.Dentry
import Micael.Fs.DentryUndo
import Micael.Fs.ElfPages
import Micael.Fs.EntryKinds
import Micael.Fs.Execv
import Micael.Fs.FdTable
import Micael.Fs.File
import Micael.Fs.Initramfs
import Micael.Fs.LookupContract
import Micael.Fs.LookupNames
import Micael.Fs.LookupRelease
import Micael.Fs.Multiboot2
import Micael.Fs.PathBytes
import Micael.Fs.PathDenotes
import Micael.Fs.PathLookup
import Micael.Fs.Pipe
import Micael.Fs.PipeWakeups
import Micael.Fs.RamReads
import Micael.Fs.StringOrder
import Micael.Kernel.Irq
import Micael.Kernel.Kprint
import Micael.Kernel.Tick
import Micael.Lib.Bheap
import Micael.Lib.Bitmap
import Micael.Lib.BitmapSets
import Micael.Lib.Hashmap
import Micael.Lib.HashmapHistory
import Micael.Lib.HashmapInsert
import Micael.Lib.List
import Micael.Lib.ListFamily
import Micael.Lib.ListOperations
import Micael.Lib.NumericKeys
import Micael.Lib.Ringbuffer
import Micael.Lib.Sample
import Micael.Lib.SampleWindow
import Micael.Mm.BootInit
import Micael.Mm.Bootmem
import Micael.Mm.ClaimRange
import Micael.Mm.ClaimZones
import Micael.Mm.Heap
import Micael.Mm.HeapChunks
import Micael.Mm.HeapGrowth
import Micael.Mm.HeapInvariant
import Micael.Mm.HeapMerge
import Micael.Mm.Page
import Micael.Mm.PageConservation
import Micael.Mm.Slab
import Micael.Mm.SlabHistory
import Micael.Mm.Types
import Micael.Mm.ZoneLock
import Micael.Net.AddrText
import Micael.Net.Arp
import Micael.Net.Checksum
import Micael.Net.CumulativeAck
import Micael.Net.Demux
import Micael.Net.Dhcp
import Micael.Net.DhcpFields
import Micael.Net.FragSafety
import Micael.Net.FragTable
import Micael.Net.Ipv4
import Micael.Net.Ipv4Fragments
import Micael.Net.Ownership
import Micael.Net.Packet
import Micael.Net.Receive
import Micael.Net.SendPath
import Micael.Net.Skb
import Micael.Net.Sockets
import Micael.Net.Tcp
import Micael.Net.TcpAccept
import Micael.Net.TcpHandshake
import Micael.Net.TcpRead
import Micael.Net.TcpRetransmit
import Micael.Sched.Accounting
import Micael.Sched.Balance
import Micael.Sched.Bounds
import Micael.Sched.Idle
import Micael.Sched.Moves
import Micael.Sched.Mts
import Micael.Sched.OnePlace
import Micael.Sched.Placement
import Micael.Sched.ProcessTree
import Micael.Sched.Refusals
import Micael.Sched.Removal
import Micael.Sched.Reschedule
import Micael.Sched.ThreadRings
import Micael.Sched.Threads
import Micael.Sched.WaitChild
import Micael.Sync.Wait
import Micael.Toolchain.Mkinitrd
import Micael.Mm.HeapContents
import Micael.Kernel.StringBuild
import Micael.Foundation.RingRecords
import Micael.Drivers.Rtl8139Rx
import Micael.Drivers.Keyboard
import Micael.Foundation.Records
import Micael.Kernel.Acpi
import Micael.Net.UdpDelivery
import Micael.Foundation.StackWords
import Micael.Arch.Assembly
import Micael.Sched.KernelStacks
import Micael.Sched.ContextSwitch

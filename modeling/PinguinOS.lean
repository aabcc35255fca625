import PinguinOS.Lib.Run
import PinguinOS.Sched.PickNext
import PinguinOS.Sched.Timer
import PinguinOS.Sched.Tick
import PinguinOS.Sched.ReadyBitmap
import PinguinOS.Sched.Lifecycle
import PinguinOS.Sched.SleepDuration
import PinguinOS.Sched.Stacks
import PinguinOS.Random.Entropy
import PinguinOS.Sched.Eoi
import PinguinOS.Mm.PhysAlloc
import PinguinOS.Mm.PmmInit
import PinguinOS.Mm.PmmRun
import PinguinOS.Lib.Layout
import PinguinOS.Mm.IdentityMap
import PinguinOS.Mm.Heap
import PinguinOS.Mm.PageTables
import PinguinOS.Mm.Boot
import PinguinOS.Mm.HeapShape
import PinguinOS.Mm.HeapAlloc
import PinguinOS.Mm.HeapTiling
import PinguinOS.Mm.HeapPages
import PinguinOS.Mm.HeapFailure
import PinguinOS.Mm.HeapServe
import PinguinOS.Mm.HeapRealloc
import PinguinOS.Mm.HeapLeaks
import PinguinOS.Mm.PageRights
import PinguinOS.Mm.Process
import PinguinOS.Mm.PageFault
import PinguinOS.Lib.Bytes
import PinguinOS.Lib.Linked
import PinguinOS.Lib.KeyTable
import PinguinOS.Lib.OnesComplement
import PinguinOS.Mm.Slab
import PinguinOS.Mm.SlabLists
import PinguinOS.Mm.SlabObjects
import PinguinOS.Mm.SlabRun
import PinguinOS.Mm.SlabExclusive
import PinguinOS.Mm.SlabSizes
import PinguinOS.Mm.Swap
import PinguinOS.Mm.SwapTable
import PinguinOS.Mm.Frames
import PinguinOS.Mm.SwapAtomic
import PinguinOS.Mm.SwapContents
import PinguinOS.Proc.Signals
import PinguinOS.Proc.Table
import PinguinOS.Proc.TableRun
import PinguinOS.Proc.ForkIsolation
import PinguinOS.Sync.Mutex
import PinguinOS.Sync.RwLock
import PinguinOS.Lib.Ring
import PinguinOS.Sync.Monitor
import PinguinOS.Ipc.Pipe
import PinguinOS.Lib.KeySort
import PinguinOS.Lib.Slots
import PinguinOS.Cpu.Idt
import PinguinOS.Cpu.Handlers
import PinguinOS.Ipc.MsgQueue
import PinguinOS.Ipc.MsgTable
import PinguinOS.Ipc.UnixStream
import PinguinOS.Ipc.UnixSock
import PinguinOS.Net.Tcp
import PinguinOS.Net.Wire
import PinguinOS.Net.Arp
import PinguinOS.Net.Socket
import PinguinOS.Net.SocketRun
import PinguinOS.Net.Stack
import PinguinOS.Net.NextHop
import PinguinOS.Net.Loopback
import PinguinOS.Lib.Tlv
import PinguinOS.Net.Dhcp
import PinguinOS.Net.Bounds
import PinguinOS.Net.TcpTable
import PinguinOS.Net.Demux
import PinguinOS.Net.TcpChecksum
import PinguinOS.Net.TcpSteps
import PinguinOS.Net.TcpSequence
import PinguinOS.Net.TcpWindow
import PinguinOS.Net.TcpStates
import PinguinOS.Lib.Path
import PinguinOS.Fs.Vfs
import PinguinOS.Fs.Initrd
import PinguinOS.Fs.Listing
import PinguinOS.Fs.Medium
import PinguinOS.Fs.Fat32
import PinguinOS.Fs.Iso9660
import PinguinOS.Fs.Ext2
import PinguinOS.Fs.ReadBounds
import PinguinOS.Fs.Ext2Content
import PinguinOS.Lib.Patch
import PinguinOS.Fs.Pe
import PinguinOS.Fs.PeImage
import PinguinOS.Fs.PeConfined
import PinguinOS.Fs.PeReference
import PinguinOS.Mm.HeapKeeps
import PinguinOS.Mm.ContiguousRun
import PinguinOS.Mm.InitialMap
import PinguinOS.Mm.HeapRelease
import PinguinOS.Mm.Write
import PinguinOS.Mm.Alike
import PinguinOS.Ipc.Elf
import PinguinOS.Ipc.ElfContent
import PinguinOS.Ipc.ElfConfined
import PinguinOS.Drivers.Buffer
import PinguinOS.Drivers.Dma
import PinguinOS.Drivers.E1000Receive
import PinguinOS.Drivers.E1000Transmit
import PinguinOS.Drivers.Rtl8139Transmit
import PinguinOS.Drivers.Nvme
import PinguinOS.Os.Apps
import PinguinOS.Drivers.Rtl8139Receive
import PinguinOS.Fs.Ramfs
import PinguinOS.Lib.WriteLog
import PinguinOS.Lib.SiblingTree
import PinguinOS.Fs.RamfsTree
import PinguinOS.Fs.Fat32Content
import PinguinOS.Mm.BootModules
import PinguinOS.Lib.Stored
import PinguinOS.Lib.Orbit
import PinguinOS.Net.Dns
import PinguinOS.Net.DnsBounds
import PinguinOS.Proc.VmaList
import PinguinOS.Net.DhcpOptions
import PinguinOS.Net.Checksum
import PinguinOS.Net.DnsQuery
import PinguinOS.Net.DnsAnswer
import PinguinOS.Net.Echo
import PinguinOS.Fs.Fat32Dir
import PinguinOS.Fs.Fat32Lookup
import PinguinOS.Fs.Fat32Agree
import PinguinOS.Fs.Fat32Walk
import PinguinOS.Fs.Fat32Safe
import PinguinOS.Fs.Ext2Volume
import PinguinOS.Fs.Ext2Safe
import PinguinOS.Net.TcpBounds
import PinguinOS.Drivers.Ide
import PinguinOS.Fs.Hd0
import PinguinOS.Fs.Ext2Block
import PinguinOS.Debug.Gdbstub
import PinguinOS.Fs.InitrdBounds
import PinguinOS.Fs.InitrdArchive
import PinguinOS.Fs.RamfsBounds
import PinguinOS.Fs.Partition
import PinguinOS.Fs.PartitionBounds
import PinguinOS.Fs.Iso9660Dir
import PinguinOS.Fs.Ext2Dir
import PinguinOS.Fs.Ext2DirContent
import PinguinOS.Fs.Ext2DirComplete
import PinguinOS.Debug.Kprobes
import PinguinOS.Fs.Ext2DirSearch
import PinguinOS.Lib.Calendar
import PinguinOS.Drivers.Rtc
import PinguinOS.Random.Range
import PinguinOS.Klib.Division
import PinguinOS.Klib.Numbers
import PinguinOS.Klib.Printf
import PinguinOS.Klib.PrintfSafe
import PinguinOS.Klib.PrintfPrefix
import PinguinOS.Klib.PrintfLength
import PinguinOS.Debug.Crashdump
import PinguinOS.Lib.Copy
import PinguinOS.Klib.Memory
import PinguinOS.Klib.Strlen
import PinguinOS.Drivers.Mouse
import PinguinOS.Os.Click
import PinguinOS.Lib.Grid
import PinguinOS.Lib.Wrap
import PinguinOS.Drivers.VgaPage
import PinguinOS.Drivers.VgaLines
import PinguinOS.Drivers.Keyboard
import PinguinOS.Lib.KeyMap
import PinguinOS.Ipc.Env
import PinguinOS.Os.Login
import PinguinOS.Os.LoginReach
import PinguinOS.Os.Ui
import PinguinOS.Os.UiPicture
import PinguinOS.Os.UiInput
import PinguinOS.Os.DesktopApps
import PinguinOS.Os.DesktopRun
import PinguinOS.Os.DesktopReach
import PinguinOS.Lib.Sweep
import PinguinOS.Drivers.Pci
import PinguinOS.Lib.Pieces
import PinguinOS.Net.TcpLink
import PinguinOS.Net.TcpTransfer
import PinguinOS.Net.TcpHosts
import PinguinOS.Debug.GdbSession
import PinguinOS.Sched.HandOver
import PinguinOS.Drivers.Watchdog
import PinguinOS.Os.Kernel
import PinguinOS.Drivers.RtcRead
import PinguinOS.Ipc.PipeEnds
import PinguinOS.Debug.Shell

import OpenOS.Handle.Monotonicity
import OpenOS.Handle.Identity
import OpenOS.Ipc.CallReply
import OpenOS.Syscall.Confinement
import OpenOS.Syscall.Transfer
import OpenOS.Syscall.Wakeup
import OpenOS.Memory.FrameUsable
import OpenOS.Memory.PageRefine
import OpenOS.Elf.Confinement
import OpenOS.Elf.Image
import OpenOS.Task.MapPage
import OpenOS.Task.Decision
import OpenOS.Task.Current
import OpenOS.Syscall.Wait
import OpenOS.Syscall.Yield
import OpenOS.Fs.Procfs
import OpenOS.Syscall.Getdents
import OpenOS.Syscall.Handover
import OpenOS.Syscall.Cursor
import OpenOS.Syscall.OpenMode
import OpenOS.Sdk.TaskList
import OpenOS.Syscall.PipeLife
import OpenOS.Syscall.UserContext
import OpenOS.Fs.FileLock
import OpenOS.Fs.BlockCache
import OpenOS.Fs.Mount
import OpenOS.Fs.RamfsTree
import OpenOS.Fs.Ext2.Cached
import OpenOS.Fs.Ext2.Hostile
import OpenOS.Fs.Ext2.ReadBack
import OpenOS.Fs.Ext2.Vfs
import OpenOS.Syscall.Brk
import OpenOS.Net.TcpAccept
import OpenOS.Net.TcpSend
import OpenOS.Net.SocketTable
import OpenOS.Net.Route
import OpenOS.Net.Dns
import OpenOS.Memory.Access
import OpenOS.Sdk.Pthread
import OpenOS.Ipc.Waiters
import OpenOS.Drivers.VirtioNet
import OpenOS.User.Decimal
import OpenOS.User.Cksum
import OpenOS.User.Cal

import Rvos.Io.Console
import Rvos.Io.Descriptors
import Rvos.Io.Dirents
import Rvos.Io.Disk
import Rvos.Io.Effects
import Rvos.Io.Epoll
import Rvos.Io.Fd
import Rvos.Io.Files
import Rvos.Io.Fs
import Rvos.Io.Inodes
import Rvos.Io.Listing
import Rvos.Io.Misc
import Rvos.Io.Net
import Rvos.Io.Offsets
import Rvos.Io.Pipes
import Rvos.Io.Poll
import Rvos.Io.Rights
import Rvos.Io.Seek
import Rvos.Io.Sendfile
import Rvos.Io.Slots
import Rvos.Io.Sockets
import Rvos.Io.Stat
import Rvos.Io.State
import Rvos.Io.Streams
import Rvos.Io.Tree
import Rvos.Io.Vectored
import Rvos.Kernel.Again
import Rvos.Kernel.Args
import Rvos.Kernel.Auxv
import Rvos.Kernel.Boot
import Rvos.Kernel.Brk
import Rvos.Kernel.Budget
import Rvos.Kernel.Calls
import Rvos.Kernel.Context
import Rvos.Kernel.Dispatch
import Rvos.Kernel.Fair
import Rvos.Kernel.Family
import Rvos.Kernel.Files
import Rvos.Kernel.Frames
import Rvos.Kernel.Image
import Rvos.Kernel.Lifecycle
import Rvos.Kernel.Load
import Rvos.Kernel.Machine
import Rvos.Kernel.Main
import Rvos.Kernel.Mmap
import Rvos.Kernel.Pages
import Rvos.Kernel.Private
import Rvos.Kernel.Proc
import Rvos.Kernel.Progress
import Rvos.Kernel.Reach
import Rvos.Kernel.Reap
import Rvos.Kernel.Resume
import Rvos.Kernel.Roles
import Rvos.Kernel.Sched
import Rvos.Kernel.Sharing
import Rvos.Kernel.Spaces
import Rvos.Kernel.Stack
import Rvos.Kernel.State
import Rvos.Kernel.Switch
import Rvos.Kernel.Trap
import Rvos.Kernel.Visits
import Rvos.Kernel.Wait
import Rvos.Lib.Access
import Rvos.Lib.Assoc
import Rvos.Lib.Block
import Rvos.Lib.ByteMem
import Rvos.Lib.Fifo
import Rvos.Lib.Post
import Rvos.Lib.Prog
import Rvos.Lib.Radix
import Rvos.Lib.Run
import Rvos.Lib.Sink
import Rvos.Lib.Stores
import Rvos.Lib.Trie
import Rvos.Lib.Usize
import Rvos.Mm.Alloc
import Rvos.Mm.Demand
import Rvos.Mm.Mappings
import Rvos.Mm.Own
import Rvos.Mm.PageTable
import Rvos.Mm.Space
import Rvos.Mm.Tables
import Rvos.Mm.Walk

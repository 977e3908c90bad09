import Rvos.Io.Fd

/-! # The state of the input and output system calls

    `Io` collects the statics behind descriptors, files, pipes, sockets and
    the console.  A handler is a program `IoM` on it that dereferences user
    pointers; it has no way to touch page tables or processes.

    What the kernel does not compute itself is an `Env`: the clock, the
    network stack (the `smoltcp` crate) and the ELF parser (`xmas-elf`). -/

namespace Rvos

open Access Usize

/-! ## Section 1: Sockets -/

/-- The states of a TCP connection. -/
inductive TcpState where
  | Closed
  | Listen
  | SynSent
  | SynReceived
  | Established
  | FinWait1
  | FinWait2
  | CloseWait
  | Closing
  | LastAck
  | TimeWait
  deriving DecidableEq, Repr

/-- A TCP socket: received and queued bytes, and how many bytes lie before the
    end of each ring buffer (`0`: all of them). -/
structure TcpSocket where
  state : TcpState
  rx : List UInt8
  rx_wrap : Nat
  tx : List UInt8
  tx_wrap : Nat
  deriving DecidableEq, Repr

namespace TcpSocket

/-- `socket.listen(80)` on a new socket. -/
def listening : TcpSocket := { state := .Listen, rx := [], rx_wrap := 0, tx := [], tx_wrap := 0 }

def is_listening (s : TcpSocket) : Bool := s.state == .Listen

def is_open (s : TcpSocket) : Bool := !(s.state == .Closed || s.state == .TimeWait)

def can_recv (s : TcpSocket) : Bool := !s.rx.isEmpty

def can_send (s : TcpSocket) : Bool :=
  (s.state == .Established || s.state == .CloseWait) && s.tx.length < 4096

/-- The received bytes that the closure of `recv` is shown. -/
def recv_slice (s : TcpSocket) : List UInt8 := if s.rx_wrap = 0 then s.rx else s.rx.take s.rx_wrap

/-- How much room the closure of `send` is shown. -/
def send_room (s : TcpSocket) : Nat :=
  if s.tx_wrap = 0 then 4096 - s.tx.length else min s.tx_wrap (4096 - s.tx.length)

/-- `n` received bytes are taken. -/
def taken (s : TcpSocket) (n : Nat) : TcpSocket :=
  { s with rx := s.rx.drop n, rx_wrap := s.rx_wrap - n }

/-- The bytes are queued. -/
def queued (s : TcpSocket) (bs : List UInt8) : TcpSocket :=
  { s with tx := s.tx ++ bs, tx_wrap := s.tx_wrap - bs.length }

end TcpSocket

/-- The eight slots of the socket set; a handle is an index. -/
abbrev Sockets : Type := List (Option TcpSocket)

/-- The statics of `net.rs`. -/
structure Net where
  sockets : Sockets
  fd_to_handle : Std.TreeMap Nat Nat
  epoll_data : Std.TreeMap Nat Nat
  listen_fd : Option Nat

/-! ## Section 2: The state and its programs -/

structure Io where
  /-- `FD_TABLE`, one table for the whole system. -/
  fd_table : FdTable
  fake_fds : Std.TreeMap Nat FakeFdType
  fake_fd_next : Nat
  pipes : Std.TreeMap Nat PipeInner
  next_pipe_id : Nat
  fs : Fs
  net : Net
  /-- The bytes the UART will receive, in order. -/
  uart_in : List UInt8
  uart_out : List UInt8
  /-- How often the clock was read and the network polled. -/
  ticks : Nat
  polls : Nat

/-- The statics at their start, the `net.rs` ones after `net::init`. -/
def Io.new : Io :=
  { fd_table := .new, fake_fds := ∅, fake_fd_next := 100, pipes := ∅, next_pipe_id := 1, fs := .new,
    net := { sockets := List.replicate 8 none, fd_to_handle := ∅, epoll_data := ∅, listen_fd := none },
    uart_in := [], uart_out := [], ticks := 0, polls := 0 }

abbrev IoM (α : Type) : Type := Code Io Halt α

/-- A loadable or other program header. -/
structure ProgramHeader where
  /-- `get_type`: `none` if it is invalid, otherwise whether it is `Load`. -/
  load : Option Bool
  vaddr : Nat
  memsz : Nat
  filesz : Nat
  offset : Nat
  read : Bool
  write : Bool
  execute : Bool
  deriving DecidableEq, Repr

/-- What `xmas_elf` reports of a file. -/
structure Elf where
  entry : Nat
  ph_offset : Nat
  ph_entry_size : Nat
  program_headers : List ProgramHeader
  deriving DecidableEq, Repr

/-- The world around the kernel. -/
structure Env where
  /-- The `n`-th reading of the time register. -/
  rdtime : Nat → Nat
  /-- What the `n`-th poll of the network does to the sockets. -/
  poll : Nat → Sockets → Sockets
  /-- `ElfFile::new`. -/
  parse_elf : List UInt8 → Option Elf
  /-- How many turns of a busy loop are observed before it counts as endless. -/
  patience : Nat

/-- A world in which nothing happens. -/
def Env.idle : Env :=
  { rdtime := fun _ => 0, poll := fun _ s => s, parse_elf := fun _ => none, patience := 0 }

/-! ## Section 3: Console and clock -/

/-- `console::print`. -/
def print (s : List UInt8) : IoM Unit := modify fun io => { io with uart_out := io.uart_out ++ s }

/-- Wait for a byte of the UART; without input the kernel waits forever. -/
def getchar : IoM UInt8 := do
  match (← get).uart_in with
  | [] => throw .spin
  | c :: rest =>
    modify fun io => { io with uart_in := rest }
    return c

/-- `rdtime`. -/
def rdtime (env : Env) : IoM Nat := do
  let io ← get
  modify fun io => { io with ticks := io.ticks + 1 }
  return env.rdtime io.ticks

/-! ## Section 4: Which kind of descriptor -/

def is_fake_fd (fd : Nat) : IoM Bool := do
  return (← get).fake_fds.contains fd

def is_inet_socket (fd : Nat) : IoM Bool := do
  return (← get).fake_fds[fd]? == some .InetSocket

/-- A new number from `FAKE_FD_NEXT`. -/
def fake_fd_alloc : IoM Nat := do
  let fd := (← get).fake_fd_next
  modify fun io => { io with fake_fd_next := fd + 1 }
  return fd

def fake_fd_insert (fd : Nat) (t : FakeFdType) : IoM Unit :=
  modify fun io => { io with fake_fds := io.fake_fds.insert fd t }

/-- Replace the open file of a descriptor. -/
def fd_put (fd : Nat) (of : OpenFile) : IoM Unit :=
  modify fun io => { io with fd_table := io.fd_table.put fd of }

end Rvos

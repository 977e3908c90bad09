import Rvos.Io.Files

/-! # System calls on sockets, events and system information (`syscall.rs`)

    Sockets of the family `AF_UNIX` answer as a name service daemon that knows
    the user root; those of `AF_INET` go to `net.rs`. -/

namespace Rvos

open Access Usize

/-! ## Section 1: Events -/

def sys_eventfd2 : IoM Int := do
  let fd ← fake_fd_alloc
  fake_fd_insert fd .EventFd
  return toIsize fd

def sys_epoll_create1 : IoM Int := do
  let fd ← fake_fd_alloc
  fake_fd_insert fd .Epoll
  return toIsize fd

/-- `sys_epoll_ctl`: the operation and the events asked for are ignored. -/
def sys_epoll_ctl (fd : Int) (event : Ptr) : IoM Int := do
  if (← is_fake_fd (ofIsize fd)) ∧ event.addr ≠ 0 then
    let data := leNat (← Code.loadBytes (event.add 8) 8)
    set_epoll_data (ofIsize fd) data
  return 0

/-- The loop of `sys_epoll_pwait`, for at most `fuel` turns. -/
def epoll_wait (env : Env) (events : Ptr) (maxevents : Nat) (timeout : Int) (deadline : Option Int) :
    (fuel : Nat) → IoM Int
  | 0 => throw .spin
  | fuel + 1 => do
    let n ← get_epoll_events env events maxevents
    if n > 0 then
      return toIsize n
    if timeout = 0 then
      return 0
    match deadline with
    | some d =>
      if (← get_time_ms env) ≥ d then
        return 0
      epoll_wait env events maxevents timeout deadline fuel
    | none => epoll_wait env events maxevents timeout deadline fuel

def sys_epoll_pwait (env : Env) (events : Ptr) (maxevents : Nat) (timeout : Int) : IoM Int := do
  let start_ms ← get_time_ms env
  let deadline := if timeout > 0 then some (isize (start_ms + timeout)) else none
  epoll_wait env events maxevents timeout deadline env.patience

/-- A 32-bit signed number. -/
def i32 (v : Nat) : Int := (BitVec.ofNat 32 v).toInt

/-- The loop of `sys_ppoll` over `left` more entries. -/
def ppoll_loop : (p : Ptr) → (left ready : Nat) → IoM Nat
  | _, 0, ready => return ready
  | p, left + 1, ready => do
    let fd := i32 (leNat (← Code.loadBytes p 4))
    let events := leNat (← Code.loadBytes (p.add 4) 2)
    -- an inet socket is in particular a fake descriptor
    let is_ready ← if fd < 3 then pure true else is_fake_fd (ofIsize fd)
    Code.storeBytes (p.add 6) (leBytes 2 (if is_ready then events &&& 5 else 0))
    ppoll_loop (p.add 8) left (if is_ready then ready + 1 else ready)

def sys_ppoll (fds : Ptr) (nfds : Nat) : IoM Int := do
  let ready := i32 (← ppoll_loop fds nfds 0)
  return if ready > 0 then ready else 0

/-! ## Section 2: Sockets -/

def sys_socket (domain : Int) : IoM Int := do
  let fd ← fake_fd_alloc
  if domain = 1 then
    fake_fd_insert fd (.Nscd { phase := .Header, data := [], offset := 0 })
    return toIsize fd
  if domain = 2 then
    fake_fd_insert fd .InetSocket
    return toIsize fd
  return -1

def sys_socketpair (sv : Ptr) : IoM Int := do
  let fd1 ← fake_fd_alloc
  let fd2 ← fake_fd_alloc
  fake_fd_insert fd1 .InetSocket
  fake_fd_insert fd2 .InetSocket
  Code.storeBytes sv (leBytes 4 fd1)
  Code.storeBytes (sv.add 4) (leBytes 4 fd2)
  return 0

/-- `sys_bind`, `sys_connect`, `sys_setsockopt`, `sys_getsockopt` and
    `sys_shutdown`: success for every descriptor that is not a file. -/
def fake_success (fd : Int) : IoM Int := do
  return if ← is_fake_fd (ofIsize fd) then 0 else -1

def sys_bind (fd : Int) : IoM Int := fake_success fd

def sys_connect (fd : Int) : IoM Int := fake_success fd

def sys_setsockopt (fd : Int) : IoM Int := fake_success fd

def sys_getsockopt (fd : Int) : IoM Int := fake_success fd

def sys_shutdown (fd : Int) : IoM Int := fake_success fd

def sys_listen (fd : Int) : IoM Int := do
  if ← is_inet_socket (ofIsize fd) then
    bind_listen_fd (ofIsize fd)
    return 0
  return if ← is_fake_fd (ofIsize fd) then 0 else -1

/-- `sys_accept`, and `sys_accept4`, which ignores its flags. -/
def sys_accept (env : Env) (fd : Int) (addr addrlen : Ptr) : IoM Int := do
  if ← is_inet_socket (ofIsize fd) then
    match ← accept_connection env (ofIsize fd) with
    | none => return -11
    | some handle =>
      let new_fd ← fake_fd_alloc
      fake_fd_insert new_fd .InetSocket
      set_fd_handle new_fd handle
      if addr.addr ≠ 0 then
        Code.storeBytes addr (leBytes 2 2)
        -- port 80 in network byte order
        Code.storeBytes (addr.add 2) [0, 80]
        Code.storeBytes (addr.add 4) (List.replicate 4 0)
        Code.storeBytes (addr.add 8) (List.replicate 8 0)
      if addrlen.addr ≠ 0 then
        Code.storeBytes addrlen (leBytes 4 16)
      return toIsize new_fd
  if ← is_fake_fd (ofIsize fd) then
    let new_fd ← fake_fd_alloc
    fake_fd_insert new_fd .InetSocket
    return toIsize new_fd
  return -1

/-- The answer of the name service: the entry of root. -/
def nscd_response : List UInt8 :=
  let name := utf8 "root\x00"
  let passwd := utf8 "x\x00"
  let gecos := utf8 "root\x00"
  let dir := utf8 "/root\x00"
  let shell := utf8 "/bin/sh\x00"
  ([2, 1, name.length, passwd.length, 0, 0, gecos.length, dir.length, shell.length].flatMap
    (leBytes 4)) ++ name ++ passwd ++ gecos ++ dir ++ shell

def sys_sendto (env : Env) (fd : Int) (buf : Ptr) (len : Nat) : IoM Int := do
  match (← get).fake_fds[ofIsize fd]? with
  | some (.Nscd _) =>
    let _ ← copy_in buf len
    fake_fd_insert (ofIsize fd) (.Nscd { phase := .Data, data := nscd_response, offset := 0 })
    return toIsize len
  | some .InetSocket => send_to_fd env (ofIsize fd) buf len
  | _ => return -1

def sys_recvfrom (env : Env) (fd : Int) (buf : Ptr) (len : Nat) : IoM Int := sys_read env fd buf len

def sys_recvmsg (fd : Int) (msg : Ptr) : IoM Int := do
  match (← get).fake_fds[ofIsize fd]? with
  | some (.Nscd st) =>
    let iov_ptr := leNat (← Code.loadBytes (msg.add 16) 8)
    let iov_len := leNat (← Code.loadBytes (msg.add 24) 8)
    if iov_len > 0 ∧ iov_ptr ≠ 0 then
      let base := leNat (← Code.loadBytes ⟨iov_ptr, false⟩ 8)
      let len := leNat (← Code.loadBytes (Ptr.add ⟨iov_ptr, false⟩ 8) 8)
      let out := st.rest len
      if out.length > 0 ∧ base ≠ 0 then
        Code.storeBytes ⟨base, false⟩ out
        fake_fd_insert (ofIsize fd) (.Nscd { st with offset := wadd st.offset out.length })
      return out.length
    return -1
  | _ => return -1

/-! ## Section 3: Terminal and system information -/

def sys_ioctl (fd req : Int) (arg : Ptr) : IoM Int := do
  if req = 0x5421 then
    if (← is_fake_fd (ofIsize fd)) ∨ (← is_socket_fd (ofIsize fd)) then
      return 0
  if req = 0x5401 then
    if fd < 3 then
      -- only `c_lflag` is set
      Code.storeBytes (arg.add 12) (leBytes 4 3)
      return 0
  if req = 0x5402 ∨ req = 0x5403 ∨ req = 0x5404 then
    return 0
  if req = 0x5413 then
    Code.storeBytes arg (List.replicate 8 0)
    Code.storeBytes arg (leBytes 2 24)
    Code.storeBytes (arg.add 2) (leBytes 2 80)
    return 0
  return 0

def sys_fcntl (fd cmd : Int) : IoM Int := do
  if cmd = 1 then
    return fd
  if cmd = 3 then
    return if ← is_inet_socket (ofIsize fd) then 0x800 else 0
  return 0

/-- `pad`: 65 bytes, the rest zero. -/
def pad (s : String) : List UInt8 := utf8 s ++ List.replicate (65 - (utf8 s).length) 0

def sys_uname (buf : Ptr) : IoM Int := do
  Code.storeBytes buf (pad "Linux")
  Code.storeBytes (buf.add 65) (pad "rvos")
  Code.storeBytes (buf.add 130) (pad "5.15.0")
  Code.storeBytes (buf.add 195) (pad "#1")
  Code.storeBytes (buf.add 260) (pad "riscv64")
  Code.storeBytes (buf.add 325) (pad "")
  return 0

/-- The path `sys_getcwd` reports, with its zero. -/
def cwd : List UInt8 := utf8 "/tmp\x00"

def sys_getcwd (buf : Ptr) (size : Nat) : IoM Int := do
  if size < cwd.length then
    return -1
  Code.storeBytes buf cwd
  return toIsize buf.addr

/-- `sys_clock_gettime`: the second field is in ticks of the 10 MHz timer. -/
def sys_clock_gettime (env : Env) (buf : Ptr) : IoM Int := do
  let ticks ← rdtime env
  Code.storeBytes buf (leBytes 8 (ticks / 10_000_000 + 1))
  Code.storeBytes (buf.add 8) (leBytes 8 (ticks % 10_000_000))
  return 0

/-- Two 64-bit limits. -/
def store_limits (buf : Ptr) (cur max : Nat) : IoM Unit := do
  Code.storeBytes buf (leBytes 8 cur)
  Code.storeBytes (buf.add 8) (leBytes 8 max)

def sys_getrlimit (resource : Int) (buf : Ptr) : IoM Int := do
  if resource = 7 then
    store_limits buf 1024 4096
  else
    store_limits buf (2 ^ 64 - 1) (2 ^ 64 - 1)
  return 0

def sys_prlimit64 (resource : Int) (old_limit : Ptr) : IoM Int := do
  if old_limit.addr ≠ 0 then
    let lim := if resource = 7 then 1024 else 2 ^ 64 - 1
    store_limits old_limit lim lim
  return 0

def sys_getrandom (buf : Ptr) (buflen : Nat) : IoM Int := do
  Code.storeBytes buf (List.replicate buflen 0xab)
  return toIsize buflen

end Rvos

import Rvos.Io.State

/-! # Sockets behind descriptors (`net.rs`)

    One listening descriptor at a time; `accept_connection` gives the
    established socket away and puts a new listening one in its place.  The
    network stack runs only inside `poll_network`. -/

namespace Rvos

open Access Usize

/-- `poll_network`: the sockets evolve. -/
def poll_network (env : Env) : IoM Unit := do
  -- the timestamp handed to the stack
  let _ ← rdtime env
  modify fun io => { io with
    polls := io.polls + 1
    net := { io.net with sockets := env.poll io.polls io.net.sockets } }

def get_time_ms (env : Env) : IoM Int := do
  return toIsize ((← rdtime env) / 10_000)

/-- `SocketSet::get_mut`. -/
def socket_get (handle : Nat) : IoM TcpSocket := do
  match (← get).net.sockets[handle]?.join with
  | some s => return s
  | none => throw (.panic "handle does not refer to a valid socket")

def socket_put (handle : Nat) (s : TcpSocket) : IoM Unit :=
  modify fun io => { io with
    net := { io.net with sockets := io.net.sockets.set handle (some s) } }

/-- `SocketSet::add`: the first free slot. -/
def socket_add (s : TcpSocket) : IoM Nat := do
  match (← get).net.sockets.findIdx? (·.isNone) with
  | some handle =>
    socket_put handle s
    return handle
  | none => throw (.panic "adding a socket to a full SocketSet")

def create_listen_socket : IoM Nat := do
  let _ ← vec_zeroed 4096
  let _ ← vec_zeroed 4096
  socket_add .listening

def set_fd_handle (fd handle : Nat) : IoM Unit :=
  modify fun io => { io with
    net := { io.net with fd_to_handle := io.net.fd_to_handle.insert fd handle } }

def bind_listen_fd (fd : Nat) : IoM Unit := do
  if (← get).net.listen_fd = some fd then
    return
  let handle ← create_listen_socket
  set_fd_handle fd handle
  modify fun io => { io with net := { io.net with listen_fd := some fd } }

def set_epoll_data (fd data : Nat) : IoM Unit :=
  modify fun io => { io with
    net := { io.net with epoll_data := io.net.epoll_data.insert fd data } }

def is_listen_readable (env : Env) : IoM Bool := do
  match (← get).net.listen_fd with
  | none => return false
  | some fd =>
    poll_network env
    match (← get).net.fd_to_handle[fd]? with
    | none => return false
    | some handle =>
      let socket ← socket_get handle
      return !socket.is_listening && socket.is_open

def accept_connection (env : Env) (fd : Nat) : IoM (Option Nat) := do
  if (← get).net.listen_fd ≠ some fd then
    return none
  poll_network env
  match (← get).net.fd_to_handle[fd]? with
  | none => return none
  | some handle =>
    let socket ← socket_get handle
    if socket.is_listening then
      return none
    let new_handle ← create_listen_socket
    set_fd_handle fd new_handle
    return some handle

/-- `recv_from_fd`, into the slice of `len` bytes at `buf`. -/
def recv_from_fd (env : Env) (fd : Nat) (buf : Ptr) (len : Nat) : IoM Int := do
  poll_network env
  match (← get).net.fd_to_handle[fd]? with
  | none => return -1
  | some handle =>
    let socket ← socket_get handle
    if !socket.can_recv then
      return if socket.is_open then -11 else 0
    let data := socket.recv_slice.take len
    Code.storeBytes buf data
    socket_put handle (socket.taken data.length)
    return data.length

/-- `send_to_fd`, from the slice of `len` bytes at `buf`. -/
def send_to_fd (env : Env) (fd : Nat) (buf : Ptr) (len : Nat) : IoM Int := do
  poll_network env
  match (← get).net.fd_to_handle[fd]? with
  | none => return -1
  | some handle =>
    let socket ← socket_get handle
    if !socket.can_send then
      return if socket.is_open then -11 else -32
    let data ← Code.loadBytes buf (min socket.send_room len)
    socket_put handle (socket.queued data)
    return data.length

def close_fd (fd : Nat) : IoM Unit := do
  let drop_epoll_data : IoM Unit := modify fun io => { io with
    net := { io.net with epoll_data := io.net.epoll_data.erase fd } }
  if (← get).net.listen_fd = some fd then
    drop_epoll_data
    return
  match (← get).net.fd_to_handle[fd]? with
  | none => drop_epoll_data
  | some handle =>
    modify fun io => { io with
      net := { io.net with fd_to_handle := io.net.fd_to_handle.erase fd } }
    -- `SocketSet::remove` panics on a free slot
    let _ ← socket_get handle
    modify fun io => { io with
      net := { io.net with sockets := io.net.sockets.set handle none } }
    drop_epoll_data

def is_socket_fd (fd : Nat) : IoM Bool := do
  return (← get).net.fd_to_handle.contains fd

/-- The events `get_epoll_events` reports for a socket. -/
def TcpSocket.revents (s : TcpSocket) : Nat :=
  (if s.can_recv || (!s.is_listening && s.is_open) then 1 else 0) + (if s.can_send then 4 else 0)

/-- The loop of `get_epoll_events`: one record of 16 bytes for each socket with
    events; the four bytes after the events are not written. -/
def epoll_records (events_buf : Ptr) (maxevents : Nat) : List (Nat × Nat) → (count : Nat) → IoM Nat
  | [], count => return count
  | (fd, handle) :: rest, count => do
    if count ≥ maxevents then
      return count
    let socket ← socket_get handle
    if socket.revents = 0 then
      epoll_records events_buf maxevents rest count
    else
      let evt := events_buf.add (wmul count 16)
      Code.storeBytes evt (leBytes 4 socket.revents)
      let data := ((← get).net.epoll_data[fd]?).getD fd
      Code.storeBytes (evt.add 8) (leBytes 8 data)
      epoll_records events_buf maxevents rest (count + 1)

def get_epoll_events (env : Env) (events_buf : Ptr) (maxevents : Nat) : IoM Nat := do
  poll_network env
  epoll_records events_buf maxevents (← get).net.fd_to_handle.toList 0

end Rvos

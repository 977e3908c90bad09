import Rvos.Kernel.Dispatch
import Rvos.Lib.Post
import Rvos.Lib.Run

/-! # What the input and output calls do to the kernel's tables

    Every change that a call makes to the statics behind descriptors, files and
    sockets is one of those listed in `Io.Change`; the guards say in which
    states it is made.  `io_call_effect` proves this for the whole table of
    calls, so that an invariant of these statics needs one case per change and
    not one per call.

    The same theorem explains the panic of `SocketSet::get_mut`: a call ends in
    it only if it comes through a state in which some descriptor has the handle
    of a free slot (`Io.Dangling`). -/

namespace Rvos

open Access Access.Code ByteMem Usize Relation

/-! ## Section 1: The changes -/

/-- Bytes are taken from the front of the receive buffer, or queued. -/
inductive TcpSocket.Moves (s : TcpSocket) : TcpSocket → Prop where
  | taken (n : Nat) : s.Moves (s.taken n)
  | queued (bs : List UInt8) : s.Moves (s.queued bs)

/-- The live socket behind a handle. -/
def Net.socket (net : Net) (handle : Nat) : Option TcpSocket := net.sockets[handle]?.join

/-- The first free slot. -/
def Net.free_slot (net : Net) : Option Nat := net.sockets.findIdx? (·.isNone)

/-- The changes that only certain calls make. -/
inductive Io.Act where
  | mkdir
  | listen (fd : Nat)
  | accept (fd : Nat)
  | epoll (fd : Nat)
  | close (fd : Nat)

/-- One change, with the condition under which calls make it; `may` says which
    of the acts are made at all. -/
inductive Io.Change (env : Env) (may : Io.Act → Prop) (io : Io) : Io → Prop where
  | console (uart_in uart_out : List UInt8) (ticks : Nat) :
      Change env may io { io with uart_in := uart_in, uart_out := uart_out, ticks := ticks }
  | table (t : FdTable) : Change env may io { io with fd_table := t }
  | pipes (p : Std.TreeMap Nat PipeInner) (n : Nat) :
      Change env may io { io with pipes := p, next_pipe_id := n }
  | mkdir (path : Path) (hmay : may .mkdir) (hnew : io.fs.lookup path = none) :
      Change env may io { io with fs := io.fs.mkdir path }
  | write (path : Path) (v v' : List UInt8) (cap cap' : Nat)
      (hold : io.fs.files[path]? = some ⟨.Dynamic v cap⟩) (hle : v.length ≤ v'.length) :
      Change env may io
        { io with fs := { io.fs with files := io.fs.files.insert path ⟨.Dynamic v' cap'⟩ } }
  | poll : Change env may io { io with
      polls := io.polls + 1
      net := { io.net with sockets := env.poll io.polls io.net.sockets } }
  | fresh (t : FakeFdType) : Change env may io { io with
      fake_fds := io.fake_fds.insert io.fake_fd_next t
      fake_fd_next := io.fake_fd_next + 1 }
  /-- A number is given out and not used. -/
  | skip : Change env may io { io with fake_fd_next := io.fake_fd_next + 1 }
  | nscd (fd : Nat) (st st' : NscdState) (hfd : io.fake_fds[fd]? = some (.Nscd st)) :
      Change env may io { io with fake_fds := io.fake_fds.insert fd (.Nscd st') }
  | listen (fd slot : Nat) (hmay : may (.listen fd)) (hinet : io.fake_fds[fd]? = some .InetSocket)
      (hnew : io.net.listen_fd ≠ some fd) (hfree : io.net.free_slot = some slot) :
      Change env may io { io with net := { io.net with
        sockets := io.net.sockets.set slot (some .listening)
        fd_to_handle := io.net.fd_to_handle.insert fd slot
        listen_fd := some fd } }
  /-- The socket of the listening descriptor goes to a new one, and a new
      listening socket takes its place. -/
  | accept (fd handle slot : Nat) (s : TcpSocket) (hmay : may (.accept fd))
      (hinet : io.fake_fds[fd]? = some .InetSocket)
      (hlisten : io.net.listen_fd = some fd) (hfd : io.net.fd_to_handle[fd]? = some handle)
      (hlive : io.net.socket handle = some s) (hfree : io.net.free_slot = some slot) :
      Change env may io { io with
        fake_fds := io.fake_fds.insert io.fake_fd_next .InetSocket
        fake_fd_next := io.fake_fd_next + 1
        net := { io.net with
          sockets := io.net.sockets.set slot (some .listening)
          fd_to_handle := (io.net.fd_to_handle.insert fd slot).insert io.fake_fd_next handle } }
  | transfer (fd handle : Nat) (s s' : TcpSocket) (hfd : io.net.fd_to_handle[fd]? = some handle)
      (hlive : io.net.socket handle = some s) (hmoves : s.Moves s') :
      Change env may io { io with net := { io.net with sockets := io.net.sockets.set handle (some s') } }
  | epoll (fd data : Nat) (hmay : may (.epoll fd)) (hfake : io.fake_fds.contains fd = true) :
      Change env may io { io with net := { io.net with epoll_data := io.net.epoll_data.insert fd data } }
  /-- Closing a descriptor that is no socket. -/
  | close_other (fd : Nat) (hmay : may (.close fd)) (hother : io.fake_fds[fd]? ≠ some .InetSocket) :
      Change env may io { io with fake_fds := io.fake_fds.erase fd }
  /-- Closing a descriptor without a socket of its own, or the listening one. -/
  | close_plain (fd : Nat) (hmay : may (.close fd)) (hinet : io.fake_fds[fd]? = some .InetSocket)
      (hplain : io.net.listen_fd = some fd ∨ io.net.fd_to_handle[fd]? = none) :
      Change env may io { io with
        fake_fds := io.fake_fds.erase fd
        net := { io.net with epoll_data := io.net.epoll_data.erase fd } }
  | close_socket (fd handle : Nat) (s : TcpSocket) (hmay : may (.close fd))
      (hinet : io.fake_fds[fd]? = some .InetSocket)
      (hlisten : io.net.listen_fd ≠ some fd) (hfd : io.net.fd_to_handle[fd]? = some handle)
      (hlive : io.net.socket handle = some s) :
      Change env may io { io with
        fake_fds := io.fake_fds.erase fd
        net := { io.net with
          sockets := io.net.sockets.set handle none
          fd_to_handle := io.net.fd_to_handle.erase fd
          epoll_data := io.net.epoll_data.erase fd } }

/-- Any number of changes. -/
def Io.Reach (env : Env) (may : Io.Act → Prop) : Io → Io → Prop := ReflTransGen (Io.Change env may)

/-- Some descriptor has the handle of a free slot. -/
def Io.Dangling (io : Io) : Prop :=
  ∃ fd handle : Nat, io.net.fd_to_handle[fd]? = some handle ∧ io.net.socket handle = none

/-- The panic of a lookup in the socket set. -/
def deadHandle : Halt := .panic "handle does not refer to a valid socket"

/-- The panic of adding a socket when every slot is taken. -/
def fullSet : Halt := .panic "adding a socket to a full SocketSet"

/-- What explains a halt. -/
def Io.Explains (e : Halt) (io : Io) : Prop := e = deadHandle → io.Dangling

/-- The program only makes the changes above. -/
abbrev IoEffect (env : Env) (may : Io.Act → Prop) {α : Type} (c : IoM α) : Prop :=
  Effect (Io.Change env may) Io.Explains c

theorem Io.Explains.other {e : Halt} {io : Io} (h : e ≠ deadHandle) : Io.Explains e io :=
  fun he => absurd he h

/-! ## Section 2: Programs that make none or one of them -/

section Effects

variable {env : Env} {may : Io.Act → Prop} {α : Type} {io : Io}

/-- The program leaves the tables alone, whatever they are. -/
def Quiet {α : Type} (c : IoM α) : Prop :=
  ∀ io, post c (fun _ t _ => t = io) (fun e _ => e ≠ deadHandle) io

theorem Quiet.effect {c : IoM α} (h : Quiet c) : IoEffect env may c := fun io =>
  (h io).mono (fun _ _ _ ht => ht ▸ .refl) fun _ _ he => ⟨io, .refl, .other he⟩

theorem Quiet.pure (a : α) : Quiet (Pure.pure a : IoM α) := fun _ => rfl

theorem Quiet.bind {β : Type} {c : IoM α} {f : α → IoM β} (hc : Quiet c) (hf : ∀ a, Quiet (f a)) :
    Quiet (c >>= f) := by
  intro io
  rw [post_bind]
  refine (hc io).mono ?_ fun e t h => h
  rintro a t l rfl
  exact hf a t

theorem Quiet.loadBytes (p : Ptr) (n : Nat) : Quiet (Code.loadBytes p n) := fun io => by simp

theorem Quiet.storeBytes (p : Ptr) (bs : List UInt8) : Quiet (Code.storeBytes p bs) :=
  fun io => by simp

theorem quiet_vec_zeroed (n : Nat) : Quiet (vec_zeroed n) := by
  intro io
  unfold vec_zeroed
  split
  · simp
  · split
    · simp [deadHandle]
    · simp

theorem quiet_vec_reserve (size log_align len cap additional : Nat) :
    Quiet (vec_reserve size log_align len cap additional) := by
  intro io
  unfold vec_reserve
  by_cases hroom : additional ≤ cap - len
  · simp [hroom]
  · simp only [hroom, if_false]
    generalize max (max (2 * cap) (len + additional)) (if size = 1 then 8 else 4) = cap'
    split
    · simp [deadHandle]
    · simp

theorem quiet_copy_in (buf : Ptr) (count : Nat) : Quiet (copy_in buf count) :=
  (quiet_vec_zeroed count).bind fun _ => .loadBytes buf count

theorem quiet_cstr_go (fuel : Nat) : ∀ p, Quiet (cstr_go p fuel) := by
  induction fuel with
  | zero => exact fun p io => by simp [cstr_go, deadHandle]
  | succ fuel ih =>
    intro p io
    simp only [cstr_go, post_bind, post_loadByte]
    intro b
    split
    · simp
    · rw [post_bind]
      refine (ih (p.add 1) io).mono ?_ fun e t h => h
      rintro a t l rfl
      simp

theorem quiet_cstr (p : Ptr) : Quiet (cstr p) := by
  unfold cstr
  exact quiet_cstr_go _ p

theorem quiet_alloc (t : FdTable) (file : OpenFile) : Quiet (t.alloc file) := by
  unfold FdTable.alloc
  split
  · exact .pure _
  · exact (quiet_vec_reserve _ _ _ _ _).bind fun _ => .pure _

theorem quiet_resize (t : FdTable) (n : Nat) : Quiet (t.resize n) := by
  unfold FdTable.resize
  split
  · exact .pure _
  · exact (quiet_vec_reserve _ _ _ _ _).bind fun _ => .pure _

theorem quiet_dup2 (t : FdTable) (oldfd newfd : Nat) : Quiet (t.dup2 oldfd newfd) := by
  unfold FdTable.dup2
  cases t.get oldfd with
  | none => exact .pure _
  | some file =>
    have hput : ∀ t' : FdTable, Quiet (do
        if newfd ≥ t'.files.length then
          throw (.panic "index out of bounds")
        return (t'.put newfd file, true) : IoM (FdTable × Bool)) := by
      intro t'
      split
      · exact fun io => by simp [deadHandle]
      · exact .pure _
    dsimp only
    split
    · exact (quiet_resize _ _).bind hput
    · exact hput t

theorem quiet_read_file (inode count offset : Nat) : Quiet (read_file inode count offset) := by
  refine (quiet_vec_zeroed count).bind fun _ io => ?_
  simp only [post_bind, post_get]
  cases hread : io.fs.read_inode inode count offset with
  | ok bytes => simp
  | error e =>
    simp only [post_throw]
    -- the only error of `read_inode` is about its slice
    unfold Fs.read_inode at hread
    split at hread
    · dsimp only at hread
      split at hread
      · cases hread
        decide
      · cases hread
    · cases hread

theorem Quiet.bind_effect {β : Type} {c : IoM α} {f : α → IoM β} (hc : Quiet c)
    (hf : ∀ a, EffectAt (Io.Change env may) Io.Explains (f a) io) :
    EffectAt (Io.Change env may) Io.Explains (c >>= f) io :=
  EffectAt.quiet_bind ((hc io).mono (fun _ _ _ h => h) fun _ _ h => .other h) hf

theorem effect_pure (a : α) : IoEffect env may (Pure.pure a : IoM α) := fun _ => .pure a

theorem effect_print (bs : List UInt8) : IoEffect env may (print bs) :=
  fun io => .modify (.console io.uart_in _ io.ticks)

theorem effect_rdtime : IoEffect env may (rdtime env) := fun io =>
  .get_bind (.bind (.modify (.console io.uart_in io.uart_out _)) fun _ => effect_pure _)

theorem effect_fd_put (fd : Nat) (of : OpenFile) : IoEffect env may (fd_put fd of) :=
  fun _ => .modify (.table _)

/-- The tables after the network has been polled. -/
def Io.polled (env : Env) (io : Io) : Io :=
  { io with
    ticks := io.ticks + 1
    polls := io.polls + 1
    net := { io.net with sockets := env.poll io.polls io.net.sockets } }

@[simp] theorem post_poll_network {Q : Unit → Io → Log → Prop} {E : Halt → Io → Prop} :
    post (poll_network env) Q E io ↔ Q () (io.polled env) .nil := by
  simp only [poll_network, rdtime, post_bind, post_get, post_modify, post_pure, Log.nil_app]
  exact Iff.rfl

theorem Io.reach_polled : Io.Reach env may io (io.polled env) :=
  .tail (.single (.console io.uart_in io.uart_out (io.ticks + 1))) .poll

theorem effect_poll_network : IoEffect env may (poll_network env) := fun io => by
  rw [EffectAt, post_poll_network]
  exact io.reach_polled

/-- A lookup in the socket set, of the handle of a descriptor. -/
theorem effect_socket_get {β : Type} {fd handle : Nat} {f : TcpSocket → IoM β}
    (hfd : io.net.fd_to_handle[fd]? = some handle)
    (hf : ∀ s, io.net.socket handle = some s → EffectAt (Io.Change env may) Io.Explains (f s) io) :
    EffectAt (Io.Change env may) Io.Explains (socket_get handle >>= f) io := by
  unfold socket_get EffectAt
  simp only [post_bind, post_get]
  cases hs : io.net.socket handle with
  | none =>
    simp only [show io.net.sockets[handle]?.join = none from hs, post_throw]
    exact ⟨io, .refl, fun _ => ⟨fd, handle, hfd, hs⟩⟩
  | some s =>
    simp only [show io.net.sockets[handle]?.join = some s from hs, post_pure]
    exact hf s hs

/-! ## Section 3: Files, pipes and the console -/

theorem effect_write_inode (inode : Nat) (buf : List UInt8) (offset : Nat) :
    IoEffect env may (write_inode inode buf offset) := by
  refine fun io => .get_bind ?_
  cases hpath : io.fs.inode_map[inode]? with
  | none => simpa only [hpath] using effect_pure _ io
  | some path =>
    cases hfile : io.fs.files[path]? with
    | none => simpa only [hpath, hfile] using effect_pure _ io
    | some file =>
      obtain ⟨data⟩ := file
      cases data with
      | Static d => simpa only [hpath, hfile] using effect_pure _ io
      | Dynamic v cap =>
        simp only [hpath, hfile]
        have hstore : ∀ cap', EffectAt (Io.Change env may) Io.Explains (do
            let last := wadd offset buf.length
            if last < offset then
              throw (.panic "slice index starts after its end")
            let v := v ++ List.replicate (last - v.length) 0
            let v := v.take offset ++ buf ++ v.drop last
            modify fun io => { io with
              fs := { io.fs with files := io.fs.files.insert path ⟨.Dynamic v cap'⟩ } }
            return buf.length) io := by
          intro cap'
          dsimp only
          split
          · exact .throw_bind (.other (by decide))
          · next hlast =>
            refine .bind (.modify (.write path v _ cap cap' hfile ?_)) fun _ => effect_pure _
            -- the vector has been padded up to the end of what is written
            have hle : wadd offset buf.length ≤ offset + buf.length := by
              unfold wadd
              exact Nat.mod_le _ _
            simp only [List.length_append, List.length_take, List.length_drop, List.length_replicate]
            omega
        split
        · exact (quiet_vec_reserve _ _ _ _ _).bind_effect hstore
        · exact hstore cap

theorem effect_write_pipe (pid : Nat) (buf : Ptr) (count : Nat) :
    IoEffect env may (write_pipe pid buf count) := by
  refine fun io => .get_bind ?_
  cases io.pipes[pid]? with
  | none => exact effect_pure _ io
  | some pipe =>
    exact (quiet_copy_in buf count).bind_effect fun _ =>
      .bind (.modify (.pipes _ io.next_pipe_id)) fun _ => effect_pure _

theorem effect_write_open (fd : Nat) (buf : Ptr) (count : Nat) :
    IoEffect env may (write_open fd buf count) := by
  refine fun io => .get_bind ?_
  cases io.fd_table.get fd with
  | none => exact effect_pure _ io
  | some of =>
    cases hpid : of.pipe_id with
    | some pid => simpa only [hpid] using effect_write_pipe pid buf count io
    | none =>
      simp only [hpid]
      exact (quiet_copy_in buf count).bind_effect fun tmp =>
        (effect_write_inode of.inode tmp of.offset io).bind fun _ io =>
          (effect_fd_put fd _ io).bind fun _ => effect_pure _

theorem quiet_log_echo (fd : Int) (buf : Ptr) (count : Nat) : Quiet (log_echo fd buf count) := by
  unfold log_echo
  split
  · exact (Quiet.loadBytes buf count).bind fun _ => .pure _
  · exact .pure _

theorem effect_pwrite64 (fd : Int) (buf : Ptr) (count offset : Nat) :
    IoEffect env may (sys_pwrite64 fd buf count offset) := by
  refine fun io => .get_bind ?_
  cases io.fd_table.get (ofIsize fd) with
  | none => exact effect_pure _ io
  | some of =>
    exact (quiet_copy_in buf count).bind_effect fun tmp =>
      (effect_write_inode of.inode tmp offset io).bind fun _ => effect_pure _

theorem effect_read_line (buf : Ptr) (count : Nat) (input : List UInt8) :
    ∀ n, IoEffect env may (read_line buf count input n) := by
  induction input with
  | nil =>
    intro n io
    unfold read_line
    split
    · exact .throw (.other (by decide))
    · exact effect_pure _ io
  | cons c input ih =>
    intro n io
    have hstop : IoEffect env may (Pure.pure n : IoM Nat) := effect_pure n
    simp only [read_line]
    split
    · exact hstop io
    · refine .bind (.modify (.console input io.uart_out io.ticks)) fun _ io => ?_
      split
      · split
        · exact (effect_print _ io).bind fun _ => ih _
        · exact ih _ io
      · generalize (if c = 13 then 10 else c) = b
        refine (effect_print _ io).bind fun _ io => (Effect.storeByte io).bind fun _ io => ?_
        split
        · exact effect_pure _ io
        · exact ih _ io

theorem effect_read_pipe (pid : Nat) (buf : Ptr) (count : Nat) :
    IoEffect env may (read_pipe pid buf count) := by
  refine fun io => .get_bind ?_
  cases io.pipes[pid]? with
  | none => exact effect_pure _ io
  | some pipe =>
    exact (quiet_vec_zeroed count).bind_effect fun _ =>
      .bind (.modify (.pipes _ io.next_pipe_id)) fun _ io =>
        (Effect.storeBytes io).bind fun _ => effect_pure _

theorem effect_read_open (fd : Nat) (buf : Ptr) (count : Nat) :
    IoEffect env may (read_open fd buf count) := by
  refine fun io => .get_bind ?_
  cases io.fd_table.get fd with
  | none => exact effect_pure _ io
  | some of =>
    cases hpid : of.pipe_id with
    | some pid => simpa only [hpid] using effect_read_pipe pid buf count io
    | none =>
      simp only [hpid]
      exact (quiet_read_file _ _ _).bind_effect fun out =>
        (Effect.storeBytes io).bind fun _ io =>
          (effect_fd_put fd _ io).bind fun _ => effect_pure _

theorem effect_pread64 (fd : Int) (buf : Ptr) (count offset : Nat) :
    IoEffect env may (sys_pread64 fd buf count offset) := by
  refine fun io => .get_bind ?_
  cases io.fd_table.get (ofIsize fd) with
  | none => exact effect_pure _ io
  | some of =>
    exact (quiet_read_file _ _ _).bind_effect fun out =>
      (Effect.storeBytes io).bind fun _ => effect_pure _

theorem effect_getdents64 (fd : Int) (buf : Ptr) (count : Nat) :
    IoEffect env may (sys_getdents64 fd buf count) := by
  refine fun io => .get_bind ?_
  cases io.fd_table.get (ofIsize fd) with
  | none => exact effect_pure _ io
  | some of =>
    refine (quiet_vec_zeroed count).bind_effect fun _ => .get_bind ?_
    dsimp only
    split
    · exact (Effect.storeBytes io).bind fun _ io =>
        (effect_fd_put _ _ io).bind fun _ => effect_pure _
    · exact effect_pure _ io

theorem effect_openat (path : Ptr) (flags : Int) : IoEffect env may (sys_openat path flags) := by
  refine fun io => (quiet_cstr path).bind_effect fun path => .get_bind ?_
  cases io.fs.lookup path with
  | none => exact effect_pure _ io
  | some inode =>
    exact .get_bind ((quiet_alloc _ _).bind_effect fun _ =>
      .bind (.modify (.table _)) fun _ => effect_pure _)

theorem effect_lseek (fd offset whence : Int) : IoEffect env may (sys_lseek fd offset whence) := by
  refine fun io => .get_bind ?_
  cases io.fd_table.get (ofIsize fd) with
  | none => exact effect_pure _ io
  | some of =>
    have hseek : ∀ o, IoEffect env may (do
        fd_put (ofIsize fd) { of with offset := o }
        return toIsize o : IoM Int) :=
      fun o io => (effect_fd_put _ _ io).bind fun _ => effect_pure _
    dsimp only
    split
    · exact hseek _ io
    · split
      · exact hseek _ io
      · split
        · exact .get_bind (hseek _ io)
        · exact effect_pure _ io

theorem effect_dup2 (oldfd newfd : Int) : IoEffect env may (sys_dup2 oldfd newfd) := fun _ =>
  .get_bind ((quiet_dup2 _ _ _).bind_effect fun _ =>
    .bind (.modify (.table _)) fun _ => effect_pure _)

theorem effect_pipe2 (pipefd : Ptr) : IoEffect env may (sys_pipe2 pipefd) := fun _ =>
  .get_bind ((quiet_vec_zeroed 4096).bind_effect fun _ =>
    .bind (.modify (.pipes _ _)) fun _ _ =>
      .get_bind ((quiet_alloc _ _).bind_effect fun _ =>
        .bind (.modify (.table _)) fun _ _ =>
          .get_bind ((quiet_alloc _ _).bind_effect fun _ =>
            .bind (.modify (.table _)) fun _ io =>
              (Effect.storeBytes io).bind fun _ io =>
                (Effect.storeBytes io).bind fun _ => effect_pure _)))

theorem effect_mkdirat (path : Ptr) (hmay : may .mkdir) : IoEffect env may (sys_mkdirat path) := by
  refine fun io => (quiet_cstr path).bind_effect fun path => .get_bind ?_
  split
  · next hnew =>
    exact .bind (.modify (.mkdir path hmay (Option.isNone_iff_eq_none.mp hnew))) fun _ => effect_pure _
  · exact effect_pure _ io

/-! ## Section 4: Sockets -/

theorem effect_recv_from_fd (fd : Nat) (buf : Ptr) (len : Nat) :
    IoEffect env may (recv_from_fd env fd buf len) := by
  refine fun io => (effect_poll_network io).bind fun _ io => .get_bind ?_
  cases hfd : io.net.fd_to_handle[fd]? with
  | none => exact effect_pure _ io
  | some handle =>
    refine effect_socket_get hfd fun s hs => ?_
    split
    · exact effect_pure _ io
    · refine EffectAt.quiet_bind ?_ fun _ => ?_
      · simp
      · exact .bind (.modify (.transfer fd handle s _ hfd hs (.taken _))) fun _ => effect_pure _

theorem effect_send_to_fd (fd : Nat) (buf : Ptr) (len : Nat) :
    IoEffect env may (send_to_fd env fd buf len) := by
  refine fun io => (effect_poll_network io).bind fun _ io => .get_bind ?_
  cases hfd : io.net.fd_to_handle[fd]? with
  | none => exact effect_pure _ io
  | some handle =>
    refine effect_socket_get hfd fun s hs => ?_
    split
    · exact effect_pure _ io
    · exact (Quiet.loadBytes _ _).bind_effect fun data =>
        .bind (.modify (.transfer fd handle s _ hfd hs (.queued data))) fun _ => effect_pure _

theorem effect_sys_write (fd : Int) (buf : Ptr) (count : Nat) :
    IoEffect env may (sys_write env fd buf count) := by
  intro io
  unfold sys_write
  split
  · exact (Quiet.loadBytes buf count).bind_effect fun slice =>
      (effect_print _ io).bind fun _ => effect_pure _
  · refine (quiet_log_echo fd buf count).bind_effect fun _ => .get_bind ?_
    dsimp only
    split
    · exact effect_send_to_fd _ buf count io
    · exact effect_write_open _ buf count io

theorem effect_writev_loop (fd : Int) (left : Nat) :
    ∀ iov total, IoEffect env may (writev_loop env fd iov left total) := by
  induction left with
  | zero => exact fun iov total => effect_pure _
  | succ left ih =>
    intro iov total io
    simp only [writev_loop, EffectAt, post_bind, post_loadBytes]
    intro base _ len _
    split
    · exact ih _ _ io
    · refine (effect_sys_write fd ⟨leNat base, false⟩ (leNat len) io).bind fun n io => ?_
      split
      · exact effect_pure _ io
      · split
        · exact effect_pure _ io
        · exact ih _ _ io

theorem effect_sys_read (fd : Int) (buf : Ptr) (count : Nat) :
    IoEffect env may (sys_read env fd buf count) := by
  refine fun io => .get_bind ?_
  split
  · exact (effect_read_line buf count io.uart_in 0 io).bind fun _ => effect_pure _
  · split
    · next st hst =>
      refine (Quiet.storeBytes buf _).bind_effect fun _ => ?_
      exact .bind (.modify (.nscd _ st _ hst)) fun _ => effect_pure _
    · exact effect_recv_from_fd _ buf count io
    · exact effect_read_open _ buf count io

theorem effect_sendfile (out_fd in_fd : Int) (count : Nat) :
    IoEffect env may (sys_sendfile env out_fd in_fd count) := by
  refine fun io => (quiet_vec_zeroed _).bind_effect fun buf =>
    (effect_sys_read in_fd _ _ io).bind fun n io => ?_
  split
  · exact effect_pure _ io
  · exact effect_sys_write out_fd _ _ io

/-- What a `close` that returns 0 does. -/
inductive Io.Closes (fd : Nat) (io : Io) : Io → Prop where
  | file (hfile : fd ∉ io.fake_fds) : Closes fd io { io with fd_table := io.fd_table.close fd }
  | other (hother : io.fake_fds[fd]? ≠ some .InetSocket) :
      Closes fd io { io with fake_fds := io.fake_fds.erase fd }
  | plain (hinet : io.fake_fds[fd]? = some .InetSocket)
      (hplain : io.net.listen_fd = some fd ∨ io.net.fd_to_handle[fd]? = none) :
      Closes fd io { io with
        fake_fds := io.fake_fds.erase fd
        net := { io.net with epoll_data := io.net.epoll_data.erase fd } }
  | socket (handle : Nat) (s : TcpSocket) (hinet : io.fake_fds[fd]? = some .InetSocket)
      (hlisten : io.net.listen_fd ≠ some fd) (hfd : io.net.fd_to_handle[fd]? = some handle)
      (hlive : io.net.socket handle = some s) :
      Closes fd io { io with
        fake_fds := io.fake_fds.erase fd
        net := { io.net with
          sockets := io.net.sockets.set handle none
          fd_to_handle := io.net.fd_to_handle.erase fd
          epoll_data := io.net.epoll_data.erase fd } }

/-- **`close`**: it refuses the standard streams, and moves no bytes. -/
theorem post_sys_close (fd : Int) :
    post (sys_close fd)
      (fun r t lg => lg = .nil ∧
        (r = -1 ∧ t = io ∧ 0 ≤ fd ∧ fd < 3 ∨ r = 0 ∧ Io.Closes (ofIsize fd) io t))
      (fun e _ => e = deadHandle ∧ io.Dangling) io := by
  unfold sys_close
  split
  · next hstd =>
    simp only [post_pure]
    exact ⟨trivial, Or.inl ⟨trivial, trivial, hstd.2, hstd.1⟩⟩
  · simp only [is_inet_socket, is_fake_fd, post_bind, post_get, post_pure]
    split
    · next hinet =>
      have hinet : io.fake_fds[ofIsize fd]? = some .InetSocket := by simpa using hinet
      unfold close_fd
      simp only [post_bind, post_get]
      split
      · next hlisten =>
        simp only [post_bind, post_modify, post_pure]
        exact ⟨rfl, Or.inr ⟨trivial, .plain hinet (Or.inl hlisten)⟩⟩
      · next hlisten =>
        simp only [post_bind, post_get]
        cases hfd : io.net.fd_to_handle[ofIsize fd]? with
        | none =>
          simp only [post_modify, post_pure]
          exact ⟨rfl, Or.inr ⟨trivial, .plain hinet (Or.inr hfd)⟩⟩
        | some handle =>
          simp only [post_bind, post_modify, socket_get, post_get]
          cases hs : io.net.socket handle with
          | none =>
            simp only [show io.net.sockets[handle]?.join = none from hs, post_throw]
            exact ⟨rfl, _, handle, hfd, hs⟩
          | some s =>
            simp only [show io.net.sockets[handle]?.join = some s from hs, post_pure]
            exact ⟨rfl, Or.inr ⟨trivial, .socket handle s hinet hlisten hfd hs⟩⟩
    · next hother =>
      have hother : io.fake_fds[ofIsize fd]? ≠ some .InetSocket := by simpa using hother
      simp only [post_bind, post_get, post_pure]
      split
      · simp only [post_bind, post_modify, post_pure]
        exact ⟨rfl, Or.inr ⟨trivial, .other hother⟩⟩
      · next hfile =>
        simp only [post_bind, post_modify, post_pure]
        exact ⟨rfl, Or.inr ⟨trivial, .file (mt Std.TreeMap.mem_iff_contains.mp hfile)⟩⟩

theorem effect_sys_close (fd : Int) (hmay : may (.close (ofIsize fd))) : IoEffect env may (sys_close fd) := by
  intro io
  refine (post_sys_close fd).mono ?_ fun e _ he => ⟨io, .refl, fun _ => he.2⟩
  rintro r t lg ⟨-, ⟨-, rfl, -, -⟩ | ⟨-, hclose⟩⟩
  · exact .refl
  · refine .single ?_
    cases hclose with
    | file hfile => exact .table _
    | other hother => exact .close_other _ hmay hother
    | plain hinet hplain => exact .close_plain _ hmay hinet hplain
    | socket handle s hinet hlisten hfd hlive => exact .close_socket _ handle s hmay hinet hlisten hfd hlive

/-- A new descriptor that is not a file. -/
theorem effect_fresh {β : Type} (t : FakeFdType) {f : Nat → IoM β} (hf : ∀ fd, Quiet (f fd)) :
    IoEffect env may (do
      let fd ← fake_fd_alloc
      fake_fd_insert fd t
      f fd) := by
  intro io
  simp only [EffectAt, fake_fd_alloc, fake_fd_insert, post_bind, post_get, post_modify, post_pure]
  have hstep : Io.Change env may io { io with
      fake_fds := io.fake_fds.insert io.fake_fd_next t, fake_fd_next := io.fake_fd_next + 1 } := .fresh t
  refine (hf _ _).mono ?_ fun e u he => ⟨io, .refl, .other he⟩
  rintro b u l rfl
  exact .single hstep

theorem effect_sys_socket (domain : Int) : IoEffect env may (sys_socket domain) := by
  intro io
  simp only [EffectAt, sys_socket, fake_fd_alloc, fake_fd_insert, post_bind, post_get, post_modify,
    post_pure]
  split
  · simp only [post_bind, post_modify, post_pure]
    exact .single (.fresh _)
  · split
    · simp only [post_bind, post_modify, post_pure]
      exact .single (.fresh _)
    · simp only [post_pure]
      exact .single .skip

theorem effect_socketpair (sv : Ptr) : IoEffect env may (sys_socketpair sv) := by
  intro io
  simp only [EffectAt, sys_socketpair, fake_fd_alloc, fake_fd_insert, post_bind, post_get, post_modify,
    post_pure, post_storeBytes]
  exact .tail (.single (.fresh .InetSocket)) (.fresh .InetSocket)

/-- A new listening socket takes the first free slot. -/
theorem post_create_listen_socket {Q : Nat → Io → Log → Prop} {E : Halt → Io → Prop}
    (hE : io.net.free_slot = none → E fullSet io)
    (hQ : ∀ slot, io.net.free_slot = some slot → Q slot { io with
      net := { io.net with sockets := io.net.sockets.set slot (some .listening) } } .nil) :
    post create_listen_socket Q E io := by
  have hvec : (vec_zeroed 4096 : IoM Nat) = Code.allocZeroed 4096 0 := by simp [vec_zeroed, isizeMax]
  simp only [create_listen_socket, hvec, post_bind, post_allocZeroed, Log.nil_app]
  intro _ _
  simp only [socket_add, post_bind, post_get]
  cases hfree : io.net.free_slot with
  | none =>
    simp only [show io.net.sockets.findIdx? (·.isNone) = none from hfree, post_throw]
    exact hE hfree
  | some slot =>
    simp only [show io.net.sockets.findIdx? (·.isNone) = some slot from hfree, socket_put, post_bind,
      post_modify, post_pure]
    exact hQ slot hfree

/-- What an `accept` on a socket does: it has nothing to accept, or the socket
    of the listening descriptor is connected and goes to a new one. -/
inductive Io.Accepts (env : Env) (fd : Nat) (io : Io) : Int → Io → Prop where
  | early (hlisten : io.net.listen_fd ≠ some fd) : Accepts env fd io (-11) io
  | again : Accepts env fd io (-11) (io.polled env)
  | connection (handle slot : Nat) (s : TcpSocket) (hlisten : io.net.listen_fd = some fd)
      (hfd : io.net.fd_to_handle[fd]? = some handle) (hlive : (io.polled env).net.socket handle = some s)
      (hconn : s.is_listening = false) (hfree : (io.polled env).net.free_slot = some slot) :
      Accepts env fd io (toIsize io.fake_fd_next) { io.polled env with
        fake_fds := io.fake_fds.insert io.fake_fd_next .InetSocket
        fake_fd_next := io.fake_fd_next + 1
        net := { (io.polled env).net with
          sockets := (io.polled env).net.sockets.set slot (some .listening)
          fd_to_handle := (io.net.fd_to_handle.insert fd slot).insert io.fake_fd_next handle } }

/-- **`accept`** on a socket.  It adds a listening socket whenever it finds a
    connection, whether there is a slot or not. -/
theorem post_accept_inet (fd : Int) (addr addrlen : Ptr)
    (hinet : io.fake_fds[ofIsize fd]? = some .InetSocket) :
    post (sys_accept env fd addr addrlen)
      (fun r t _ => Io.Accepts env (ofIsize fd) io r t)
      (fun e _ => e = deadHandle ∧ (io.polled env).Dangling ∨
        e = fullSet ∧ (io.polled env).net.free_slot = none ∧ io.net.listen_fd = some (ofIsize fd) ∧
        ∃ handle s, io.net.fd_to_handle[ofIsize fd]? = some handle ∧
          (io.polled env).net.socket handle = some s ∧ s.is_listening = false) io := by
  unfold sys_accept is_inet_socket accept_connection
  simp only [post_bind, post_get, post_pure, hinet, beq_self_eq_true, if_true]
  split
  · next hlisten =>
    simp only [post_pure]
    exact .early hlisten
  · next hlisten =>
    simp only [post_bind, post_poll_network, post_get]
    cases hfd : (io.polled env).net.fd_to_handle[ofIsize fd]? with
    | none =>
      simp only [post_pure]
      exact .again
    | some handle =>
      simp only [post_bind, socket_get, post_get]
      cases hs : (io.polled env).net.socket handle with
      | none =>
        simp only [show (io.polled env).net.sockets[handle]?.join = none from hs, post_throw]
        exact Or.inl ⟨rfl, _, handle, hfd, hs⟩
      | some s =>
        simp only [show (io.polled env).net.sockets[handle]?.join = some s from hs, post_pure]
        split
        · simp only [post_pure]
          exact .again
        · next hconn =>
          have hconn : s.is_listening = false := by simpa using hconn
          simp only [post_bind]
          refine post_create_listen_socket
            (fun hnone => Or.inr ⟨rfl, hnone, not_not.mp hlisten, handle, s, hfd, hs, hconn⟩)
            fun slot hfree => ?_
          have hdone := Io.Accepts.connection handle slot s (not_not.mp hlisten) hfd hs hconn hfree
          simp only [set_fd_handle, fake_fd_alloc, fake_fd_insert, post_bind, post_get, post_modify,
            post_pure]
          by_cases h1 : addr.addr = 0 <;> by_cases h2 : addrlen.addr = 0 <;>
            simp only [h1, h2, ne_eq, not_true_eq_false, not_false_eq_true, if_true, if_false, post_bind,
              post_storeBytes, post_pure] <;> exact hdone

theorem effect_sys_accept (fd : Int) (addr addrlen : Ptr) (hmay : may (.accept (ofIsize fd))) :
    IoEffect env may (sys_accept env fd addr addrlen) := by
  intro io
  by_cases hinet : io.fake_fds[ofIsize fd]? = some .InetSocket
  · have hpoll : Io.Reach env may io (io.polled env) := Io.reach_polled
    refine (post_accept_inet fd addr addrlen hinet).mono ?_ ?_
    · rintro r t _ (hlisten | _ | ⟨handle, slot, s, hlisten, hfd, hlive, hconn, hfree⟩)
      · exact .refl
      · exact hpoll
      · have hstep : Io.Change env may (io.polled env) _ :=
          .accept (ofIsize fd) handle slot s hmay hinet hlisten hfd hlive hfree
        exact hpoll.tail hstep
    · rintro e t (⟨rfl, hdangling⟩ | ⟨rfl, -⟩)
      · exact ⟨_, hpoll, fun _ => hdangling⟩
      · exact ⟨io, .refl, .other (by decide)⟩
  · have hother : (io.fake_fds[ofIsize fd]? == some .InetSocket) = false := by simpa using hinet
    simp only [EffectAt, sys_accept, is_inet_socket, is_fake_fd, post_bind, post_get, post_pure, hother,
      Bool.false_eq_true, if_false]
    split
    · exact effect_fresh _ (fun _ => .pure _) io
    · exact .refl

theorem effect_sys_listen (fd : Int) (hmay : may (.listen (ofIsize fd))) : IoEffect env may (sys_listen fd) := by
  intro io
  simp only [EffectAt, sys_listen, is_inet_socket, is_fake_fd, post_bind, post_get, post_pure]
  split
  · next hinet =>
    have hinet : io.fake_fds[ofIsize fd]? = some .InetSocket := by simpa using hinet
    unfold bind_listen_fd
    simp only [post_bind, post_get]
    split
    · simp only [post_pure]
      exact .refl
    · next hnew =>
      simp only [post_bind]
      refine post_create_listen_socket (fun _ => ⟨io, .refl, .other (by decide)⟩) fun slot hfree => ?_
      simp only [set_fd_handle, post_modify, post_pure]
      exact .single (.listen _ slot hmay hinet hnew hfree)
  · simp only [post_bind, post_get, post_pure]
    exact .refl

theorem effect_sys_sendto (fd : Int) (buf : Ptr) (len : Nat) :
    IoEffect env may (sys_sendto env fd buf len) := by
  refine fun io => .get_bind ?_
  split
  · next st hst =>
    exact (quiet_copy_in buf len).bind_effect fun _ =>
      .bind (.modify (.nscd _ st _ hst)) fun _ => effect_pure _
  · exact effect_send_to_fd _ buf len io
  · exact effect_pure _ io

theorem effect_sys_recvmsg (fd : Int) (msg : Ptr) : IoEffect env may (sys_recvmsg fd msg) := by
  refine fun io => .get_bind ?_
  split
  · next st hst =>
    simp only [EffectAt, post_bind, post_loadBytes]
    intro ptr _ len _
    split
    · simp only [post_bind, post_loadBytes]
      intro base _ len _
      split
      · simp only [fake_fd_insert, post_bind, post_storeBytes, post_modify, post_pure]
        exact .single (.nscd _ st _ hst)
      · exact .refl
    · exact .refl
  · exact effect_pure _ io

/-! ## Section 5: Events -/

theorem effect_epoll_ctl (fd : Int) (event : Ptr) (hmay : may (.epoll (ofIsize fd))) : IoEffect env may (sys_epoll_ctl fd event) := by
  refine fun io => .get_bind ?_
  dsimp only
  split
  · next hfake =>
    simp only [EffectAt, set_epoll_data, post_bind, post_loadBytes, post_modify, post_pure]
    exact fun _ _ => .single (.epoll _ _ hmay hfake.1)
  · exact effect_pure _ io

/-- The records are written without a change; a dead handle is one of those listed. -/
theorem effect_epoll_records (events_buf : Ptr) (maxevents : Nat) (l : List (Nat × Nat)) :
    ∀ count, (∀ p ∈ l, io.net.fd_to_handle[p.1]? = some p.2) →
      EffectAt (Io.Change env may) Io.Explains (epoll_records events_buf maxevents l count) io := by
  induction l with
  | nil => exact fun count _ => effect_pure _ io
  | cons p rest ih =>
    intro count hl
    have hrest := fun count => ih count fun q hq => hl q (List.mem_cons_of_mem _ hq)
    unfold epoll_records
    dsimp only
    split
    · exact effect_pure _ io
    · refine effect_socket_get (hl p List.mem_cons_self) fun s _ => ?_
      split
      · exact hrest _
      · simp only [EffectAt, post_bind, post_storeBytes, post_get]
        exact hrest _

theorem effect_get_epoll_events (events_buf : Ptr) (maxevents : Nat) :
    IoEffect env may (get_epoll_events env events_buf maxevents) := fun io =>
  (effect_poll_network io).bind fun _ _ => .get_bind <|
    effect_epoll_records events_buf maxevents _ 0 fun _ hp =>
      Std.TreeMap.mem_toList_iff_getElem?_eq_some.mp hp

theorem effect_epoll_wait (events : Ptr) (maxevents : Nat) (timeout : Int) (deadline : Option Int)
    (fuel : Nat) : IoEffect env may (epoll_wait env events maxevents timeout deadline fuel) := by
  induction fuel with
  | zero => exact fun io => .throw (.other (by decide))
  | succ fuel ih =>
    refine fun io => (effect_get_epoll_events events maxevents io).bind fun n io => ?_
    split
    · exact effect_pure _ io
    · split
      · exact effect_pure _ io
      · cases deadline with
        | none => exact ih io
        | some d =>
          refine EffectAt.bind ?_ fun ms io => ?_
          · exact (effect_rdtime io).bind fun _ => effect_pure _
          · split
            · exact effect_pure _ io
            · exact ih io

theorem effect_epoll_pwait (events : Ptr) (maxevents : Nat) (timeout : Int) :
    IoEffect env may (sys_epoll_pwait env events maxevents timeout) := fun io =>
  EffectAt.bind ((effect_rdtime io).bind fun _ => effect_pure _) fun _ =>
    effect_epoll_wait events maxevents timeout _ env.patience

theorem quiet_ppoll_loop (left : Nat) : ∀ p ready, Quiet (ppoll_loop p left ready) := by
  induction left with
  | zero => exact fun p ready => .pure _
  | succ left ih =>
    intro p ready io
    simp only [ppoll_loop, post_bind, post_loadBytes]
    intro fd _ events _
    split
    · simp only [post_bind, post_pure, post_storeBytes]
      exact ih _ _ io
    · simp only [is_fake_fd, post_bind, post_get, post_pure, post_storeBytes]
      exact ih _ _ io

/-! ## Section 6: The table of calls -/

theorem quiet_fill_stat (buf : Ptr) (size : Nat) : Quiet (fill_stat buf size) := fun io => by
  simp [fill_stat]

theorem quiet_fill_stat_chr (buf : Ptr) : Quiet (fill_stat_chr buf) := fun io => by
  simp [fill_stat_chr]

theorem quiet_fstat (fd : Int) (buf : Ptr) : Quiet (sys_fstat fd buf) := by
  intro io
  simp only [sys_fstat, post_bind, post_get]
  cases io.fd_table.get (ofIsize fd) with
  | none => simp
  | some of =>
    dsimp only
    split
    · exact (quiet_fill_stat_chr buf).bind (fun _ => .pure _) io
    · exact (quiet_fill_stat buf _).bind (fun _ => .pure _) io

theorem quiet_stat_path (path buf : Ptr) (enoent : Int) : Quiet (stat_path path buf enoent) := by
  refine (quiet_cstr path).bind fun path io => ?_
  simp only [post_bind, post_get]
  cases io.fs.lookup path with
  | none => simp
  | some inode => exact (quiet_fill_stat buf _).bind (fun _ => .pure _) io

theorem quiet_faccessat (path : Ptr) : Quiet (sys_faccessat path) :=
  (quiet_cstr path).bind fun path io => by simp

theorem quiet_readlinkat (path buf : Ptr) (bufsiz : Nat) : Quiet (sys_readlinkat path buf bufsiz) := by
  refine (quiet_cstr path).bind fun path io => ?_
  split <;> simp

theorem quiet_getcwd (buf : Ptr) (size : Nat) : Quiet (sys_getcwd buf size) := fun io => by
  unfold sys_getcwd
  split <;> simp

theorem quiet_fcntl (fd cmd : Int) : Quiet (sys_fcntl fd cmd) := fun io => by
  unfold sys_fcntl
  split
  · simp
  · split <;> simp [is_inet_socket]

theorem quiet_ioctl (fd req : Int) (arg : Ptr) : Quiet (sys_ioctl fd req arg) := fun io => by
  unfold sys_ioctl
  by_cases h1 : req = 0x5421
  · subst h1
    simp only [if_true, is_fake_fd, is_socket_fd, post_bind, post_get, post_pure]
    split <;> simp
  · by_cases h2 : req = 0x5401
    · subst h2
      by_cases hfd : fd < 3 <;> simp [hfd]
    · by_cases h3 : req = 0x5413
      · subst h3
        simp
      · simp [h1, h2, h3]

theorem quiet_fake_success (fd : Int) : Quiet (fake_success fd) := fun io => by
  simp [fake_success, is_fake_fd]

theorem quiet_store_limits (buf : Ptr) (cur max : Nat) : Quiet (store_limits buf cur max) :=
  fun io => by simp [store_limits]

theorem quiet_getrlimit (resource : Int) (buf : Ptr) : Quiet (sys_getrlimit resource buf) := by
  unfold sys_getrlimit
  split
  · exact (quiet_store_limits buf _ _).bind fun _ => .pure _
  · exact (quiet_store_limits buf _ _).bind fun _ => .pure _

theorem quiet_prlimit64 (resource : Int) (old_limit : Ptr) : Quiet (sys_prlimit64 resource old_limit) := by
  unfold sys_prlimit64
  split
  · exact (quiet_store_limits old_limit _ _).bind fun _ => .pure _
  · exact .pure _

theorem quiet_uname (buf : Ptr) : Quiet (sys_uname buf) := fun io => by simp [sys_uname]

theorem quiet_getrandom (buf : Ptr) (buflen : Nat) : Quiet (sys_getrandom buf buflen) :=
  fun io => by simp [sys_getrandom]

theorem effect_clock_gettime (buf : Ptr) : IoEffect env may (sys_clock_gettime env buf) := fun io =>
  (effect_rdtime io).bind fun _ io => (Effect.storeBytes io).bind fun _ io =>
    (Effect.storeBytes io).bind fun _ => effect_pure _

/-- The acts of the call with this number and these arguments. -/
def io_call_may (num : Nat) (a : Args) : Io.Act → Prop
  | .mkdir => num = 34
  | .listen fd => num = 201 ∧ fd = ofIsize (toIsize a.a0)
  | .accept fd => (num = 202 ∨ num = 242) ∧ fd = ofIsize (toIsize a.a0)
  | .epoll fd => num = 21 ∧ fd = ofIsize (toIsize a.a2)
  | .close fd => num = 57 ∧ fd = ofIsize (toIsize a.a0)

/-- **Every call of the table** only makes the changes of `Io.Change`, and of the
    acts only its own. -/
theorem io_call_effect {num : Nat} {a : Args} {c : IoM Int} (h : io_call env num a = some c) :
    IoEffect env (io_call_may num a) c := by
  unfold io_call at h
  split at h <;> cases h
  · exact (quiet_getcwd _ _).effect
  · exact effect_fresh _ fun _ => .pure _
  · exact effect_fresh _ fun _ => .pure _
  · exact effect_epoll_ctl _ _ ⟨rfl, rfl⟩
  · exact effect_epoll_pwait _ _ _
  · exact effect_dup2 _ _
  · exact effect_dup2 _ _
  · exact (quiet_fcntl _ _).effect
  · exact (quiet_ioctl _ _ _).effect
  · exact effect_mkdirat _ rfl
  · exact (quiet_faccessat _).effect
  · exact effect_openat _ _
  · exact effect_sys_close _ ⟨rfl, rfl⟩
  · exact effect_pipe2 _
  · exact effect_getdents64 _ _ _
  · exact effect_lseek _ _ _
  · exact effect_sys_read _ _ _
  · exact effect_sys_write _ _ _
  · exact effect_writev_loop _ _ _ _
  · exact effect_pread64 _ _ _ _
  · exact effect_pwrite64 _ _ _ _
  · exact effect_sendfile _ _ _
  · exact ((quiet_ppoll_loop _ _ _).bind fun _ => .pure _).effect
  · exact (quiet_readlinkat _ _ _).effect
  · exact (quiet_stat_path _ _ _).effect
  · exact (quiet_fstat _ _).effect
  · exact effect_clock_gettime _
  · exact (quiet_uname _).effect
  · exact (quiet_getrlimit _ _).effect
  · exact effect_sys_socket _
  · exact effect_socketpair _
  · exact (quiet_fake_success _).effect
  · exact effect_sys_listen _ ⟨rfl, rfl⟩
  · exact effect_sys_accept _ _ _ ⟨Or.inl rfl, rfl⟩
  · exact (quiet_fake_success _).effect
  · exact effect_sys_sendto _ _ _
  · exact effect_sys_read _ _ _
  · exact (quiet_fake_success _).effect
  · exact (quiet_fake_success _).effect
  · exact (quiet_fake_success _).effect
  · exact effect_sys_recvmsg _ _
  · exact effect_sys_accept _ _ _ ⟨Or.inr rfl, rfl⟩
  · exact (quiet_prlimit64 _ _).effect
  · exact (quiet_getrandom _ _).effect
  · exact (quiet_stat_path _ _ _).effect

/-- A returning call takes the tables through such changes. -/
theorem io_call_reach {num : Nat} {a : Args} {c : IoM Int} {M : Machine HeapAllocator Halt}
    {s t : St HeapAllocator Io} {r : Int} (hc : io_call env num a = some c)
    (hrun : run M c s = .ok r t) : Io.Reach env (io_call_may num a) s.st t.st :=
  (io_call_effect hc).run hrun

/-- What every change keeps is kept by any number of them. -/
theorem Io.Reach.invariant {inv : Io → Prop} {io io' : Io}
    (hchange : ∀ io io', inv io → Io.Change env may io io' → inv io')
    (hreach : Io.Reach env may io io') (h : inv io) : inv io' := by
  induction hreach with
  | refl => exact h
  | tail _ hstep ih => exact hchange _ _ ih hstep

end Effects

/-! ## Section 7: Runs -/

/-- A call with the address space, memory and heap it finds, and its result:
    other processes and calls may have changed them in between. -/
structure IoLabel where
  root : Nat
  mem : Mem
  heap : HeapAllocator
  num : Nat
  args : Args
  ret : Int

/-- The state the call is made in. -/
def IoLabel.start (l : IoLabel) (io : Io) : St HeapAllocator Io := ⟨l.mem, l.heap, io⟩

/-- One returning call. -/
def IoStep (env : Env) (io : Io) (l : IoLabel) (io' : Io) : Prop :=
  ∃ c t, io_call env l.num l.args = some c ∧ run (machine l.root) c (l.start io) = .ok l.ret t ∧
    t.st = io'

theorem IoStep.reach {env : Env} {io io' : Io} {l : IoLabel} (h : IoStep env io l io') :
    Io.Reach env (io_call_may l.num l.args) io io' := by
  obtain ⟨c, t, hc, hrun, rfl⟩ := h
  exact io_call_reach hc hrun

/-- An invariant of the changes holds along every run of calls. -/
theorem io_run_invariant {env : Env} {inv : Io → Prop}
    (hchange : ∀ may io io', inv io → Io.Change env may io io' → inv io') {io io' : Io}
    {ls : List IoLabel} (hrun : LTS.Steps (IoStep env) io ls io') (h : inv io) : inv io' :=
  LTS.Steps.invariant (fun _ _ _ hs hst => hst.reach.invariant (hchange _) hs) hrun h

/-- A call from the one page of user memory with a new heap: result and statics. -/
def Io.exec (env : Env) (io : Io) (num : Nat) (a : Args) : Option (Int × Io) :=
  match io_call env num a with
  | none => none
  | some c =>
    match run (machine 1) c ⟨onePage, init_heap, io⟩ with
    | .ok r t => some (r, t.st)
    | .error _ _ => none

/-- Such calls one after the other. -/
def Io.script (env : Env) : Io → List (Nat × Args) → Option Io
  | io, [] => some io
  | io, (num, a) :: calls => (io.exec env num a).bind fun p => p.2.script env calls

theorem Io.exec_step {env : Env} {io io' : Io} {num : Nat} {a : Args} {r : Int}
    (h : io.exec env num a = some (r, io')) :
    IoStep env io ⟨1, onePage, init_heap, num, a, r⟩ io' := by
  unfold Io.exec at h
  cases hc : io_call env num a with
  | none => simp [hc] at h
  | some c =>
    simp only [hc] at h
    cases hrun : run (machine 1) c ⟨onePage, init_heap, io⟩ with
    | error e t => simp [hrun] at h
    | ok r' t =>
      simp only [hrun, Option.some.injEq, Prod.mk.injEq] at h
      obtain ⟨rfl, rfl⟩ := h
      exact ⟨c, t, hc, hrun, rfl⟩

/-- A script is a run of the calls it lists. -/
theorem Io.script_steps {env : Env} {calls : List (Nat × Args)} : ∀ {io io' : Io},
    io.script env calls = some io' → ∃ ls, LTS.Steps (IoStep env) io ls io' ∧
      ls.map (fun l => (l.num, l.args)) = calls := by
  induction calls with
  | nil =>
    intro io io' h
    cases h
    exact ⟨[], .nil _, rfl⟩
  | cons p calls ih =>
    obtain ⟨num, a⟩ := p
    intro io io' h
    obtain ⟨⟨r, io1⟩, hexec, hrest⟩ := Option.bind_eq_some_iff.mp h
    obtain ⟨ls, hls, hcalls⟩ := ih hrest
    exact ⟨_, .cons (Io.exec_step hexec) hls, by simp [hcalls]⟩

end Rvos

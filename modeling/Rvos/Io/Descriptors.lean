import Rvos.Io.Effects

/-! # Calls that leave descriptors, files and pipes alone

    A program is `Outer` if it changes neither the descriptor table nor files or
    pipes.  Sockets, events and the console are such; of the table of calls all
    are but those of `descriptorCalls`.  It is `Apart` if it changes neither the
    descriptor table nor files, as the ends of pipes do. -/

namespace Rvos

open Access Access.Code ByteMem Usize

/-- The descriptor table, the files and the pipes. -/
def Io.store (io : Io) : FdTable × Fs × Std.TreeMap Nat PipeInner × Nat :=
  (io.fd_table, io.fs, io.pipes, io.next_pipe_id)

/-- The program leaves descriptors, files and pipes alone. -/
def Outer {α : Type} (c : IoM α) : Prop :=
  ∀ io, post c (fun _ t _ => t.store = io.store) (fun _ _ => True) io

/-- The program leaves the descriptor table and the files alone. -/
def Apart {α : Type} (c : IoM α) : Prop :=
  ∀ io, post c (fun _ t _ => t.fd_table = io.fd_table ∧ t.fs = io.fs) (fun _ _ => True) io

section Apart

variable {α β : Type} {env : Env}

/-! ## Section 1: Rules -/

theorem Outer.pure (a : α) : Outer (Pure.pure a : IoM α) := fun _ => rfl

theorem Outer.throw (e : Halt) : Outer (MonadExcept.throw e : IoM α) := fun _ => trivial

theorem Quiet.outer {c : IoM α} (h : Quiet c) : Outer c := by
  intro io
  refine (h io).mono ?_ fun _ _ _ => trivial
  rintro a t l rfl
  rfl

theorem Outer.modify {g : Io → Io} (h : ∀ io, (g io).store = io.store) : Outer (modify g : IoM PUnit) := h

theorem Outer.bind {c : IoM α} {f : α → IoM β} (hc : Outer c) (hf : ∀ a, Outer (f a)) :
    Outer (c >>= f) := by
  intro io
  rw [post_bind]
  refine (hc io).mono ?_ fun _ _ h => h
  intro a t l ht
  refine (hf a t).mono ?_ fun _ _ h => h
  intro b u l' hu
  exact hu.trans ht

theorem Outer.get_bind {f : Io → IoM β} (hf : ∀ io, Outer (f io)) : Outer (MonadState.get >>= f) :=
  fun io => hf io io

theorem Outer.ite {p : Prop} [Decidable p] {c d : IoM α} (hc : Outer c) (hd : Outer d) :
    Outer (if p then c else d) := by
  split
  · exact hc
  · exact hd

theorem Outer.print (bs : List UInt8) : Outer (print bs) := .modify fun _ => rfl

theorem Outer.storeBytes (p : Ptr) (bs : List UInt8) : Outer (Code.storeBytes p bs : IoM Unit) :=
  (Quiet.storeBytes p bs).outer

theorem Outer.loadBytes (p : Ptr) (n : Nat) : Outer (Code.loadBytes p n : IoM (List UInt8)) :=
  (Quiet.loadBytes p n).outer

theorem Outer.keeps {inv : Io → Prop} (hinv : ∀ io io', io'.store = io.store → inv io → inv io')
    {c : IoM α} (h : Outer c) : Keeps inv c := by
  intro io hio
  refine (h io).mono ?_ fun _ _ h => h
  intro a t l ht
  exact hinv io t ht hio

theorem Outer.apart {c : IoM α} (h : Outer c) : Apart c := by
  intro io
  refine (h io).mono ?_ fun _ _ h => h
  intro a t l ht
  exact ⟨congrArg Prod.fst ht, congrArg (fun x => x.2.1) ht⟩

theorem Quiet.apart {c : IoM α} (h : Quiet c) : Apart c := h.outer.apart

theorem Apart.pure (a : α) : Apart (Pure.pure a : IoM α) := (Outer.pure a).apart

theorem Apart.modify {g : Io → Io} (htable : ∀ io, (g io).fd_table = io.fd_table)
    (hfs : ∀ io, (g io).fs = io.fs) : Apart (modify g : IoM PUnit) := fun io => ⟨htable io, hfs io⟩

theorem Apart.bind {c : IoM α} {f : α → IoM β} (hc : Apart c) (hf : ∀ a, Apart (f a)) :
    Apart (c >>= f) := by
  intro io
  rw [post_bind]
  refine (hc io).mono ?_ fun _ _ h => h
  intro a t l ht
  refine (hf a t).mono ?_ fun _ _ h => h
  intro b u l' hu
  exact ⟨hu.1.trans ht.1, hu.2.trans ht.2⟩

theorem Apart.get_bind {f : Io → IoM β} (hf : ∀ io, Apart (f io)) : Apart (MonadState.get >>= f) :=
  fun io => hf io io

/-- An invariant of the table and the files. -/
theorem Apart.keeps {inv : Io → Prop} (hinv : ∀ io io', io'.fd_table = io.fd_table → io'.fs = io.fs →
    inv io → inv io') {c : IoM α} (h : Apart c) : Keeps inv c := by
  intro io hio
  refine (h io).mono ?_ fun _ _ h => h
  intro a t l ht
  exact hinv io t ht.1 ht.2 hio

theorem Apart.storeBytes (p : Ptr) (bs : List UInt8) : Apart (Code.storeBytes p bs : IoM Unit) :=
  (Outer.storeBytes p bs).apart

/-! ## Section 2: Sockets and events -/

theorem outer_fake_fd_insert (fd : Nat) (t : FakeFdType) : Outer (fake_fd_insert fd t) :=
  .modify fun _ => rfl

theorem outer_fake_fd_alloc : Outer fake_fd_alloc :=
  .get_bind fun _ => .bind (.modify fun _ => rfl) fun _ => .pure _

theorem outer_is_inet_socket (fd : Nat) : Outer (is_inet_socket fd) := .get_bind fun _ => .pure _

theorem outer_is_fake_fd (fd : Nat) : Outer (is_fake_fd fd) := .get_bind fun _ => .pure _

theorem outer_rdtime : Outer (rdtime env) :=
  .get_bind fun _ => .bind (.modify fun _ => rfl) fun _ => .pure _

theorem outer_poll_network : Outer (poll_network env) :=
  outer_rdtime.bind fun _ => .modify fun _ => rfl

theorem outer_socket_get (handle : Nat) : Outer (socket_get handle) := by
  refine .get_bind fun io => ?_
  cases io.net.sockets[handle]?.join with
  | none => exact .throw _
  | some s => exact .pure s

theorem outer_socket_put (handle : Nat) (s : TcpSocket) : Outer (socket_put handle s) :=
  .modify fun _ => rfl

theorem outer_create_listen_socket : Outer create_listen_socket := by
  refine (quiet_vec_zeroed _).outer.bind fun _ => (quiet_vec_zeroed _).outer.bind fun _ =>
    .get_bind fun io => ?_
  cases io.net.sockets.findIdx? (·.isNone) with
  | none => exact .throw _
  | some handle => exact (outer_socket_put _ _).bind fun _ => .pure _

theorem outer_set_fd_handle (fd handle : Nat) : Outer (set_fd_handle fd handle) :=
  .modify fun _ => rfl

theorem outer_bind_listen_fd (fd : Nat) : Outer (bind_listen_fd fd) := by
  refine .get_bind fun io => .ite (.pure _) ?_
  exact outer_create_listen_socket.bind fun _ => (outer_set_fd_handle _ _).bind fun _ =>
    .modify fun _ => rfl

theorem outer_accept_connection (fd : Nat) : Outer (accept_connection env fd) := by
  refine .get_bind fun io => .ite (.pure _) (outer_poll_network.bind fun _ => .get_bind fun io => ?_)
  cases io.net.fd_to_handle[fd]? with
  | none => exact .pure _
  | some handle =>
    refine (outer_socket_get _).bind fun socket => .ite (.pure _) ?_
    exact outer_create_listen_socket.bind fun _ => (outer_set_fd_handle _ _).bind fun _ => .pure _

theorem outer_recv_from_fd (fd : Nat) (buf : Ptr) (len : Nat) : Outer (recv_from_fd env fd buf len) := by
  refine outer_poll_network.bind fun _ => .get_bind fun io => ?_
  cases io.net.fd_to_handle[fd]? with
  | none => exact .pure _
  | some handle =>
    refine (outer_socket_get _).bind fun socket => .ite (.pure _) ?_
    exact (Outer.storeBytes _ _).bind fun _ => (outer_socket_put _ _).bind fun _ => .pure _

theorem outer_send_to_fd (fd : Nat) (buf : Ptr) (len : Nat) : Outer (send_to_fd env fd buf len) := by
  refine outer_poll_network.bind fun _ => .get_bind fun io => ?_
  cases io.net.fd_to_handle[fd]? with
  | none => exact .pure _
  | some handle =>
    refine (outer_socket_get _).bind fun socket => .ite (.pure _) ?_
    exact (Outer.loadBytes _ _).bind fun _ => (outer_socket_put _ _).bind fun _ => .pure _

theorem outer_close_fd (fd : Nat) : Outer (close_fd fd) := by
  have hdrop : Outer (modify fun io : Io =>
      { io with net := { io.net with epoll_data := io.net.epoll_data.erase fd } } : IoM PUnit) :=
    .modify fun _ => rfl
  refine .get_bind fun io => .ite (hdrop.bind fun _ => .pure _) (.get_bind fun io => ?_)
  cases io.net.fd_to_handle[fd]? with
  | none => exact hdrop
  | some handle =>
    refine .bind (.modify fun _ => rfl) fun _ => (outer_socket_get _).bind fun _ => ?_
    exact .bind (.modify fun _ => rfl) fun _ => hdrop

theorem outer_epoll_records (events_buf : Ptr) (maxevents : Nat) (l : List (Nat × Nat)) :
    ∀ count, Outer (epoll_records events_buf maxevents l count) := by
  induction l with
  | nil => exact fun _ => .pure _
  | cons p rest ih =>
    intro count
    simp only [epoll_records]
    refine .ite (.pure _) ((outer_socket_get _).bind fun socket => .ite (ih _) ?_)
    exact (Outer.storeBytes _ _).bind fun _ => .get_bind fun _ => (Outer.storeBytes _ _).bind fun _ => ih _

theorem outer_get_epoll_events (events_buf : Ptr) (maxevents : Nat) :
    Outer (get_epoll_events env events_buf maxevents) :=
  outer_poll_network.bind fun _ => .get_bind fun _ => outer_epoll_records _ _ _ _

theorem outer_epoll_wait (events : Ptr) (maxevents : Nat) (timeout : Int) (deadline : Option Int)
    (fuel : Nat) : Outer (epoll_wait env events maxevents timeout deadline fuel) := by
  induction fuel with
  | zero => exact .throw _
  | succ fuel ih =>
    simp only [epoll_wait]
    refine (outer_get_epoll_events _ _).bind fun n => .ite (.pure _) (.ite (.pure _) ?_)
    cases deadline with
    | none => exact ih
    | some d => exact (outer_rdtime.bind fun _ => .pure _).bind fun ms => .ite (.pure _) ih

theorem outer_fresh {f : Nat → IoM β} (t : FakeFdType) (hf : ∀ fd, Outer (f fd)) :
    Outer (do let fd ← fake_fd_alloc; fake_fd_insert fd t; f fd) :=
  outer_fake_fd_alloc.bind fun _ => (outer_fake_fd_insert _ _).bind fun _ => hf _

/-! ## Section 3: Console and pipes -/

theorem outer_read_line (buf : Ptr) (count : Nat) (input : List UInt8) :
    ∀ n, Outer (read_line buf count input n) := by
  induction input with
  | nil =>
    intro n
    unfold read_line
    exact .ite (.throw _) (.pure _)
  | cons c input ih =>
    intro n
    simp only [read_line]
    refine .ite (.pure _) (.bind (.modify fun _ => rfl) fun _ => .ite (.ite ?_ (ih _)) ?_)
    · exact (Outer.print _).bind fun _ => ih _
    · have hstore : ∀ p b, Outer (Code.storeByte p b : IoM Unit) := fun p b io => by simp
      exact (Outer.print _).bind fun _ => (hstore _ _).bind fun _ => .ite (.pure _) (ih _)

theorem apart_write_pipe (pid : Nat) (buf : Ptr) (count : Nat) : Apart (write_pipe pid buf count) := by
  refine .get_bind fun io => ?_
  cases io.pipes[pid]? with
  | none => exact .pure _
  | some pipe =>
    exact (quiet_copy_in _ _).apart.bind fun _ => .bind (.modify (fun _ => rfl) fun _ => rfl) fun _ => .pure _

theorem apart_read_pipe (pid : Nat) (buf : Ptr) (count : Nat) : Apart (read_pipe pid buf count) := by
  refine .get_bind fun io => ?_
  cases io.pipes[pid]? with
  | none => exact .pure _
  | some pipe =>
    exact (quiet_vec_zeroed _).apart.bind fun _ => .bind (.modify (fun _ => rfl) fun _ => rfl) fun _ =>
      (Apart.storeBytes _ _).bind fun _ => .pure _

/-! ## Section 4: The table of calls -/

theorem outer_pread64 (fd : Int) (buf : Ptr) (count offset : Nat) :
    Outer (sys_pread64 fd buf count offset) := by
  refine .get_bind fun io => ?_
  cases io.fd_table.get (ofIsize fd) with
  | none => exact .pure _
  | some of =>
    exact (quiet_read_file _ _ _).outer.bind fun _ => (Outer.storeBytes _ _).bind fun _ => .pure _

theorem outer_epoll_ctl (fd : Int) (event : Ptr) : Outer (sys_epoll_ctl fd event) := by
  refine (outer_is_fake_fd _).bind fun _ => .ite ?_ (.pure _)
  exact (Outer.loadBytes _ _).bind fun _ => .bind (.modify fun _ => rfl) fun _ => .pure _

theorem outer_epoll_pwait (events : Ptr) (maxevents : Nat) (timeout : Int) :
    Outer (sys_epoll_pwait env events maxevents timeout) :=
  (outer_rdtime.bind fun _ => .pure _).bind fun _ => outer_epoll_wait _ _ _ _ _

theorem outer_clock_gettime (buf : Ptr) : Outer (sys_clock_gettime env buf) :=
  outer_rdtime.bind fun _ => (Outer.storeBytes _ _).bind fun _ =>
    (Outer.storeBytes _ _).bind fun _ => .pure _

theorem outer_socket (domain : Int) : Outer (sys_socket domain) := by
  refine outer_fake_fd_alloc.bind fun _ => .ite ?_ (.ite ?_ (.pure _))
  · exact (outer_fake_fd_insert _ _).bind fun _ => .pure _
  · exact (outer_fake_fd_insert _ _).bind fun _ => .pure _

theorem outer_socketpair (sv : Ptr) : Outer (sys_socketpair sv) :=
  outer_fake_fd_alloc.bind fun _ => outer_fake_fd_alloc.bind fun _ =>
    (outer_fake_fd_insert _ _).bind fun _ => (outer_fake_fd_insert _ _).bind fun _ =>
      (Outer.storeBytes _ _).bind fun _ => (Outer.storeBytes _ _).bind fun _ => .pure _

theorem outer_listen (fd : Int) : Outer (sys_listen fd) := by
  refine (outer_is_inet_socket _).bind fun _ => .ite ?_ ?_
  · exact (outer_bind_listen_fd _).bind fun _ => .pure _
  · exact (outer_is_fake_fd _).bind fun _ => .pure _

theorem outer_accept (fd : Int) (addr addrlen : Ptr) : Outer (sys_accept env fd addr addrlen) := by
  have hlen : ∀ r : Int, Outer (do
      if addrlen.addr ≠ 0 then
        Code.storeBytes addrlen (leBytes 4 16)
      return r : IoM Int) := fun r =>
    .ite ((Outer.storeBytes _ _).bind fun _ => .pure _) (.pure _)
  refine (outer_is_inet_socket _).bind fun _ => .ite ((outer_accept_connection _).bind fun o => ?_) ?_
  · cases o with
    | none => exact .pure _
    | some handle =>
      refine outer_fake_fd_alloc.bind fun _ => (outer_fake_fd_insert _ _).bind fun _ =>
        (outer_set_fd_handle _ _).bind fun _ => .ite ?_ (hlen _)
      exact (Outer.storeBytes _ _).bind fun _ => (Outer.storeBytes _ _).bind fun _ =>
        (Outer.storeBytes _ _).bind fun _ => (Outer.storeBytes _ _).bind fun _ => hlen _
  · refine (outer_is_fake_fd _).bind fun _ => .ite ?_ (.pure _)
    exact outer_fresh _ fun _ => .pure _

theorem outer_sendto (fd : Int) (buf : Ptr) (len : Nat) : Outer (sys_sendto env fd buf len) := by
  refine .get_bind fun io => ?_
  rcases io.fake_fds[ofIsize fd]? with _ | (st | _ | _ | _)
  · exact .pure _
  · exact (quiet_copy_in _ _).outer.bind fun _ => (outer_fake_fd_insert _ _).bind fun _ => .pure _
  · exact outer_send_to_fd _ _ _
  · exact .pure _
  · exact .pure _

theorem outer_recvmsg (fd : Int) (msg : Ptr) : Outer (sys_recvmsg fd msg) := by
  refine .get_bind fun io io' => ?_
  split
  · simp only [post_bind, post_loadBytes]
    intro ptr _ len _
    split
    · simp only [post_bind, post_loadBytes]
      intro base _ len _
      split
      · simp [fake_fd_insert, Io.store]
      · exact rfl
    · exact rfl
  · exact rfl

/-- The calls that open, close, copy or move descriptors, or change files. -/
def descriptorCalls : List Nat := [23, 24, 34, 56, 57, 59, 61, 62, 63, 64, 66, 68, 71, 207]

/-- **All other calls of the table** leave descriptors, files and pipes alone. -/
theorem io_call_outer {num : Nat} {a : Args} {c : IoM Int} (h : io_call env num a = some c)
    (hnum : num ∉ descriptorCalls) : Outer c := by
  unfold io_call at h
  split at h <;> cases h
  · exact (quiet_getcwd _ _).outer
  · exact outer_fresh _ fun _ => .pure _
  · exact outer_fresh _ fun _ => .pure _
  · exact outer_epoll_ctl _ _
  · exact outer_epoll_pwait _ _ _
  · exact absurd (by decide) hnum
  · exact absurd (by decide) hnum
  · exact (quiet_fcntl _ _).outer
  · exact (quiet_ioctl _ _ _).outer
  · exact absurd (by decide) hnum
  · exact (quiet_faccessat _).outer
  · exact absurd (by decide) hnum
  · exact absurd (by decide) hnum
  · exact absurd (by decide) hnum
  · exact absurd (by decide) hnum
  · exact absurd (by decide) hnum
  · exact absurd (by decide) hnum
  · exact absurd (by decide) hnum
  · exact absurd (by decide) hnum
  · exact outer_pread64 _ _ _ _
  · exact absurd (by decide) hnum
  · exact absurd (by decide) hnum
  · exact ((quiet_ppoll_loop _ _ _).bind fun _ => .pure _).outer
  · exact (quiet_readlinkat _ _ _).outer
  · exact (quiet_stat_path _ _ _).outer
  · exact (quiet_fstat _ _).outer
  · exact outer_clock_gettime _
  · exact (quiet_uname _).outer
  · exact (quiet_getrlimit _ _).outer
  · exact outer_socket _
  · exact outer_socketpair _
  · exact (quiet_fake_success _).outer
  · exact outer_listen _
  · exact outer_accept _ _ _
  · exact (quiet_fake_success _).outer
  · exact outer_sendto _ _ _
  · exact absurd (by decide) hnum
  · exact (quiet_fake_success _).outer
  · exact (quiet_fake_success _).outer
  · exact (quiet_fake_success _).outer
  · exact outer_recvmsg _ _
  · exact outer_accept _ _ _
  · exact (quiet_prlimit64 _ _).outer
  · exact (quiet_getrandom _ _).outer
  · exact (quiet_stat_path _ _ _).outer

theorem io_call_apart {num : Nat} {a : Args} {c : IoM Int} (h : io_call env num a = some c)
    (hnum : num ∉ descriptorCalls) : Apart c := (io_call_outer h hnum).apart

end Apart

end Rvos

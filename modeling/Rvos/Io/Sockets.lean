import Rvos.Io.Inodes

/-! # Descriptors and the socket set

    `FD_TO_HANDLE` gives a descriptor the slot of its socket.  Slots are reused
    after a removal, so an entry that outlived its socket would show a later
    connection on two descriptors.

    * `Wired` : no two descriptors have one slot, and every slot in the table is
      taken; kept by every change (`Wired.change`), whatever the network does to
      the sockets, as long as it does not add or remove any (`Env.KeepsSlots`).
    * `listen_slots` : a new listening socket needs a free slot, and nothing looks
      for one before it is added. -/

namespace Rvos

open Access Access.Code ByteMem Usize

/-! ## Section 1: Slots -/

/-- The network stack changes sockets but neither adds nor removes any. -/
def Env.KeepsSlots (env : Env) : Prop :=
  ∀ n sockets, (env.poll n sockets).map Option.isSome = sockets.map Option.isSome

namespace Net

variable {net : Net} {slot handle : Nat}

/-- The slot is taken. -/
def Live (net : Net) (handle : Nat) : Prop := ∃ s, net.socket handle = some s

theorem live_iff : net.Live handle ↔ (net.sockets.map Option.isSome)[handle]? = some true := by
  unfold Live socket
  rw [List.getElem?_map]
  cases h : net.sockets[handle]? with
  | none => simp
  | some o => cases o <;> simp

theorem Live.lt (h : net.Live handle) : handle < net.sockets.length := by
  obtain ⟨s, hs⟩ := h
  by_contra hge
  simp [socket, List.getElem?_eq_none (Nat.not_lt.mp hge)] at hs

theorem socket_set (x : Option TcpSocket) (hlt : slot < net.sockets.length) (h : Nat) :
    ({ net with sockets := net.sockets.set slot x } : Net).socket h =
      if h = slot then x else net.socket h := by
  unfold socket
  by_cases hh : h = slot
  · subst hh
    simp [hlt]
  · simp [List.getElem?_set_ne (Ne.symm hh), hh]

/-- A free slot is inside the set and not taken. -/
theorem free_slot_spec (h : net.free_slot = some slot) :
    slot < net.sockets.length ∧ ¬ net.Live slot := by
  obtain ⟨hlt, hnone, -⟩ := List.findIdx?_eq_some_iff_getElem.mp h
  refine ⟨hlt, ?_⟩
  rintro ⟨s, hs⟩
  have hnone : net.sockets[slot] = none := by simpa using hnone
  simp [socket, List.getElem?_eq_getElem hlt, hnone] at hs

end Net

/-! ## Section 2: One descriptor for each connection -/

/-- No slot has two descriptors, and no descriptor has a free slot. -/
structure Wired (net : Net) : Prop where
  inj : ∀ fd fd' handle : Nat, net.fd_to_handle[fd]? = some handle →
    net.fd_to_handle[fd']? = some handle → fd = fd'
  live : ∀ fd handle : Nat, net.fd_to_handle[fd]? = some handle → net.Live handle

namespace Wired

variable {net net' : Net} {fd slot handle : Nat}

/-- Only the occupation of the slots matters. -/
theorem congr (h : Wired net) (hmap : net'.fd_to_handle = net.fd_to_handle)
    (hocc : net'.sockets.map Option.isSome = net.sockets.map Option.isSome) : Wired net' where
  inj := by
    rw [hmap]
    exact h.inj
  live := fun fd handle hfd => by
    rw [Net.live_iff, hocc, ← Net.live_iff]
    exact h.live fd handle (hmap ▸ hfd)

/-- A descriptor gets a socket in a free slot. -/
theorem fresh_slot (h : Wired net) (fd : Nat) (hfree : net.free_slot = some slot) (s : TcpSocket) :
    Wired { net with
      sockets := net.sockets.set slot (some s)
      fd_to_handle := net.fd_to_handle.insert fd slot } := by
  obtain ⟨hlt, hdead⟩ := Net.free_slot_spec hfree
  have hlive : ∀ h', ({ net with sockets := net.sockets.set slot (some s) } : Net).Live h' ↔
      h' = slot ∨ net.Live h' := by
    intro h'
    unfold Net.Live
    rw [Net.socket_set _ hlt]
    by_cases hh : h' = slot <;> simp [hh]
  refine ⟨fun fd1 fd2 h' h1 h2 => ?_, fun fd1 h' h1 => ?_⟩
  · simp only [Assoc.get_insert] at h1 h2
    split at h1
    · next hfd1 =>
      split at h2
      · next hfd2 => rw [hfd1, hfd2]
      · exact absurd (h.live fd2 slot (Option.some.inj h1 ▸ h2)) hdead
    · split at h2
      · exact absurd (h.live fd1 slot (Option.some.inj h2 ▸ h1)) hdead
      · exact h.inj fd1 fd2 h' h1 h2
  · simp only [Assoc.get_insert] at h1
    refine (hlive h').mpr ?_
    split at h1
    · exact Or.inl (Option.some.inj h1).symm
    · exact Or.inr (h.live fd1 h' h1)

/-- A slot without a descriptor gets one. -/
theorem adopt (h : Wired net) (hlive : net.Live handle)
    (hfree : ∀ fd' : Nat, net.fd_to_handle[fd']? ≠ some handle) :
    Wired { net with fd_to_handle := net.fd_to_handle.insert fd handle } := by
  refine ⟨fun fd1 fd2 h' h1 h2 => ?_, fun fd1 h' h1 => ?_⟩
  · simp only [Assoc.get_insert] at h1 h2
    split at h1
    · next hfd1 =>
      split at h2
      · next hfd2 => rw [hfd1, hfd2]
      · exact absurd (Option.some.inj h1 ▸ h2) (hfree fd2)
    · split at h2
      · exact absurd (Option.some.inj h2 ▸ h1) (hfree fd1)
      · exact h.inj fd1 fd2 h' h1 h2
  · simp only [Assoc.get_insert] at h1
    split at h1
    · exact Option.some.inj h1 ▸ hlive
    · exact h.live fd1 h' h1

/-- A socket is removed together with its descriptor. -/
theorem remove (h : Wired net) (hfd : net.fd_to_handle[fd]? = some handle) :
    Wired { net with
      sockets := net.sockets.set handle none
      fd_to_handle := net.fd_to_handle.erase fd } := by
  have hget : ∀ fd' : Nat, (net.fd_to_handle.erase fd)[fd']? =
      if fd' = fd then none else net.fd_to_handle[fd']? := Assoc.get_erase _ _
  refine ⟨fun fd1 fd2 h' h1 h2 => ?_, fun fd1 h' h1 => ?_⟩
  · simp only [hget] at h1 h2
    split at h1
    · cases h1
    · split at h2
      · cases h2
      · exact h.inj fd1 fd2 h' h1 h2
  · simp only [hget] at h1
    split at h1
    · cases h1
    · next hne =>
      have hh : h' ≠ handle := fun he => hne (h.inj fd1 fd h' h1 (he ▸ hfd))
      obtain ⟨s, hs⟩ := h.live fd1 h' h1
      refine ⟨s, ?_⟩
      show ({ net with sockets := net.sockets.set handle none } : Net).socket h' = _
      rw [Net.socket_set _ (h.live fd handle hfd).lt, if_neg hh, hs]

end Wired

/-- A taken slot with another socket in it. -/
theorem occupied_set {net : Net} {handle : Nat} (h : net.Live handle) (s : TcpSocket) :
    (net.sockets.set handle (some s)).map Option.isSome = net.sockets.map Option.isSome := by
  rw [List.map_set]
  refine List.ext_getElem? fun i => ?_
  rw [List.getElem?_set]
  split
  · next hi =>
    subst hi
    rw [Net.live_iff.mp h]
    simp [h.lt]
  · rfl

/-- **One step**: every change keeps the wiring. -/
theorem Wired.change {env : Env} {may : Io.Act → Prop} {io io' : Io} (hpoll : env.KeepsSlots)
    (h : Wired io.net) (hc : Io.Change env may io io') : Wired io'.net := by
  cases hc with
  | poll => exact h.congr rfl (hpoll _ _)
  | listen fd slot _ hinet hnew hfree => exact (h.fresh_slot fd hfree .listening).congr rfl rfl
  | accept fd handle slot s _ hinet hlisten hfd hlive hfree =>
    obtain ⟨hlt, hdead⟩ := Net.free_slot_spec hfree
    have hhandle : io.net.Live handle := ⟨s, hlive⟩
    have hne : handle ≠ slot := fun he => hdead (he ▸ hhandle)
    refine (Wired.adopt (h.fresh_slot fd hfree .listening) ?_ ?_).congr rfl rfl
    · refine ⟨s, ?_⟩
      show ({ io.net with sockets := io.net.sockets.set slot _ } : Net).socket handle = _
      rw [Net.socket_set _ hlt, if_neg hne, hlive]
    · intro fd' hfd'
      simp only [Assoc.get_insert] at hfd'
      split at hfd'
      · exact hne (Option.some.inj hfd').symm
      · next hother => exact hother (h.inj fd' fd handle hfd' hfd)
  | transfer fd handle s s' hfd hlive hmoves => exact h.congr rfl (occupied_set ⟨s, hlive⟩ s')
  | epoll fd data _ hfake => exact h.congr rfl rfl
  | close_plain fd _ hinet hplain => exact h.congr rfl rfl
  | close_socket fd handle s _ hinet hlisten hfd hlive => exact (h.remove hfd).congr rfl rfl
  | _ => exact h

theorem Wired.boot (b : Fs.Blobs) : Wired (Io.boot b).net where
  inj := fun fd fd' handle h => by simp [Io.boot, Io.new] at h
  live := fun fd handle h => by simp [Io.boot, Io.new] at h

theorem effect_is_listen_readable {env : Env} {may : Io.Act → Prop} :
    IoEffect env may (is_listen_readable env) := by
  refine fun io => .get_bind ?_
  cases io.net.listen_fd with
  | none => exact effect_pure _ io
  | some fd =>
    refine (effect_poll_network io).bind fun _ io => .get_bind ?_
    cases hfd : io.net.fd_to_handle[fd]? with
    | none => exact effect_pure _ io
    | some handle => exact effect_socket_get hfd fun s _ => effect_pure _ io

/-- A program with these effects looks up no free slot. -/
theorem Wired.no_dead_handle {env : Env} {may : Io.Act → Prop} {α : Type} {c : IoM α} {io : Io}
    (hpoll : env.KeepsSlots) (h : Wired io.net) (hc : IoEffect env may c) {root : Nat} {mem : Mem}
    {heap : HeapAllocator} {e : Halt} {t : St HeapAllocator Io}
    (hrun : run (machine root) c ⟨mem, heap, io⟩ = .error e t) : e ≠ deadHandle := by
  rintro rfl
  rcases hc.error hrun with ⟨io', hreach, hexp⟩ | ⟨va, hfault⟩ | ⟨n, hoom⟩
  · obtain ⟨fd, handle, hfd, hdead⟩ := hexp rfl
    have hreach : Io.Reach env may io io' := hreach
    have h' : Wired io'.net :=
      hreach.invariant (fun _ _ hw hc => Wired.change hpoll hw hc) h
    obtain ⟨s, hs⟩ := h'.live fd handle hfd
    rw [hdead] at hs
    cases hs
  · cases hfault
  · exact absurd (Halt.panic.inj hoom) (by decide)

/-- **Descriptors and connections.**  In every state that calls reach from boot,
    whatever the network does to the sockets: no two descriptors have the same
    handle, every handle is that of a live socket, and no call looks up a socket
    that has been removed. -/
theorem descriptors_wired (env : Env) (hpoll : env.KeepsSlots) (b : Fs.Blobs) {io : Io}
    {ls : List IoLabel} (hrun : LTS.Steps (IoStep env) (Io.boot b) ls io) :
    Wired io.net ∧
      (∀ root mem heap num a c e t, io_call env num a = some c →
        run (machine root) c ⟨mem, heap, io⟩ = .error e t → e ≠ deadHandle) ∧
      ∀ root mem heap e t,
        run (machine root) (is_listen_readable env) ⟨mem, heap, io⟩ = .error e t → e ≠ deadHandle := by
  have h : Wired io.net :=
    io_run_invariant (fun _ _ _ hw hc => Wired.change hpoll hw hc) hrun (Wired.boot b)
  refine ⟨h, ?_, ?_⟩
  · intro root mem heap num a c e t hc herr
    exact h.no_dead_handle hpoll (io_call_effect hc) herr
  · intro root mem heap e t herr
    have hread : IoEffect env (fun _ => False) (is_listen_readable env) := effect_is_listen_readable
    exact h.no_dead_handle hpoll hread herr

/-- The calls `socket(AF_INET)` and `listen` for the first descriptor. -/
def listenCalls : List (Nat × Args) := [(198, ⟨2, 0, 0, 0, 0, 0⟩), (201, ⟨100, 0, 0, 0, 0, 0⟩)]

theorem Env.idle_keeps_slots : Env.idle.KeepsSlots := fun _ _ => rfl

/-- After them descriptor 100 has slot 0. -/
theorem descriptors_wired_listen :
    ∃ io, (Io.boot Fs.noBlobs).script .idle listenCalls = some io ∧
      io.net.fd_to_handle[100]? = some 0 ∧ Wired io.net := by
  have hsome : (((Io.boot Fs.noBlobs).script .idle listenCalls).map
      fun io => io.net.fd_to_handle[100]?) = some (some 0) := by decide +kernel
  obtain ⟨io, hio, hfd⟩ := Option.map_eq_some_iff.mp hsome
  obtain ⟨ls, hrun, -⟩ := Io.script_steps hio
  exact ⟨io, hio, hfd, (descriptors_wired .idle Env.idle_keeps_slots Fs.noBlobs hrun).1⟩

/-! ## Section 3: Slots for listening sockets -/

/-- The calls that create or remove sockets. -/
inductive SocketCall where
  | listen (fd : Int)
  | accept (fd : Int) (addr addrlen : Ptr)
  | close (fd : Int)

def SocketCall.code (env : Env) : SocketCall → IoM Int
  | .listen fd => sys_listen fd
  | .accept fd addr addrlen => sys_accept env fd addr addrlen
  | .close fd => sys_close fd

/-- The call creates a listening socket: `listen` on a socket that is not the
    listening one, `accept` on that one when the poll has connected it. -/
def SocketCall.Creates (env : Env) (io : Io) : SocketCall → Prop
  | .listen fd => io.fake_fds[ofIsize fd]? = some .InetSocket ∧ io.net.listen_fd ≠ some (ofIsize fd)
  | .accept fd _ _ => io.fake_fds[ofIsize fd]? = some .InetSocket ∧
      io.net.listen_fd = some (ofIsize fd) ∧
      ∃ handle s, io.net.fd_to_handle[ofIsize fd]? = some handle ∧
        (io.polled env).net.socket handle = some s ∧ s.is_listening = false
  | .close _ => False

/-- `accept` is not given a descriptor of another kind. -/
def SocketCall.OnSocket (io : Io) : SocketCall → Prop
  | .accept fd _ _ => io.fake_fds[ofIsize fd]? = none ∨ io.fake_fds[ofIsize fd]? = some .InetSocket
  | _ => True

/-- Whatever memory and heap the call finds, it does not add a socket to a full
    set, and an `accept` that finds no slot returns an error and changes neither
    the listening descriptor nor the handles. -/
def SocketCall.Safe (env : Env) (io : Io) (call : SocketCall) : Prop :=
  ∀ root mem heap,
    (∀ e t, run (machine root) (call.code env) ⟨mem, heap, io⟩ = .error e t → e ≠ fullSet) ∧
    ∀ fd addr addrlen r t, call = .accept fd addr addrlen → io.net.free_slot = none →
      run (machine root) (call.code env) ⟨mem, heap, io⟩ = .ok r t →
        r < 0 ∧ t.st.net.listen_fd = io.net.listen_fd ∧ t.st.net.fd_to_handle = io.net.fd_to_handle

section Slots

variable {env : Env} {io : Io}

theorem free_slot_polled (hpoll : env.KeepsSlots) : (io.polled env).net.free_slot = io.net.free_slot := by
  have hocc : ∀ ss : Sockets, ss.findIdx? (·.isNone) = (ss.map Option.isSome).findIdx? (! ·) := by
    intro ss
    rw [List.findIdx?_map]
    congr 1
    funext o
    cases o <;> rfl
  unfold Net.free_slot
  rw [hocc, hocc]
  exact congrArg _ (hpoll _ _)

theorem post_sys_listen (fd : Int)
    (hfree : (SocketCall.listen fd).Creates env io → io.net.free_slot ≠ none) :
    post (sys_listen fd) (fun _ _ _ => True) (fun e _ => e ≠ fullSet) io := by
  simp only [sys_listen, is_inet_socket, is_fake_fd, post_bind, post_get, post_pure]
  split
  · next hinet =>
    have hinet : io.fake_fds[ofIsize fd]? = some .InetSocket := by simpa using hinet
    unfold bind_listen_fd
    simp only [post_bind, post_get]
    split
    · trivial
    · next hnew =>
      simp only [post_bind]
      refine post_create_listen_socket (fun hnone => absurd hnone (hfree ⟨hinet, hnew⟩)) ?_
      exact fun _ _ => trivial
  · trivial

theorem post_accept_slots (hpoll : env.KeepsSlots) (fd : Int) (addr addrlen : Ptr)
    (hkind : (SocketCall.accept fd addr addrlen).OnSocket io)
    (hfree : (SocketCall.accept fd addr addrlen).Creates env io → io.net.free_slot ≠ none) :
    post (sys_accept env fd addr addrlen)
      (fun r t _ => io.net.free_slot = none →
        r < 0 ∧ t.net.listen_fd = io.net.listen_fd ∧ t.net.fd_to_handle = io.net.fd_to_handle)
      (fun e _ => e ≠ fullSet) io := by
  have hslot : (io.polled env).net.free_slot = io.net.free_slot := free_slot_polled hpoll
  rcases hkind with hnone | hinet
  · have hmem : ofIsize fd ∉ io.fake_fds := by
      rw [Std.TreeMap.mem_iff_isSome_getElem?, hnone]
      decide
    simp [sys_accept, is_inet_socket, is_fake_fd, hmem]
  · refine (post_accept_inet fd addr addrlen hinet).mono ?_ ?_
    · rintro r t _ (hlisten | _ | ⟨handle, slot, s, hlisten, hfd, hlive, hconn, hfree'⟩) hfull
      · exact ⟨by decide, rfl, rfl⟩
      · exact ⟨by decide, rfl, rfl⟩
      · rw [hslot, hfull] at hfree'
        cases hfree'
    · rintro e t (⟨rfl, -⟩ | ⟨rfl, hfull, hlisten, hcreates⟩)
      · decide
      · exact absurd (hslot ▸ hfull) (hfree ⟨hinet, hlisten, hcreates⟩)

/-- With a new heap and no free slot a listening socket ends in the panic. -/
theorem run_create_full (mem : Mem) (hnone : io.net.free_slot = none) :
    ∃ t, run (machine 0) create_listen_socket ⟨mem, init_heap, io⟩ = .error fullSet t := by
  have hvec : (vec_zeroed 4096 : IoM Nat) = Code.allocZeroed 4096 0 := by simp [vec_zeroed, isizeMax]
  have h1 : heap_alloc init_heap 4096 0 = (some 0x8600_0000, ⟨0x8600_1000, 0x8700_0000⟩) := by
    decide +kernel
  have h2 : heap_alloc ⟨0x8600_1000, 0x8700_0000⟩ 4096 0 =
      (some 0x8600_1000, ⟨0x8600_2000, 0x8700_0000⟩) := by
    decide +kernel
  have hnone : io.net.sockets.findIdx? (·.isNone) = none := hnone
  simp only [create_listen_socket, hvec, run_bind, Code.allocZeroed, run, machine, h1, h2, socket_add,
    run_get, hnone, run_throw]
  exact ⟨_, rfl⟩

@[simp] theorem run_poll_network {M : Machine HeapAllocator Halt} (s : St HeapAllocator Io) :
    run M (poll_network env) s = .ok () { s with st := s.st.polled env } := rfl

end Slots

/-- **Slots.**  A call of `listen`, `accept` or `close` is safe exactly when it
    creates no listening socket or finds a free slot for it. -/
theorem listen_slots (env : Env) (hpoll : env.KeepsSlots) (io : Io) (call : SocketCall)
    (hkind : call.OnSocket io) :
    call.Safe env io ↔ (call.Creates env io → io.net.free_slot ≠ none) := by
  constructor
  · intro hsafe hcreates hnone
    cases call with
    | listen fd =>
      obtain ⟨hinet, hnew⟩ := hcreates
      obtain ⟨t, ht⟩ := run_create_full (fun _ => 0) hnone
      refine (hsafe 0 (fun _ => 0) init_heap).1 fullSet t ?_ rfl
      simp [SocketCall.code, sys_listen, is_inet_socket, bind_listen_fd, run_bind, hinet, hnew, ht]
    | accept fd addr addrlen =>
      obtain ⟨hinet, hlisten, handle, s, hfd, hs, hconn⟩ := hcreates
      obtain ⟨t, ht⟩ := run_create_full (fun _ => 0) ((free_slot_polled hpoll).trans hnone)
      refine (hsafe 0 (fun _ => 0) init_heap).1 fullSet t ?_ rfl
      have hfd : (io.polled env).net.fd_to_handle[ofIsize fd]? = some handle := hfd
      have hs : (io.polled env).net.sockets[handle]?.join = some s := hs
      simp [SocketCall.code, sys_accept, is_inet_socket, accept_connection, socket_get, run_bind, hinet,
        hlisten, hfd, hs, hconn, ht]
    | close fd => exact hcreates
  · intro hfree root mem heap
    have hpost : post (call.code env) (fun r t _ => ∀ fd addr addrlen, call = .accept fd addr addrlen →
        io.net.free_slot = none → r < 0 ∧ t.net.listen_fd = io.net.listen_fd ∧
          t.net.fd_to_handle = io.net.fd_to_handle) (fun e _ => e ≠ fullSet) io := by
      cases call with
      | listen fd => exact (post_sys_listen fd hfree).mono (fun _ _ _ _ => by simp) fun _ _ h => h
      | accept fd addr addrlen =>
        exact (post_accept_slots hpoll fd addr addrlen hkind hfree).mono (fun _ _ _ h _ _ _ _ => h)
          fun _ _ h => h
      | close fd =>
        refine (post_sys_close fd).mono (fun _ _ _ _ => by simp) ?_
        rintro e t ⟨rfl, -⟩
        decide
    refine ⟨fun e t hrun => ?_, fun fd addr addrlen r t hcall hnone hrun => ?_⟩
    · rcases post.error (s := ⟨mem, heap, io⟩) hpost hrun with h | ⟨va, rfl⟩ | ⟨n, rfl⟩
      · exact h
      · exact fun he => by cases he
      · exact fun he => absurd (Halt.panic.inj he) (by decide)
    · exact post.ok (s := ⟨mem, heap, io⟩) hpost hrun fd addr addrlen hcall hnone

/-- The world in which every socket has a peer as soon as the network is polled. -/
def Env.busy : Env :=
  { Env.idle with
    poll := fun _ sockets => sockets.map (Option.map fun s => { s with state := .Established })
    patience := 1 }

theorem Env.busy_keeps_slots : Env.busy.KeepsSlots := by
  intro n sockets
  show (sockets.map _).map _ = _
  rw [List.map_map]
  refine List.map_congr_left fun o _ => ?_
  cases o <;> rfl

/-- At boot there are free slots. -/
theorem listen_slots_boot : (SocketCall.listen 100).Safe .busy (Io.boot Fs.noBlobs) :=
  (listen_slots .busy Env.busy_keeps_slots (Io.boot Fs.noBlobs) (.listen 100) trivial).mpr
    fun _ => by decide +kernel

/-- `accept(100)` without addresses. -/
def acceptCall : Nat × Args := (202, ⟨100, 0, 0, 0, 0, 0⟩)

/-- **Counterexample**: one listening descriptor and seven connections; the next
    `accept` ends in a panic. -/
theorem accept_panics_when_full :
    ∃ io ls t, LTS.Steps (IoStep .busy) (Io.boot Fs.noBlobs) ls io ∧ io.net.free_slot = none ∧
      run (machine 1) ((SocketCall.accept 100 (user 0) (user 0)).code .busy) ⟨onePage, init_heap, io⟩ =
        .error fullSet t := by
  have hrun : (((Io.boot Fs.noBlobs).script .busy
      (listenCalls ++ List.replicate 7 acceptCall)).map fun io =>
        (io.net.free_slot, Prog.failure (run (machine 1)
          ((SocketCall.accept 100 (user 0) (user 0)).code .busy) ⟨onePage, init_heap, io⟩))) =
      some (none, some fullSet) := by
    decide +kernel
  obtain ⟨io, hio, hres⟩ := Option.map_eq_some_iff.mp hrun
  obtain ⟨ls, hls, -⟩ := Io.script_steps hio
  obtain ⟨hfull, herr⟩ := Prod.mk.inj hres
  exact ⟨io, ls, _, hls, hfull, Prog.eq_error_of_failure herr⟩

end Rvos

import Rvos.Io.Epoll

/-! # The bytes of a connection

    Sending only queues bytes, and the queue empties in later polls; receiving
    takes what earlier polls have put into the buffer.  The two sides of one
    accepted descriptor are followed by what an observer has seen of them:

    * `Account` : the bytes acknowledged to the program and those handed to the
      device.  Every step keeps `Account.Kept`, nothing is lost, except a `close`
      that finds bytes in the queue (`close_keeps_bytes`).
    * `Delivery` : the bytes delivered, those of the peer still to come, and
      whether its FIN has been processed.  The bytes arrive in order and once;
      the end of the stream is not reported in CLOSE-WAIT (`stream_delivery`). -/

namespace Rvos

open Access Access.Code ByteMem Usize

/-! ## Section 1: Connections -/

/-- Descriptor `d` is the connection in this slot.  Smaller numbers are treated
    in their own way by `write` and `close`. -/
structure Connected (d : Int) (handle : Nat) (io : Io) : Prop where
  num : 7 ≤ d
  given : ofIsize d < io.fake_fd_next
  inet : io.fake_fds[ofIsize d]? = some .InetSocket
  plain : io.net.listen_fd ≠ some (ofIsize d)
  key : io.net.fd_to_handle[ofIsize d]? = some handle
  live : io.net.Live handle

/-- The same descriptor, with another socket in the slot. -/
theorem Connected.put {d : Int} {handle : Nat} {io : Io} (h : Connected d handle io) (s : TcpSocket) :
    Connected d handle
      { io with net := { io.net with sockets := io.net.sockets.set handle (some s) } } where
  num := h.num
  given := h.given
  inet := h.inet
  plain := h.plain
  key := h.key
  live := by
    refine ⟨s, ?_⟩
    show ({ io.net with sockets := io.net.sockets.set handle (some s) } : Net).socket handle = _
    rw [Net.socket_set _ h.live.lt, if_pos rfl]

theorem Connected.polled {env : Env} (hpoll : env.KeepsSlots) {d : Int} {handle : Nat} {io : Io}
    (h : Connected d handle io) : Connected d handle (io.polled env) where
  num := h.num
  given := h.given
  inet := h.inet
  plain := h.plain
  key := h.key
  live := by
    rw [Net.live_iff]
    exact (congrArg (·[handle]?) (hpoll io.polls io.net.sockets)).trans (Net.live_iff.mp h.live)

/-- **Accepting.**  In every state that calls reach from boot, what `accept` on a
    socket returns is a connection, as long as numbers fit the return value. -/
theorem accept_connects {env : Env} (b : Fs.Blobs) {io io' : Io}
    {ls : List IoLabel} {l : IoLabel} (hrun : LTS.Steps (IoStep env) (Io.boot b) ls io)
    (hstep : IoStep env io l io') (hnum : l.num = 202 ∨ l.num = 242)
    (hinet : io.fake_fds[l.fd]? = some .InetSocket) (hret : 0 ≤ l.ret)
    (hfits : io.fake_fd_next < 2 ^ 63) : ∃ handle, Connected l.ret handle io' := by
  have hnumbered : io.Numbered ∧ 100 ≤ io.fake_fd_next := by
    let inv (u : Io) : Prop := u.Numbered ∧ 100 ≤ u.fake_fd_next
    have hchange : ∀ may u v, inv u → Io.Change env may u v → inv v := fun _ _ _ hu hc =>
      ⟨(numbered_change hu.1 hc).1, hu.2.trans (numbered_change hu.1 hc).2⟩
    have h : inv io := io_run_invariant hchange hrun
      ⟨fun fd hfd => absurd hfd Std.TreeMap.not_mem_emptyc, Nat.le_refl _⟩
    exact h
  have hfd : l.fd < io.fake_fd_next :=
    hnumbered.1 _ (Std.TreeMap.mem_iff_isSome_getElem?.mpr (by simp [hinet]))
  have haccepts : Io.Accepts env l.fd io l.ret io' := by
    obtain ⟨c, u, hc, hok, rfl⟩ := hstep
    rcases hnum with hnum | hnum
    · rw [hnum] at hc
      cases hc
      exact post.ok (s := l.start io) (post_accept_inet _ _ _ hinet) hok
    · rw [hnum] at hc
      cases hc
      exact post.ok (s := l.start io) (post_accept_inet _ _ _ hinet) hok
  generalize hr : l.ret = r at haccepts hret ⊢
  cases haccepts with
  | early hlisten => exact absurd hret (by decide)
  | again => exact absurd hret (by decide)
  | connection handle slot s hlisten hkey hlive hconn hfree =>
    obtain ⟨hlt, hdead⟩ := Net.free_slot_spec hfree
    have hne : handle ≠ slot := fun he => hdead (he ▸ ⟨s, hlive⟩)
    have hnew : ofIsize (toIsize io.fake_fd_next) = io.fake_fd_next := by
      rw [toIsize_of_lt hfits, ofIsize_natCast (by omega)]
    refine ⟨handle, ?_, ?_, ?_, ?_, ?_, s, ?_⟩
    · rw [toIsize_of_lt hfits]
      omega
    · rw [hnew]
      exact Nat.lt_succ_self _
    · rw [hnew]
      simp
    · rw [hnew]
      show io.net.listen_fd ≠ _
      rw [hlisten]
      exact fun he => hfd.ne (Option.some.inj he)
    · rw [hnew]
      simp
    · show ({ (io.polled env).net with sockets := (io.polled env).net.sockets.set slot _ } : Net).socket
        handle = _
      rw [Net.socket_set _ hlt, if_neg hne, hlive]

/-! ## Section 2: The sending side -/

/-- What the program does with the descriptor. -/
inductive SendOp where
  | write (buf : Ptr) (count : Nat)
  | sendto (buf : Ptr) (len : Nat)
  | poll
  | close
  deriving DecidableEq

def SendOp.code (env : Env) (d : Int) : SendOp → IoM Int
  | .write buf count => sys_write env d buf count
  | .sendto buf len => sys_sendto env d buf len
  | .poll => do
    poll_network env
    return 0
  | .close => sys_close d

/-- An operation with the address space, memory and heap it finds, and its result. -/
structure SendLabel where
  root : Nat
  mem : Mem
  heap : HeapAllocator
  op : SendOp
  ret : Int

/-- The bytes in the transmit buffer of the socket in this slot, if there is one. -/
def Net.queued (net : Net) (handle : Nat) : List UInt8 :=
  match net.socket handle with
  | some s => s.tx
  | none => []

/-- The statics, the bytes of successful sends, and those the device was given. -/
structure Account where
  io : Io
  acked : List UInt8
  handed : List UInt8

/-- Nothing is lost: what was acknowledged was handed over or is still queued. -/
def Account.Kept (handle : Nat) (a : Account) : Prop := a.acked = a.handed ++ a.io.net.queued handle

/-- The network stack neither adds nor removes sockets, and takes queued bytes
    from the front. -/
structure Env.Drains (env : Env) : Prop where
  slots : env.KeepsSlots
  tx : ∀ (net : Net) n handle,
    ({ net with sockets := env.poll n net.sockets } : Net).queued handle <:+ net.queued handle

/-- The bytes that the next poll takes from the queue. -/
def Io.leaving (env : Env) (io : Io) (handle : Nat) : List UInt8 :=
  (io.net.queued handle).take ((io.net.queued handle).length - ((io.polled env).net.queued handle).length)

/-- One operation.  A send acknowledges the bytes it reports; every operation but
    `close` begins with a poll, which hands bytes over. -/
def SendStep (env : Env) (d : Int) (handle : Nat) (a : Account) (l : SendLabel) (a' : Account) : Prop :=
  ∃ u, run (machine l.root) (l.op.code env d) ⟨l.mem, l.heap, a.io⟩ = .ok l.ret u ∧ a'.io = u.st ∧
    a'.acked = a.acked ++ (if a.io.fake_fds[ofIsize d]? = some .InetSocket then
      (moved (machine l.root) false (l.op.code env d) ⟨l.mem, l.heap, a.io⟩).take l.ret.toNat else []) ∧
    a'.handed = a.handed ++ (if l.op = .close then [] else a.io.leaving env handle)

/-- The condition: a `close` finds the transmit buffer empty. -/
def FlushedClose (handle : Nat) (a : Account) (l : SendLabel) : Prop :=
  l.op = .close → a.io.net.queued handle = []

section Send

variable {env : Env} {d : Int} {handle : Nat} {io : Io}

theorem leaving_append (hdrain : env.Drains) :
    io.net.queued handle = io.leaving env handle ++ (io.polled env).net.queued handle := by
  obtain ⟨front, hfront⟩ := hdrain.tx io.net io.polls handle
  have hfront : front ++ (io.polled env).net.queued handle = io.net.queued handle := hfront
  simp [Io.leaving, ← hfront]

theorem queued_put (hlive : io.net.Live handle) (s : TcpSocket) :
    ({ io.net with sockets := io.net.sockets.set handle (some s) } : Net).queued handle = s.tx := by
  unfold Net.queued
  rw [Net.socket_set _ hlive.lt, if_pos rfl]

/-- **`send_to_fd`** polls, and then queues the bytes it has read and reports. -/
theorem post_send_to_fd (hpoll : env.KeepsSlots) (h : Connected d handle io) (buf : Ptr) (len : Nat) :
    post (send_to_fd env (ofIsize d) buf len)
      (fun r t lg => Connected d handle t ∧
        t.net.queued handle = (io.polled env).net.queued handle ++ (lg false).take r.toNat)
      (fun _ _ => True) io := by
  have hp := h.polled hpoll
  obtain ⟨s, hs⟩ := hp.live
  have hq : (io.polled env).net.queued handle = s.tx := by simp [Net.queued, hs]
  simp only [send_to_fd, post_bind, post_poll_network, post_get, hp.key, socket_get,
    show (io.polled env).net.sockets[handle]?.join = some s from hs, post_pure]
  by_cases hcan : s.can_send
  · simp only [hcan, Bool.not_true, Bool.false_eq_true, if_false, post_bind, post_loadBytes, socket_put,
      post_modify, post_pure]
    intro bs hlen
    refine ⟨hp.put _, ?_⟩
    rw [hq]
    refine (queued_put hp.live _).trans ?_
    simp [TcpSocket.queued]
  · simp only [hcan, Bool.not_false, if_true, post_pure]
    exact ⟨hp, by simp⟩

/-- The descriptor is closed and its slot free. -/
def Shut (d : Int) (handle : Nat) (io : Io) : Prop := Gone (ofIsize d) io ∧ ¬ io.net.Live handle

/-- Closing a connection removes its socket. -/
theorem post_close_connected (h : Connected d handle io) :
    post (sys_close d)
      (fun _ t lg => lg false = [] ∧ Shut d handle t)
      (fun _ _ => True) io := by
  refine (post_sys_close d).mono ?_ fun _ _ _ => trivial
  rintro r t lg ⟨rfl, ⟨-, -, -, hstd⟩ | ⟨-, hclose⟩⟩
  · have hnum := h.num
    omega
  · have hgone := hclose.gone
    refine ⟨rfl, ?_⟩
    cases hclose with
    | file hfile =>
      exact absurd (Std.TreeMap.mem_iff_isSome_getElem?.mpr (by simp [h.inet])) hfile
    | other hother => exact absurd h.inet hother
    | plain hinet hplain =>
      rcases hplain with hlisten | hnone
      · exact absurd hlisten h.plain
      · rw [h.key] at hnone
        cases hnone
    | socket handle' s hinet hlisten hfd hlive =>
      obtain rfl : handle = handle' := Option.some.inj (h.key.symm.trans hfd)
      refine ⟨⟨h.given, hgone⟩, ?_⟩
      rintro ⟨s', hs'⟩
      have hs' : ({ io.net with sockets := io.net.sockets.set handle none } : Net).socket handle =
          some s' := hs'
      rw [Net.socket_set _ h.live.lt, if_pos rfl] at hs'
      cases hs'

theorem Shut.not_inet (h : Shut d handle io) : io.fake_fds[ofIsize d]? ≠ some .InetSocket := fun hin =>
  h.1.closed (Std.TreeMap.mem_iff_isSome_getElem?.mpr (by simp [hin]))

/-- After that nothing happens to the descriptor or the slot. -/
theorem Shut.change {io' : Io} (hpoll : env.KeepsSlots) (h : Shut d handle io)
    (hc : Io.Change env (fun act => act = .close (ofIsize d)) io io') : Shut d handle io' := by
  refine ⟨h.1.change hc, ?_⟩
  have hocc : ∀ sockets : Sockets, sockets.map Option.isSome = io.net.sockets.map Option.isSome →
      ¬ ({ io.net with sockets := sockets } : Net).Live handle := by
    intro sockets hocc hlive
    rw [Net.live_iff] at hlive
    exact h.2 (Net.live_iff.mpr (hocc ▸ hlive))
  cases hc with
  | poll => exact hocc _ (hpoll _ _)
  | transfer k handle' s s' hk hlive hmoves => exact hocc _ (occupied_set ⟨s, hlive⟩ s')
  | listen k slot hk _ _ _ => cases hk
  | accept k handle' slot s hk _ _ _ _ _ => cases hk
  | close_socket k handle' s hk hin _ _ _ =>
    cases hk
    exact absurd hin h.not_inet
  | _ => exact h.2

theorem queued_dead (h : ¬ io.net.Live handle) : io.net.queued handle = [] := by
  unfold Net.queued
  cases hs : io.net.socket handle with
  | none => rfl
  | some s => exact absurd ⟨s, hs⟩ h

/-- What an operation does to a connection: it queues what it acknowledges
    behind what the poll leaves. -/
theorem SendOp.connected (hpoll : env.KeepsSlots) (h : Connected d handle io) (op : SendOp)
    (hop : op ≠ .close) :
    post (op.code env d)
      (fun r t lg => Connected d handle t ∧
        t.net.queued handle = (io.polled env).net.queued handle ++ (lg false).take r.toNat)
      (fun _ _ => True) io := by
  cases op with
  | write buf count =>
    have hnum := h.num
    have h12 : ¬ (d = 1 ∨ d = 2) := by omega
    have h3456 : ¬ (d = 3 ∨ d = 4 ∨ d = 5 ∨ d = 6) := by omega
    simp only [code, sys_write, h12, if_false, log_echo, h3456, is_inet_socket, post_bind, post_pure,
      post_get, h.inet, beq_self_eq_true, if_true, Log.nil_app]
    exact post_send_to_fd hpoll h buf count
  | sendto buf len =>
    simp only [code, sys_sendto, post_bind, post_get, h.inet, Log.nil_app]
    exact post_send_to_fd hpoll h buf len
  | poll =>
    simp only [code, post_bind, post_poll_network, post_pure]
    exact ⟨h.polled hpoll, by simp⟩
  | close => exact absurd rfl hop

theorem SendOp.effect (op : SendOp) :
    IoEffect env (fun act => act = .close (ofIsize d)) (op.code env d) := by
  cases op with
  | write buf count => exact effect_sys_write d buf count
  | sendto buf len => exact effect_sys_sendto d buf len
  | poll => exact fun io => (effect_poll_network io).bind fun _ => effect_pure _
  | close => exact effect_sys_close d rfl

variable {a a' : Account} {l : SendLabel}

theorem Shut.step (hpoll : env.KeepsSlots) (h : Shut d handle a.io)
    (hstep : SendStep env d handle a l a') : Shut d handle a'.io := by
  obtain ⟨u, hrun, hio, -, -⟩ := hstep
  have hreach : Io.Reach env (fun act => act = .close (ofIsize d)) a.io u.st :=
    Effect.run (s := ⟨l.mem, l.heap, a.io⟩) l.op.effect hrun
  rw [hio]
  exact hreach.invariant (fun _ _ hs hc => hs.change hpoll hc) h

/-- **One step**: a connection stays one or is closed, and nothing is lost
    exactly if a `close` finds the queue empty. -/
theorem Account.Kept.step (hdrain : env.Drains) (h : Connected d handle a.io ∨ Shut d handle a.io)
    (hkept : a.Kept handle) (hstep : SendStep env d handle a l a') :
    (Connected d handle a'.io ∨ Shut d handle a'.io) ∧ (a'.Kept handle ↔ FlushedClose handle a l) := by
  have hshut := fun hs => Shut.step hdrain.slots hs hstep
  obtain ⟨u, hrun, hio, hacked, hhanded⟩ := hstep
  unfold Kept at hkept ⊢
  rw [hacked, hhanded, hkept]
  rcases h with hconn | hgone
  · rw [if_pos hconn.inet]
    by_cases hop : l.op = .close
    · rw [hop] at hrun ⊢
      obtain ⟨hlog, hdead⟩ := post.ok (s := ⟨l.mem, l.heap, a.io⟩) (post_close_connected hconn) hrun
      have hlog : moved (machine l.root) false (SendOp.close.code env d) ⟨l.mem, l.heap, a.io⟩ = [] := hlog
      rw [hlog, if_pos rfl, hio, queued_dead hdead.2]
      refine ⟨Or.inr hdead, ?_⟩
      simp [FlushedClose, hop]
    · obtain ⟨hconn', hq⟩ :=
        post.ok (s := ⟨l.mem, l.heap, a.io⟩) (l.op.connected hdrain.slots hconn hop) hrun
      rw [← hio] at hconn' hq
      refine ⟨Or.inl hconn', ?_⟩
      rw [if_neg hop, hq]
      nth_rewrite 1 [leaving_append hdrain]
      simp [FlushedClose, hop]
  · -- a closed descriptor: no byte is acknowledged, none is queued
    have hempty := queued_dead hgone.2
    have hleaving : a.io.leaving env handle = [] := by simp [Io.leaving, hempty]
    refine ⟨Or.inr (hshut hgone), ?_⟩
    rw [if_neg hgone.not_inet, hleaving, hempty, queued_dead (hshut hgone).2]
    simp [FlushedClose, hempty]

end Send

/-- The account of a connection when it is taken up: what is in its queue has
    been acknowledged. -/
def Account.start (io : Io) (handle : Nat) : Account := ⟨io, io.net.queued handle, []⟩

/-- **Acknowledged bytes.**  For every sequence of sends, polls and closes on a
    connection: as long as each `close` finds the transmit buffer empty, every
    byte acknowledged was handed to the device or is still queued; and a step
    from there keeps it so exactly if it is not a `close` with bytes queued. -/
theorem close_keeps_bytes (env : Env) (hdrain : env.Drains) {d : Int} {handle : Nat} {io : Io}
    (hconn : Connected d handle io) {a : Account} {ls : List SendLabel}
    (hrun : LTS.Steps (LTS.guarded (FlushedClose handle) (SendStep env d handle))
      (.start io handle) ls a) :
    a.Kept handle ∧
      ∀ l a', SendStep env d handle a l a' → (a'.Kept handle ↔ FlushedClose handle a l) := by
  let inv (a : Account) : Prop := (Connected d handle a.io ∨ Shut d handle a.io) ∧ a.Kept handle
  have hkeep : ∀ a l a', inv a →
      LTS.guarded (FlushedClose handle) (SendStep env d handle) a l a' → inv a' := by
    rintro a l a' ⟨hhalf, hkept⟩ ⟨hcond, hstep⟩
    obtain ⟨hhalf', hiff⟩ := hkept.step hdrain hhalf hstep
    exact ⟨hhalf', hiff.mpr hcond⟩
  have h : inv a := LTS.Steps.invariant hkeep hrun ⟨Or.inl hconn, rfl⟩
  exact ⟨h.2, fun l a' hstep => (h.2.step hdrain h.1 hstep).2⟩

/-- An operation from the one page of user memory with a new heap. -/
def Account.next (env : Env) (d : Int) (handle : Nat) (op : SendOp) (a : Account) :
    Option (Int × Account) :=
  let start : St HeapAllocator Io := ⟨onePage, init_heap, a.io⟩
  match run (machine 1) (op.code env d) start with
  | .ok r u => some (r, {
      io := u.st
      acked := a.acked ++ (if a.io.fake_fds[ofIsize d]? = some .InetSocket then
        (moved (machine 1) false (op.code env d) start).take r.toNat else [])
      handed := a.handed ++ (if op = .close then [] else a.io.leaving env handle) })
  | .error _ _ => none

theorem Account.next_step {env : Env} {d : Int} {handle : Nat} {a a' : Account} {op : SendOp} {r : Int}
    (h : a.next env d handle op = some (r, a')) :
    SendStep env d handle a ⟨1, onePage, init_heap, op, r⟩ a' := by
  unfold Account.next at h
  cases hrun : run (machine 1) (op.code env d) ⟨onePage, init_heap, a.io⟩ with
  | error e u => simp [hrun] at h
  | ok r' u =>
    simp only [hrun, Option.some.injEq, Prod.mk.injEq] at h
    obtain ⟨rfl, h⟩ := h
    exact ⟨u, hrun, h ▸ rfl, h ▸ rfl, h ▸ rfl⟩

/-- Descriptor 101 is the first connection, accepted from descriptor 100. -/
def firstAccept (io : Io) (r : Int) (io' : Io) : Bool :=
  io.fake_fds[100]? == some .InetSocket && io.fake_fd_next == 101 && r == 101 &&
    io'.net.fd_to_handle[101]? == some 0

theorem accepted_connected {env : Env} {b : Fs.Blobs} {io io' : Io} {r : Int}
    (hio : (Io.boot b).script env listenCalls = some io)
    (haccept : io.exec env 202 ⟨100, 0, 0, 0, 0, 0⟩ = some (r, io')) (hfirst : firstAccept io r io' = true) :
    Connected 101 0 io' ∧ ∃ ls, LTS.Steps (IoStep env) (Io.boot b) ls io' := by
  simp only [firstAccept, Bool.and_eq_true, beq_iff_eq] at hfirst
  obtain ⟨⟨⟨hinet, hnext⟩, rfl⟩, hkey⟩ := hfirst
  obtain ⟨ls, hls, -⟩ := Io.script_steps hio
  have hstep := Io.exec_step haccept
  refine ⟨?_, _, hls.snoc _ hstep⟩
  obtain ⟨handle, hconn⟩ :=
    accept_connects b hls hstep (Or.inl rfl) hinet (by decide : (0 : Int) ≤ 101) (by omega)
  have hhandle : handle = 0 := Option.some.inj (hconn.key.symm.trans hkey)
  exact hhandle ▸ hconn

/-- A world in which peers connect at once and take every byte. -/
def Env.eager : Env :=
  { Env.idle with
    poll := fun _ sockets => sockets.map (Option.map fun s => { s with state := .Established, tx := [] })
    patience := 1 }

theorem queued_map (net : Net) (f : TcpSocket → TcpSocket) (handle : Nat) :
    ({ net with sockets := net.sockets.map (Option.map f) } : Net).queued handle =
      match net.socket handle with
      | some s => (f s).tx
      | none => [] := by
  unfold Net.queued Net.socket
  rw [List.getElem?_map]
  cases net.sockets[handle]? with
  | none => rfl
  | some o => cases o <;> rfl

theorem Env.eager_drains : Env.eager.Drains where
  slots := by
    intro n sockets
    show (sockets.map _).map _ = _
    rw [List.map_map]
    refine List.map_congr_left fun o _ => ?_
    cases o <;> rfl
  tx := fun net n handle => by
    rw [show Env.eager.poll n net.sockets = net.sockets.map (Option.map _) from rfl, queued_map]
    cases net.socket handle <;> exact List.nil_suffix

/-- One byte is sent, the poll hands it over, and the connection is closed. -/
theorem close_keeps_bytes_eager :
    ∃ (io : Io) (ls : List SendLabel) (a : Account), Connected 101 0 io ∧
      LTS.Steps (SendStep .eager 101 0) (.start io 0) ls a ∧ a.acked = [0] ∧ a.Kept 0 := by
  have hscript : (((Io.boot Fs.noBlobs).script .eager listenCalls).bind fun io =>
      (io.exec .eager 202 ⟨100, 0, 0, 0, 0, 0⟩).bind fun p =>
      ((Account.start p.2 0).next .eager 101 0 (.write (user 0) 1)).bind fun a1 =>
      (a1.2.next .eager 101 0 .poll).bind fun a2 =>
      (a2.2.next .eager 101 0 .close).map fun a3 =>
        (firstAccept io p.1 p.2, a2.2.io.net.queued 0, a3.2.acked)) = some (true, [], [0]) := by
    decide +kernel
  obtain ⟨io, hio, hscript⟩ := Option.bind_eq_some_iff.mp hscript
  obtain ⟨⟨r, io'⟩, haccept, hscript⟩ := Option.bind_eq_some_iff.mp hscript
  obtain ⟨⟨r1, a1⟩, h1, hscript⟩ := Option.bind_eq_some_iff.mp hscript
  obtain ⟨⟨r2, a2⟩, h2, hscript⟩ := Option.bind_eq_some_iff.mp hscript
  obtain ⟨⟨r3, a3⟩, h3, hvals⟩ := Option.map_eq_some_iff.mp hscript
  simp only [Prod.mk.injEq] at hvals
  obtain ⟨hfirst, hflushed, hacked⟩ := hvals
  obtain ⟨hconn, -⟩ := accepted_connected hio haccept hfirst
  have hother : ∀ {op : SendOp} {r : Int} {a a' : Account}, op ≠ .close →
      a.next .eager 101 0 op = some (r, a') →
      LTS.guarded (FlushedClose 0) (SendStep .eager 101 0) a ⟨1, onePage, init_heap, op, r⟩ a' :=
    fun hop hnext => ⟨fun h => absurd h hop, Account.next_step hnext⟩
  have hrun := (((LTS.Steps.nil _).snoc _ (hother (by simp) h1)).snoc _ (hother (by simp) h2)).snoc _
    (⟨fun _ => hflushed, Account.next_step h3⟩ : LTS.guarded (FlushedClose 0) (SendStep .eager 101 0) a2 _ a3)
  exact ⟨io', _, a3, hconn, hrun.of_guarded, hacked,
    (close_keeps_bytes .eager Env.eager_drains hconn hrun).1⟩

/-- **Counterexample**: one byte is sent and acknowledged, and the close takes
    the socket away with the byte in its queue. -/
theorem close_discards :
    ∃ (io : Io) (calls : List IoLabel) (l l' : SendLabel) (a a' : Account),
      LTS.Steps (IoStep .busy) (Io.boot Fs.noBlobs) calls io ∧ Connected 101 0 io ∧
      SendStep .busy 101 0 (.start io 0) l a ∧ l.ret = 1 ∧
      SendStep .busy 101 0 a l' a' ∧ l'.op = .close ∧ l'.ret = 0 ∧
      a'.acked = [0] ∧ a'.handed = [] ∧ ∀ handle, a'.io.net.queued handle = [] := by
  have hscript : (((Io.boot Fs.noBlobs).script .busy listenCalls).bind fun io =>
      (io.exec .busy 202 ⟨100, 0, 0, 0, 0, 0⟩).bind fun p =>
      ((Account.start p.2 0).next .busy 101 0 (.write (user 0) 1)).bind fun a1 =>
      (a1.2.next .busy 101 0 .close).map fun a2 =>
        (firstAccept io p.1 p.2, a1.1, a2.1, [a2.2.acked, a2.2.handed,
          a2.2.io.net.sockets.flatMap fun o => (o.map (·.tx)).getD []])) =
      some (true, 1, 0, [[0], [], []]) := by
    decide +kernel
  obtain ⟨io, hio, hscript⟩ := Option.bind_eq_some_iff.mp hscript
  obtain ⟨⟨r, io'⟩, haccept, hscript⟩ := Option.bind_eq_some_iff.mp hscript
  obtain ⟨⟨r1, a1⟩, h1, hscript⟩ := Option.bind_eq_some_iff.mp hscript
  obtain ⟨⟨r2, a2⟩, h2, hvals⟩ := Option.map_eq_some_iff.mp hscript
  simp only [Prod.mk.injEq, List.cons.injEq] at hvals
  obtain ⟨hfirst, rfl, rfl, hacked, hhanded, hempty, -⟩ := hvals
  obtain ⟨hconn, calls, hcalls⟩ := accepted_connected hio haccept hfirst
  refine ⟨io', calls, _, _, a1, a2, hcalls, hconn, Account.next_step h1, rfl, Account.next_step h2, rfl, rfl,
    hacked, hhanded, fun handle => ?_⟩
  unfold Net.queued Net.socket
  cases hs : a2.io.net.sockets[handle]? with
  | none => rfl
  | some o =>
    have ho := List.flatMap_eq_nil_iff.mp hempty o (List.mem_of_getElem? hs)
    cases o with
    | none => rfl
    | some s => exact ho

/-! ## Section 3: The receiving side -/

/-- What the program does with the descriptor. -/
inductive RecvOp where
  | read (buf : Ptr) (count : Nat)
  | recvfrom (buf : Ptr) (len : Nat)
  | poll

def RecvOp.code (env : Env) (d : Int) : RecvOp → IoM Int
  | .read buf count => sys_read env d buf count
  | .recvfrom buf len => sys_recvfrom env d buf len
  | .poll => do
    poll_network env
    return 0

/-- The size of the buffer. -/
def RecvOp.size : RecvOp → Option Nat
  | .read _ count => some count
  | .recvfrom _ len => some len
  | .poll => none

structure RecvLabel where
  root : Nat
  mem : Mem
  heap : HeapAllocator
  op : RecvOp
  ret : Int

/-- The statics, the bytes the program was given, the bytes of the peer that have
    not arrived, and whether its FIN has been processed. -/
structure Delivery where
  io : Io
  delivered : List UInt8
  rest : List UInt8
  fin : Bool

/-- What a poll brings: a segment of what is still to come goes to the end of
    the receive buffer.  The FIN comes last, and until then the connection is
    open; afterwards nothing is said about the state of the socket. -/
structure Arrival (k k' : TcpSocket) (rest : List UInt8) (fin : Bool) (rest' : List UInt8)
    (fin' : Bool) : Prop where
  bytes : ∃ seg, k'.rx = k.rx ++ seg ∧ rest = seg ++ rest'
  last : fin' = true → rest' = []
  stays : fin = true → fin' = true
  alive : fin' = false → k'.is_open = true

/-- One operation: each begins with a poll. -/
def RecvStep (env : Env) (d : Int) (handle : Nat) (s : Delivery) (l : RecvLabel) (t : Delivery) : Prop :=
  ∃ u k k', run (machine l.root) (l.op.code env d) ⟨l.mem, l.heap, s.io⟩ = .ok l.ret u ∧ t.io = u.st ∧
    t.delivered = s.delivered ++ moved (machine l.root) true (l.op.code env d) ⟨l.mem, l.heap, s.io⟩ ∧
    s.io.net.socket handle = some k ∧ (s.io.polled env).net.socket handle = some k' ∧
    Arrival k k' s.rest s.fin t.rest t.fin

/-- What a read of the stream `b` owes: -EAGAIN only while more may arrive, and 0
    once everything has been delivered and the end is known. -/
structure ReadRight (b : List UInt8) (s : Delivery) (l : RecvLabel) (t : Delivery) : Prop where
  again : l.ret = -11 → t.fin = false
  done : s.delivered = b → t.fin = true → l.ret = 0

/-- The condition: when everything has been delivered and the end is known, the
    socket is not open any more; in CLOSE-WAIT it is. -/
def EndVisible (env : Env) (handle : Nat) (b : List UInt8) (s t : Delivery) : Prop :=
  s.delivered = b → t.fin = true →
    ∀ k', (s.io.polled env).net.socket handle = some k' → k'.is_open = false

section Recv

variable {env : Env} {d : Int} {handle : Nat} {io : Io} {k k' : TcpSocket}

/-- What the closure of `recv` is shown is a front part of the buffer, and not
    empty if the buffer is not. -/
theorem recv_slice_starts (k : TcpSocket) : k.recv_slice <+: k.rx := by
  unfold TcpSocket.recv_slice
  split
  · exact List.prefix_refl _
  · exact List.take_prefix _ _

theorem recv_slice_ne_nil (h : k.rx ≠ []) : k.recv_slice ≠ [] := by
  unfold TcpSocket.recv_slice
  split
  · exact h
  · next hwrap => simpa [List.take_eq_nil_iff, h] using hwrap

/-- The result of a read that finds this socket. -/
def TcpSocket.answer (k : TcpSocket) (len : Nat) : Int :=
  if k.rx = [] then (if k.is_open then -11 else 0) else (k.recv_slice.take len).length

theorem answer_pos {len : Nat} (hne : k.rx ≠ []) (hlen : 0 < len) : 0 < k.answer len := by
  have hslice : 0 < k.recv_slice.length := List.length_pos_iff.mpr (recv_slice_ne_nil hne)
  rw [TcpSocket.answer, if_neg hne, List.length_take]
  omega

/-- The result 0 means that the socket is not open and the buffer is empty. -/
theorem answer_eq_zero {len : Nat} (hlen : 0 < len) :
    k.answer len = 0 ↔ k.rx = [] ∧ k.is_open = false := by
  by_cases hrx : k.rx = []
  · cases hopen : k.is_open <;> simp [TcpSocket.answer, hrx, hopen]
  · have hpos := answer_pos hrx hlen
    simp only [hrx, false_and, iff_false]
    omega

/-- The result -EAGAIN means that it is open and the buffer is empty. -/
theorem answer_eq_again {len : Nat} (hlen : 0 < len) :
    k.answer len = -11 ↔ k.rx = [] ∧ k.is_open = true := by
  by_cases hrx : k.rx = []
  · cases hopen : k.is_open <;> simp [TcpSocket.answer, hrx, hopen]
  · have hpos := answer_pos hrx hlen
    simp only [hrx, false_and, iff_false]
    omega

/-- **`recv_from_fd`** polls, and then takes a front part of the buffer. -/
theorem post_recv_from_fd (h : Connected d handle io) (hs : (io.polled env).net.socket handle = some k')
    (hpoll : env.KeepsSlots) (buf : Ptr) (len : Nat) :
    post (recv_from_fd env (ofIsize d) buf len)
      (fun r t lg => Connected d handle t ∧ t.fd_table = io.fd_table ∧
        (∃ k'', t.net.socket handle = some k'' ∧ lg true ++ k''.rx = k'.rx) ∧
        r = k'.answer len ∧ (k'.rx ≠ [] → lg true = k'.recv_slice.take len))
      (fun _ _ => True) io := by
  have hp := h.polled hpoll
  simp only [recv_from_fd, post_bind, post_poll_network, post_get, hp.key, socket_get,
    show (io.polled env).net.sockets[handle]?.join = some k' from hs, post_pure]
  by_cases hrx : k'.rx = []
  · have hcan : k'.can_recv = false := by simp [TcpSocket.can_recv, hrx]
    simp only [hcan, Bool.not_false, if_true, post_pure]
    refine ⟨hp, rfl, ⟨k', hs, by simp⟩, ?_, fun hne => absurd hrx hne⟩
    simp [TcpSocket.answer, hrx]
  · have hcan : k'.can_recv = true := by simp [TcpSocket.can_recv, hrx]
    simp only [hcan, Bool.not_true, Bool.false_eq_true, if_false, post_bind, post_storeBytes, socket_put,
      post_modify, post_pure]
    refine ⟨hp.put _, rfl, ⟨k'.taken (k'.recv_slice.take len).length, ?_, ?_⟩, ?_, fun _ => by simp⟩
    · show ({ (io.polled env).net with sockets := (io.polled env).net.sockets.set handle _ } : Net).socket
        handle = _
      rw [Net.socket_set _ hp.live.lt, if_pos rfl]
    · obtain ⟨tail, htail⟩ := (List.take_prefix len k'.recv_slice).trans (recv_slice_starts k')
      simp [TcpSocket.taken, ← htail]
    · simp [TcpSocket.answer, hrx]

/-- What an operation does to a connection. -/
theorem RecvOp.connected (hpoll : env.KeepsSlots) (h : Connected d handle io)
    (hplain : io.is_stdin (ofIsize d) = false) (hs : (io.polled env).net.socket handle = some k')
    (op : RecvOp) :
    post (op.code env d)
      (fun r t lg => Connected d handle t ∧ t.fd_table = io.fd_table ∧
        (∃ k'', t.net.socket handle = some k'' ∧ lg true ++ k''.rx = k'.rx) ∧
        ∀ n, op.size = some n → r = k'.answer n ∧ (k'.rx ≠ [] → lg true = k'.recv_slice.take n))
      (fun _ _ => True) io := by
  have hread : ∀ buf n, post (sys_read env d buf n)
      (fun r t lg => Connected d handle t ∧ t.fd_table = io.fd_table ∧
        (∃ k'', t.net.socket handle = some k'' ∧ lg true ++ k''.rx = k'.rx) ∧
        r = k'.answer n ∧ (k'.rx ≠ [] → lg true = k'.recv_slice.take n))
      (fun _ _ => True) io := by
    intro buf n
    simp only [sys_read, post_bind, post_get, hplain, Bool.false_eq_true, if_false, h.inet, Log.nil_app]
    exact post_recv_from_fd h hs hpoll buf n
  cases op with
  | read buf count =>
    refine (hread buf count).mono ?_ fun _ _ h => h
    rintro r t lg ⟨h1, h2, h3, h4⟩
    refine ⟨h1, h2, h3, fun n hn => ?_⟩
    cases hn
    exact h4
  | recvfrom buf len =>
    refine (hread buf len).mono ?_ fun _ _ h => h
    rintro r t lg ⟨h1, h2, h3, h4⟩
    refine ⟨h1, h2, h3, fun n hn => ?_⟩
    cases hn
    exact h4
  | poll =>
    simp only [code, post_bind, post_poll_network, post_pure]
    exact ⟨h.polled hpoll, rfl, ⟨k', hs, by simp⟩, fun n hn => by cases hn⟩

/-- The stream in three parts: delivered, in the buffer, still to come. -/
structure InOrder (b : List UInt8) (d : Int) (handle : Nat) (s : Delivery) : Prop where
  conn : Connected d handle s.io
  plain : s.io.is_stdin (ofIsize d) = false
  parts : ∃ k, s.io.net.socket handle = some k ∧ s.delivered ++ k.rx ++ s.rest = b

variable {b : List UInt8} {s t : Delivery} {l : RecvLabel}

/-- **One step** keeps the order of the stream. -/
theorem InOrder.step (hpoll : env.KeepsSlots) (h : InOrder b d handle s)
    (hstep : RecvStep env d handle s l t) : InOrder b d handle t := by
  obtain ⟨u, k, k', hrun, hio, hdel, hk, hk', harr⟩ := hstep
  obtain ⟨k0, hk0, hparts⟩ := h.parts
  obtain rfl : k0 = k := Option.some.inj (hk0.symm.trans hk)
  obtain ⟨hconn, htable, ⟨k'', hk'', hrx⟩, -⟩ := post.ok (s := ⟨l.mem, l.heap, s.io⟩)
    (l.op.connected hpoll h.conn h.plain hk') hrun
  obtain ⟨seg, hseg, hrest⟩ := harr.bytes
  refine ⟨hio ▸ hconn, ?_, k'', hio ▸ hk'', ?_⟩
  · rw [hio]
    unfold Io.is_stdin
    rw [htable]
    exact h.plain
  · calc t.delivered ++ k''.rx ++ t.rest
        = s.delivered ++ (moved (machine l.root) true (l.op.code env d) ⟨l.mem, l.heap, s.io⟩ ++ k''.rx) ++
            t.rest := by rw [hdel, List.append_assoc s.delivered]
      _ = s.delivered ++ (k0.rx ++ seg) ++ t.rest := by rw [hrx, hseg]
      _ = b := by rw [← hparts, hrest]; simp

/-- Everything has been delivered exactly if the buffer is empty after the poll
    and nothing is to come. -/
theorem InOrder.delivered_iff (h : InOrder b d handle s) (hk : s.io.net.socket handle = some k)
    {rest' : List UInt8} {fin' : Bool} (harr : Arrival k k' s.rest s.fin rest' fin') :
    s.delivered = b ↔ k'.rx = [] ∧ rest' = [] := by
  obtain ⟨k0, hk0, hparts⟩ := h.parts
  obtain rfl : k0 = k := Option.some.inj (hk0.symm.trans hk)
  obtain ⟨seg, hseg, hrest⟩ := harr.bytes
  have hb : b = s.delivered ++ (k'.rx ++ rest') := by rw [← hparts, hseg, hrest]; simp
  constructor
  · intro hall
    rw [hb] at hall
    exact List.append_eq_nil_iff.mp (List.self_eq_append_right.mp hall)
  · rintro ⟨hrx, hnone⟩
    rw [hb, hrx, hnone]
    simp

/-- **One read**: what it returns and delivers, in terms of the socket after its
    poll. -/
theorem InOrder.read (hpoll : env.KeepsSlots) (h : InOrder b d handle s)
    (hstep : RecvStep env d handle s l t) {n : Nat} (hsize : l.op.size = some n) :
    ∃ k', (s.io.polled env).net.socket handle = some k' ∧ l.ret = k'.answer n ∧
      t.delivered = s.delivered ++ (if k'.rx = [] then [] else k'.recv_slice.take n) ∧
      (s.delivered = b ↔ k'.rx = [] ∧ t.rest = []) ∧ (t.fin = true → t.rest = []) ∧
      (t.fin = false → k'.is_open = true) := by
  obtain ⟨u, k, k', hok, hio, hdel, hk, hk', harr⟩ := hstep
  obtain ⟨-, -, ⟨k'', hk'', hrx⟩, hread⟩ := post.ok (s := ⟨l.mem, l.heap, s.io⟩)
    (l.op.connected hpoll h.conn h.plain hk') hok
  obtain ⟨hret, hbytes⟩ := hread n hsize
  refine ⟨k', hk', hret, ?_, h.delivered_iff hk harr, harr.last, harr.alive⟩
  rw [hdel]
  split
  · next hempty => exact congrArg (s.delivered ++ ·) (List.append_eq_nil_iff.mp (hrx.trans hempty)).1
  · next hne => exact congrArg (s.delivered ++ ·) (hbytes hne)

end Recv

/-- **The received stream.**  The peer sends `b` and then FIN.  After every
    sequence of reads and polls, however the bytes arrive: what was delivered,
    what is in the buffer and what is still to come make up `b`, in this order.
    A read with room for a byte delivers at least one if there is any, and as
    many as it says; it returns 0 only at the end; and it is right about the end
    exactly if the end is visible. -/
theorem stream_delivery (env : Env) (hpoll : env.KeepsSlots) {d : Int} {handle : Nat} {io : Io}
    {k : TcpSocket} {b rest : List UInt8} {fin : Bool} (hconn : Connected d handle io)
    (hplain : io.is_stdin (ofIsize d) = false) (hk : io.net.socket handle = some k)
    (hb : k.rx ++ rest = b) {s : Delivery} {ls : List RecvLabel}
    (hrun : LTS.Steps (RecvStep env d handle) ⟨io, [], rest, fin⟩ ls s) :
    (∃ k, s.io.net.socket handle = some k ∧ s.delivered ++ k.rx ++ s.rest = b) ∧
      ∀ l t n, RecvStep env d handle s l t → l.op.size = some n → 0 < n →
        (∀ k', (s.io.polled env).net.socket handle = some k' → k'.rx ≠ [] → 0 < l.ret ∧
          t.delivered.length = s.delivered.length + l.ret.toNat) ∧
        (l.ret = 0 → t.fin = true ∧ t.delivered = b) ∧
        (ReadRight b s l t ↔ EndVisible env handle b s t) := by
  have h : InOrder b d handle s :=
    LTS.Steps.invariant (fun s l t (hs : InOrder b d handle s) hst => hs.step hpoll hst) hrun
      ⟨hconn, hplain, k, hk, hb⟩
  refine ⟨h.parts, fun l t n hstep hsize hpos => ?_⟩
  obtain ⟨k', hk', hret, hdel, hall, hlast, halive⟩ := h.read hpoll hstep hsize
  have hsame : ∀ k1, (s.io.polled env).net.socket handle = some k1 → k1 = k' := fun k1 hk1 =>
    Option.some.inj (hk1.symm.trans hk')
  rw [hret]
  refine ⟨fun k1 hk1 hne => ?_, fun hzero => ?_, fun hright hs hfin k1 hk1 => ?_, fun hvisible => ?_⟩
  · rw [hsame k1 hk1] at hne
    refine ⟨answer_pos hne hpos, ?_⟩
    rw [hdel, if_neg hne, List.length_append, TcpSocket.answer, if_neg hne, Int.toNat_natCast]
  · obtain ⟨hempty, hclosed⟩ := (answer_eq_zero hpos).mp hzero
    have hfin : t.fin = true := by
      by_contra hfin
      rw [halive (by simpa using hfin)] at hclosed
      cases hclosed
    refine ⟨hfin, ?_⟩
    rw [hdel, if_pos hempty, List.append_nil]
    exact hall.mpr ⟨hempty, hlast hfin⟩
  · rw [hsame k1 hk1]
    exact ((answer_eq_zero hpos).mp (hret.symm.trans (hright.done hs hfin))).2
  · refine ⟨fun hagain => ?_, fun hs hfin => ?_⟩
    · obtain ⟨hempty, hopen⟩ := (answer_eq_again hpos).mp (hret.symm.trans hagain)
      by_contra hfin
      have hfin : t.fin = true := by simpa using hfin
      rw [hvisible (hall.mpr ⟨hempty, hlast hfin⟩) hfin k' hk'] at hopen
      cases hopen
    · exact hret.trans ((answer_eq_zero hpos).mpr ⟨(hall.mp hs).1, hvisible hs hfin k' hk'⟩)

/-- A world in which a peer connects, has sent the byte 7 and then FIN. -/
def Env.farewell : Env :=
  { Env.idle with
    poll := fun _ sockets => sockets.map (Option.map fun s =>
      if s.state = .Listen then { s with state := .CloseWait, rx := [7] } else s)
    patience := 1 }

theorem Env.farewell_keeps_slots : Env.farewell.KeepsSlots := by
  intro n sockets
  show (sockets.map _).map _ = _
  rw [List.map_map]
  refine List.map_congr_left fun o _ => ?_
  cases o <;> rfl

/-- An operation after the end of the stream, from the one page of user memory
    with a new heap. -/
def Delivery.next (env : Env) (d : Int) (op : RecvOp) (s : Delivery) : Option (Int × Delivery) :=
  let start : St HeapAllocator Io := ⟨onePage, init_heap, s.io⟩
  match run (machine 1) (op.code env d) start with
  | .ok r u =>
    some (r, { s with
      io := u.st, delivered := s.delivered ++ moved (machine 1) true (op.code env d) start })
  | .error _ _ => none

theorem Delivery.next_step {env : Env} {d : Int} {handle : Nat} {s t : Delivery} {op : RecvOp} {r : Int}
    {k : TcpSocket} (h : s.next env d op = some (r, t)) (hk : s.io.net.socket handle = some k)
    (hk' : (s.io.polled env).net.socket handle = some k) (hrest : s.rest = []) (hfin : s.fin = true) :
    RecvStep env d handle s ⟨1, onePage, init_heap, op, r⟩ t := by
  unfold Delivery.next at h
  cases hrun : run (machine 1) (op.code env d) ⟨onePage, init_heap, s.io⟩ with
  | error e u => simp [hrun] at h
  | ok r' u =>
    simp only [hrun, Option.some.injEq, Prod.mk.injEq] at h
    obtain ⟨rfl, rfl⟩ := h
    refine ⟨u, k, k, hrun, rfl, rfl, hk, hk', ⟨[], by simp, by simp⟩, fun _ => hrest, fun _ => hfin, ?_⟩
    intro hno
    rw [show s.fin = false from hno] at hfin
    cases hfin

/-- The accepted connection, its one byte in the buffer. -/
def bye : TcpSocket := { state := .CloseWait, rx := [7], rx_wrap := 0, tx := [], tx_wrap := 0 }

/-- The byte is read. -/
theorem stream_delivery_farewell :
    ∃ (io : Io) (l : RecvLabel) (s : Delivery), Connected 101 0 io ∧
      RecvStep .farewell 101 0 ⟨io, [], [], true⟩ l s ∧ l.ret = 1 ∧
      ∃ k, s.io.net.socket 0 = some k ∧ s.delivered ++ k.rx ++ s.rest = [7] := by
  have hscript : (((Io.boot Fs.noBlobs).script .farewell listenCalls).bind fun io =>
      (io.exec .farewell 202 ⟨100, 0, 0, 0, 0, 0⟩).bind fun p =>
      (Delivery.next .farewell 101 (.read (user 0) 1) ⟨p.2, [], [], true⟩).map fun s =>
        (firstAccept io p.1 p.2, p.2.is_stdin 101, p.2.net.socket 0,
          (p.2.polled .farewell).net.socket 0, s.1)) =
      some (true, false, some bye, some bye, 1) := by
    decide +kernel
  obtain ⟨io, hio, hscript⟩ := Option.bind_eq_some_iff.mp hscript
  obtain ⟨⟨r, io'⟩, haccept, hscript⟩ := Option.bind_eq_some_iff.mp hscript
  obtain ⟨⟨r1, s1⟩, h1, hvals⟩ := Option.map_eq_some_iff.mp hscript
  simp only [Prod.mk.injEq] at hvals
  obtain ⟨hfirst, hplain, hk, hk', hret⟩ := hvals
  obtain ⟨hconn, -⟩ := accepted_connected hio haccept hfirst
  have hstep := Delivery.next_step h1 hk hk' rfl rfl
  exact ⟨io', _, s1, hconn, hstep, hret,
    (stream_delivery .farewell Env.farewell_keeps_slots hconn hplain hk rfl (.single hstep)).1⟩

/-- **Counterexample**: all bytes have been delivered and the FIN has been
    processed, and the next read returns -EAGAIN. -/
theorem end_not_reported :
    ∃ (io : Io) (calls : List IoLabel) (l l' : RecvLabel) (s t : Delivery),
      LTS.Steps (IoStep .farewell) (Io.boot Fs.noBlobs) calls io ∧ Connected 101 0 io ∧
      io.net.socket 0 = some bye ∧
      RecvStep .farewell 101 0 ⟨io, [], [], true⟩ l s ∧ s.delivered = [7] ∧
      RecvStep .farewell 101 0 s l' t ∧ l'.op.size = some 1 ∧ t.fin = true ∧ l'.ret = -11 := by
  have hscript : (((Io.boot Fs.noBlobs).script .farewell listenCalls).bind fun io =>
      (io.exec .farewell 202 ⟨100, 0, 0, 0, 0, 0⟩).bind fun p =>
      (Delivery.next .farewell 101 (.read (user 0) 1) ⟨p.2, [], [], true⟩).bind fun s =>
      (s.2.next .farewell 101 (.read (user 0) 1)).map fun t =>
        ([firstAccept io p.1 p.2, s.2.rest == [], s.2.fin, t.2.fin],
          [p.2.net.socket 0, (p.2.polled .farewell).net.socket 0, s.2.io.net.socket 0,
            (s.2.io.polled .farewell).net.socket 0], s.2.delivered, t.1)) =
      some ([true, true, true, true], [some bye, some bye, some { bye with rx := [] },
        some { bye with rx := [] }], [7], -11) := by
    decide +kernel
  obtain ⟨io, hio, hscript⟩ := Option.bind_eq_some_iff.mp hscript
  obtain ⟨⟨r, io'⟩, haccept, hscript⟩ := Option.bind_eq_some_iff.mp hscript
  obtain ⟨⟨r1, s1⟩, h1, hscript⟩ := Option.bind_eq_some_iff.mp hscript
  obtain ⟨⟨r2, s2⟩, h2, hvals⟩ := Option.map_eq_some_iff.mp hscript
  simp only [Prod.mk.injEq, List.cons.injEq, beq_iff_eq] at hvals
  obtain ⟨⟨hfirst, hrest, hfin, hfin2, -⟩, ⟨hk, hk', hs, hs', -⟩, hdel, hret⟩ := hvals
  obtain ⟨hconn, calls, hcalls⟩ := accepted_connected hio haccept hfirst
  exact ⟨io', calls, _, _, s1, s2, hcalls, hconn, hk, Delivery.next_step h1 hk hk' rfl rfl, hdel,
    Delivery.next_step h2 hs hs' hrest hfin, rfl, hfin2, hret⟩

end Rvos

import Rvos.Io.Sockets

/-! # Events and closed descriptors

    `epoll_pwait` reports every descriptor of `FD_TO_HANDLE` with something to
    do, registered or not; what `epoll_ctl` was told is only looked up for the
    data word, and the operation is ignored.

    * `Net.events` : the events that a poll of the sockets reports, and
      `post_epoll_pwait` : the bytes that `sys_epoll_pwait` writes are theirs.
    * `events_registered` : every event belongs to a registered descriptor, in
      runs in which all descriptors with a socket are registered before a wait
      and nothing is unregistered.
    * `closed_descriptor` : what closing leaves behind. -/

namespace Rvos

open Access Access.Code ByteMem Usize

/-! ## Section 1: The events of a wait -/

/-- A reported event. -/
structure EpollEvent where
  fd : Nat
  revents : Nat
  data : Nat
  deriving DecidableEq, Repr

/-- The bytes written for it: the padding is not. -/
def EpollEvent.bytes (e : EpollEvent) : List UInt8 := leBytes 4 e.revents ++ leBytes 8 e.data

/-- The events of the descriptors listed, at most `room` of them. -/
def Net.events (net : Net) : List (Nat × Nat) → (room : Nat) → List EpollEvent
  | [], _ => []
  | _, 0 => []
  | (fd, handle) :: rest, room + 1 =>
    match net.socket handle with
    | none => []
    | some s =>
      if s.revents = 0 then net.events rest (room + 1)
      else ⟨fd, s.revents, (net.epoll_data[fd]?).getD fd⟩ :: net.events rest room

/-- An event is that of a descriptor in the list, with its data word. -/
theorem Net.events_inv {net : Net} {e : EpollEvent} {l : List (Nat × Nat)} :
    ∀ {room : Nat}, e ∈ net.events l room →
      (∃ handle, (e.fd, handle) ∈ l) ∧ e.data = (net.epoll_data[e.fd]?).getD e.fd := by
  induction l with
  | nil => intro room h; cases room <;> cases h
  | cons p rest ih =>
    obtain ⟨fd, handle⟩ := p
    intro room h
    cases room with
    | zero => cases h
    | succ room =>
      simp only [events] at h
      split at h
      · cases h
      · split at h
        · obtain ⟨⟨handle', hmem⟩, hdata⟩ := ih h
          exact ⟨⟨handle', List.mem_cons_of_mem _ hmem⟩, hdata⟩
        · rcases List.mem_cons.mp h with rfl | h
          · exact ⟨⟨handle, List.mem_cons_self⟩, rfl⟩
          · obtain ⟨⟨handle', hmem⟩, hdata⟩ := ih h
            exact ⟨⟨handle', List.mem_cons_of_mem _ hmem⟩, hdata⟩

section Wait

variable {env : Env} {io : Io}

/-- The events of the tables as they are. -/
def Io.events (io : Io) (maxevents : Nat) : List EpollEvent :=
  io.net.events io.net.fd_to_handle.toList maxevents

/-- The loop of `get_epoll_events` writes the events, one after the other. -/
theorem post_epoll_records (buf : Ptr) (maxevents : Nat) (l : List (Nat × Nat)) :
    ∀ count, post (epoll_records buf maxevents l count)
      (fun n t lg => t = io ∧ n = count + (io.net.events l (maxevents - count)).length ∧
        lg true = (io.net.events l (maxevents - count)).flatMap EpollEvent.bytes)
      (fun _ _ => True) io := by
  induction l with
  | nil =>
    intro count
    simp [epoll_records, Net.events]
  | cons p rest ih =>
    obtain ⟨fd, handle⟩ := p
    intro count
    unfold epoll_records
    dsimp only
    split
    · next hfull =>
      have hroom : maxevents - count = 0 := by omega
      simp [hroom, Net.events]
    · next hroom =>
      obtain ⟨room, hroom⟩ : ∃ room, maxevents - count = room + 1 := ⟨maxevents - count - 1, by omega⟩
      rw [hroom]
      simp only [socket_get, post_bind, post_get]
      cases hs : io.net.socket handle with
      | none =>
        simp only [show io.net.sockets[handle]?.join = none from hs, post_throw]
      | some s =>
        simp only [show io.net.sockets[handle]?.join = some s from hs, post_pure]
        split
        · next hquiet =>
          refine (ih count).mono ?_ fun _ _ h => h
          rintro n t lg ⟨rfl, hn, hlg⟩
          rw [hroom] at hn hlg
          simpa [Net.events, hs, hquiet] using ⟨hn, hlg⟩
        · next hevent =>
          simp only [post_bind, post_storeBytes, post_get]
          refine (ih (count + 1)).mono ?_ fun _ _ h => h
          rintro n t lg ⟨rfl, hn, hlg⟩
          have hroom' : maxevents - (count + 1) = room := by omega
          rw [hroom'] at hn hlg
          refine ⟨rfl, ?_, ?_⟩
          · simp only [Net.events, hs, hevent, if_false, List.length_cons, hn]
            omega
          · simp [Net.events, hs, hevent, hlg, EpollEvent.bytes]

theorem post_get_epoll_events (buf : Ptr) (maxevents : Nat) :
    post (get_epoll_events env buf maxevents)
      (fun n t lg => t = io.polled env ∧ n = (t.events maxevents).length ∧
        lg true = (t.events maxevents).flatMap EpollEvent.bytes)
      (fun _ _ => True) io := by
  simp only [get_epoll_events, post_bind, post_poll_network, post_get]
  refine (post_epoll_records buf maxevents _ 0).mono ?_ fun _ _ h => h
  rintro n t lg ⟨rfl, hn, hlg⟩
  refine ⟨rfl, ?_, ?_⟩
  · simpa [Io.events] using hn
  · simpa [Io.events] using hlg

/-- What a wait leaves alone, and what it writes: the events of the state it
    leaves behind. -/
def Waited (io : Io) (maxevents : Nat) (t : Io) (lg : Log) : Prop :=
  t.fake_fds = io.fake_fds ∧ t.net.fd_to_handle = io.net.fd_to_handle ∧
    t.net.epoll_data = io.net.epoll_data ∧
    lg true = (t.events maxevents).flatMap EpollEvent.bytes

theorem post_epoll_wait (events : Ptr) (maxevents : Nat) (timeout : Int) (deadline : Option Int)
    (fuel : Nat) : ∀ io, post (epoll_wait env events maxevents timeout deadline fuel)
      (fun _ t lg => Waited io maxevents t lg) (fun _ _ => True) io := by
  induction fuel with
  | zero => exact fun io => trivial
  | succ fuel ih =>
    intro io
    unfold epoll_wait
    rw [post_bind]
    refine (post_get_epoll_events events maxevents).mono ?_ fun _ _ h => h
    rintro n t lg ⟨ht, hn, hlg⟩
    split
    · subst ht
      simpa [Waited] using ⟨rfl, rfl, rfl, hlg⟩
    · next hzero =>
      -- nothing was written, and the next round starts afresh
      have hnil : t.events maxevents = [] := List.length_eq_zero_iff.mp (by omega)
      have hsilent : lg true = [] := by rw [hlg, hnil]; rfl
      have hagain : ∀ u : Io, u.fake_fds = io.fake_fds → u.net.fd_to_handle = io.net.fd_to_handle →
          u.net.epoll_data = io.net.epoll_data →
          post (epoll_wait env events maxevents timeout deadline fuel)
            (fun _ v lg' => Waited io maxevents v (lg.app lg')) (fun _ _ => True) u := by
        intro u h1 h2 h3
        refine (ih u).mono ?_ fun _ _ h => h
        rintro r v lg' ⟨k1, k2, k3, k4⟩
        exact ⟨k1.trans h1, k2.trans h2, k3.trans h3, by simp [hsilent, k4]⟩
      split
      · subst ht
        simpa [Waited, hnil] using ⟨rfl, rfl, rfl, hsilent⟩
      · cases deadline with
        | none =>
          subst ht
          exact hagain _ rfl rfl rfl
        | some d =>
          simp only [get_time_ms, rdtime, post_bind, post_get, post_modify, post_pure]
          subst ht
          split
          · refine ⟨rfl, rfl, rfl, ?_⟩
            have hnil' : Io.events { io.polled env with ticks := (io.polled env).ticks + 1 } maxevents = [] :=
              hnil
            rw [hnil']
            simpa using hsilent
          · exact hagain _ rfl rfl rfl

/-- **`epoll_pwait`** writes the events of the state it leaves behind. -/
theorem post_epoll_pwait (events : Ptr) (maxevents : Nat) (timeout : Int) :
    post (sys_epoll_pwait env events maxevents timeout)
      (fun _ t lg => Waited io maxevents t lg) (fun _ _ => True) io := by
  simp only [sys_epoll_pwait, get_time_ms, rdtime, post_bind, post_get, post_modify, post_pure,
    Log.nil_app]
  exact (post_epoll_wait events maxevents timeout _ env.patience _).mono (fun _ _ _ h => h)
    fun _ _ h => h

end Wait

/-! ## Section 2: Descriptor numbers -/

/-- Every descriptor that is not a file has been given out. -/
def Io.Numbered (io : Io) : Prop := ∀ fd, fd ∈ io.fake_fds → fd < io.fake_fd_next

theorem mem_insert_iff {t : Std.TreeMap Nat FakeFdType} {k fd : Nat} {v : FakeFdType} :
    fd ∈ t.insert k v ↔ fd = k ∨ fd ∈ t := by
  rw [Std.TreeMap.mem_iff_isSome_getElem?, Std.TreeMap.mem_iff_isSome_getElem?, Assoc.get_insert]
  by_cases h : fd = k <;> simp [h]

theorem mem_erase_iff {t : Std.TreeMap Nat FakeFdType} {k fd : Nat} :
    fd ∈ t.erase k ↔ fd ≠ k ∧ fd ∈ t := by
  rw [Std.TreeMap.mem_iff_isSome_getElem?, Std.TreeMap.mem_iff_isSome_getElem?, Assoc.get_erase]
  by_cases h : fd = k <;> simp [h]

section Changes

variable {env : Env} {may : Io.Act → Prop} {io io' : Io}

theorem numbered_change (h : io.Numbered) (hc : Io.Change env may io io') :
    io'.Numbered ∧ io.fake_fd_next ≤ io'.fake_fd_next := by
  have hfresh : ∀ t, Io.Numbered { io with
      fake_fds := io.fake_fds.insert io.fake_fd_next t, fake_fd_next := io.fake_fd_next + 1 } := by
    intro t fd hfd
    rcases mem_insert_iff.mp hfd with rfl | hfd
    · exact Nat.lt_succ_self _
    · exact Nat.lt_succ_of_lt (h fd hfd)
  have herase : ∀ k, Io.Numbered { io with fake_fds := io.fake_fds.erase k } := fun k fd hfd =>
    h fd (mem_erase_iff.mp hfd).2
  cases hc with
  | fresh t => exact ⟨hfresh t, Nat.le_succ _⟩
  | skip => exact ⟨fun fd hfd => Nat.lt_succ_of_lt (h fd hfd), Nat.le_succ _⟩
  | nscd fd st st' hold =>
    refine ⟨fun fd' hfd' => ?_, Nat.le_refl _⟩
    rcases mem_insert_iff.mp hfd' with rfl | hfd'
    · exact h _ (Std.TreeMap.mem_iff_isSome_getElem?.mpr (by simp [hold]))
    · exact h fd' hfd'
  | accept fd handle slot s _ hinet hlisten hfd hlive hfree => exact ⟨hfresh .InetSocket, Nat.le_succ _⟩
  | close_other fd _ hother => exact ⟨herase fd, Nat.le_refl _⟩
  | close_plain fd _ hinet hplain => exact ⟨herase fd, Nat.le_refl _⟩
  | close_socket fd handle s _ hinet hlisten hfd hlive => exact ⟨herase fd, Nat.le_refl _⟩
  | _ => exact ⟨h, Nat.le_refl _⟩

/-- Compared with `io0`: the data words of the descriptors still there. -/
structure DataKept (io0 io : Io) : Prop where
  numbered : io.Numbered
  next : io0.fake_fd_next ≤ io.fake_fd_next
  data : ∀ fd, fd ∈ io0.fake_fds → fd ∈ io.fake_fds →
    io.net.epoll_data[fd]? = io0.net.epoll_data[fd]?

theorem DataKept.change {io0 : Io} (h0 : io0.Numbered) (hmay : ∀ fd, ¬ may (.epoll fd))
    (h : DataKept io0 io) (hc : Io.Change env may io io') : DataKept io0 io' := by
  obtain ⟨hnum, hle⟩ := numbered_change h.numbered hc
  refine ⟨hnum, h.next.trans hle, fun fd hfd0 hfd => ?_⟩
  -- a new number is none of the old ones
  have hne : fd ≠ io.fake_fd_next := ((h0 fd hfd0).trans_le h.next).ne
  have hclose : ∀ k, fd ∈ io.fake_fds.erase k →
      (io.net.epoll_data.erase k)[fd]? = io0.net.epoll_data[fd]? := by
    intro k hk
    obtain ⟨hk, hold⟩ := mem_erase_iff.mp hk
    rw [Assoc.get_erase, if_neg hk]
    exact h.data fd hfd0 hold
  cases hc with
  | fresh t => exact h.data fd hfd0 ((mem_insert_iff.mp hfd).resolve_left hne)
  | nscd k st st' hold =>
    refine h.data fd hfd0 ?_
    rcases mem_insert_iff.mp hfd with rfl | hfd
    · exact Std.TreeMap.mem_iff_isSome_getElem?.mpr (by simp [hold])
    · exact hfd
  | accept k handle slot s _ hinet hlisten hk hlive hfree =>
    exact h.data fd hfd0 ((mem_insert_iff.mp hfd).resolve_left hne)
  | epoll k data hk _ => exact absurd hk (hmay k)
  | close_other k _ hother => exact h.data fd hfd0 (mem_erase_iff.mp hfd).2
  | close_plain k _ hinet hplain => exact hclose k hfd
  | close_socket k handle s _ hinet hlisten hk hlive => exact hclose k hfd
  | _ => exact h.data fd hfd0 hfd

end Changes

/-! ## Section 3: Registered descriptors -/

/-- The statics, and for each descriptor the operation and data word of the
    latest `epoll_ctl` since it was created. -/
structure RegState where
  io : Io
  reg : Nat → Option (Nat × Nat)

def RegState.boot (b : Fs.Blobs) : RegState := ⟨Io.boot b, fun _ => none⟩

/-- The descriptor of an `epoll_ctl`. -/
def IoLabel.ctlFd (l : IoLabel) : Nat := ofIsize (toIsize l.args.a2)

/-- The data word it is given: the eight bytes it reads. -/
def IoLabel.ctlData (l : IoLabel) (io : Io) : Nat :=
  leNat (moved (machine l.root) false (sys_epoll_ctl (toIsize l.args.a2) (user l.args.a3)) (l.start io))

open Classical in
/-- A call, and what is registered afterwards: nothing for a descriptor that was
    not there before or is not there any more. -/
def RegStep (env : Env) (s : RegState) (l : IoLabel) (t : RegState) : Prop :=
  IoStep env s.io l t.io ∧ ∀ fd, t.reg fd =
    if fd ∈ s.io.fake_fds ∧ fd ∈ t.io.fake_fds then
      if l.num = 21 ∧ fd = l.ctlFd then some (l.args.a1, l.ctlData s.io) else s.reg fd
    else none

/-- `EPOLL_CTL_ADD` or `EPOLL_CTL_MOD`. -/
def Adds (op : Nat) : Prop := op = 1 ∨ op = 3

/-- The condition: an addition or modification comes with an event, and before a
    wait every descriptor with a socket is registered. -/
def EpollCond (s : RegState) (l : IoLabel) : Prop :=
  (l.num = 21 → Adds l.args.a1 → l.args.a3 ≠ 0) ∧
  (l.num = 22 → ∀ fd handle : Nat, s.io.net.fd_to_handle[fd]? = some handle →
    ∃ op d, s.reg fd = some (op, d) ∧ Adds op)

/-- The data word of what is registered is in `EPOLL_DATA`. -/
structure RegInv (s : RegState) : Prop where
  numbered : s.io.Numbered
  data : ∀ fd op d, s.reg fd = some (op, d) → Adds op → s.io.net.epoll_data[fd]? = some d

theorem RegInv.boot (b : Fs.Blobs) : RegInv (.boot b) where
  numbered := fun fd hfd => absurd hfd Std.TreeMap.not_mem_emptyc
  data := fun fd op d h => by cases h

section Reg

variable {env : Env} {io io' : Io} {l : IoLabel} {s t : RegState}

/-- **`epoll_ctl`** stores the data word it reads, if the descriptor is there and
    an event is given. -/
theorem epoll_ctl_inv (hnum : l.num = 21) (h : IoStep env io l io') :
    io' = if l.ctlFd ∈ io.fake_fds ∧ l.args.a3 ≠ 0 then
      { io with net := { io.net with epoll_data := io.net.epoll_data.insert l.ctlFd (l.ctlData io) } }
    else io := by
  obtain ⟨c, u, hc, hrun, rfl⟩ := h
  rw [hnum] at hc
  cases hc
  have hpost : post (sys_epoll_ctl (toIsize l.args.a2) (user l.args.a3))
      (fun _ t lg => t = if l.ctlFd ∈ io.fake_fds ∧ l.args.a3 ≠ 0 then
        { io with net := { io.net with epoll_data := io.net.epoll_data.insert l.ctlFd (leNat (lg false)) } }
      else io) (fun _ _ => True) io := by
    have hiff : (io.fake_fds.contains (ofIsize (toIsize l.args.a2)) = true ∧ (user l.args.a3).addr ≠ 0) ↔
        l.ctlFd ∈ io.fake_fds ∧ l.args.a3 ≠ 0 :=
      and_congr_left fun _ => Std.TreeMap.mem_iff_contains.symm
    simp only [sys_epoll_ctl, is_fake_fd, post_bind, post_get, post_pure, hiff]
    by_cases hset : l.ctlFd ∈ io.fake_fds ∧ l.args.a3 ≠ 0
    · simp only [if_pos hset]
      simp [set_epoll_data, IoLabel.ctlFd]
    · simp only [if_neg hset]
      simp
  exact post.ok (s := l.start io) hpost hrun

theorem RegInv.step (hi : RegInv s) (h : LTS.guarded EpollCond (RegStep env) s l t) : RegInv t := by
  obtain ⟨⟨hctl, -⟩, hstep, hreg⟩ := h
  have hnum : t.io.Numbered :=
    hstep.reach.invariant (fun _ _ hn hc => (numbered_change hn hc).1) hi.numbered
  refine ⟨hnum, fun fd op d hfd hadds => ?_⟩
  rw [hreg fd] at hfd
  split at hfd
  · next hmem =>
    by_cases h21 : l.num = 21
    · have hio := epoll_ctl_inv h21 hstep
      by_cases hthis : fd = l.ctlFd
      · rw [if_pos ⟨h21, hthis⟩] at hfd
        cases hfd
        rw [hio, if_pos ⟨hthis ▸ hmem.1, hctl h21 hadds⟩, hthis]
        simp
      · rw [if_neg (fun hboth => hthis hboth.2)] at hfd
        have hold := hi.data fd op d hfd hadds
        rw [hio]
        split
        · show (s.io.net.epoll_data.insert _ _)[fd]? = _
          rw [Assoc.get_insert, if_neg hthis, hold]
        · exact hold
    · rw [if_neg (fun hboth => h21 hboth.1)] at hfd
      have hkept : DataKept s.io t.io :=
        hstep.reach.invariant (fun _ _ hk hc => hk.change hi.numbered (fun _ hm => h21 hm.1) hc)
          ⟨hi.numbered, Nat.le_refl _, fun _ _ _ => rfl⟩
      exact (hkept.data fd hmem.1 hmem.2).trans (hi.data fd op d hfd hadds)
  · cases hfd

end Reg

/-- **Registration.**  In every run from boot whose calls all meet the condition:
    the bytes that an `epoll_pwait` writes are those of a list of events, and each
    belongs to a descriptor whose latest `epoll_ctl` was an addition or a
    modification and carries the data word of that call. -/
theorem events_registered (env : Env) (b : Fs.Blobs) {s t : RegState} {ls : List IoLabel} {l : IoLabel}
    (hrun : LTS.Steps (LTS.guarded EpollCond (RegStep env)) (.boot b) ls s)
    (hstep : LTS.guarded EpollCond (RegStep env) s l t) (hwait : l.num = 22) :
    ∃ es : List EpollEvent,
      moved (machine l.root) true
        (sys_epoll_pwait env (user l.args.a1) l.args.a2 (toIsize l.args.a3)) (l.start s.io) =
          es.flatMap EpollEvent.bytes ∧
      ∀ e ∈ es, ∃ op, s.reg e.fd = some (op, e.data) ∧ Adds op := by
  have hi : RegInv s :=
    LTS.Steps.invariant (fun s l t (hs : RegInv s) hst => hs.step hst) hrun (RegInv.boot b)
  obtain ⟨⟨-, hall⟩, ⟨c, u, hc, hret, hu⟩, -⟩ := hstep
  rw [hwait] at hc
  cases hc
  obtain ⟨-, hmap, hdata, hbytes⟩ := post.ok (s := l.start s.io)
    (post_epoll_pwait (user l.args.a1) l.args.a2 (toIsize l.args.a3)) hret
  refine ⟨u.st.events l.args.a2, hbytes, fun e he => ?_⟩
  obtain ⟨⟨handle, hmem⟩, hword⟩ := Net.events_inv he
  have hfd : s.io.net.fd_to_handle[e.fd]? = some handle := by
    rw [show u.st.net.fd_to_handle = s.io.net.fd_to_handle from hmap] at hmem
    exact Std.TreeMap.mem_toList_iff_getElem?_eq_some.mp hmem
  obtain ⟨op, d, hreg, hadds⟩ := hall hwait e.fd handle hfd
  rw [show u.st.net.epoll_data = s.io.net.epoll_data from hdata, hi.data e.fd op d hreg hadds,
    Option.getD_some] at hword
  exact ⟨op, hword ▸ hreg, hadds⟩

/-- Without an `epoll_ctl` nothing gets registered. -/
theorem RegStep.silent {env : Env} {io io' : Io} {l : IoLabel} (h : IoStep env io l io')
    (hnum : l.num ≠ 21) : RegStep env ⟨io, fun _ => none⟩ l ⟨io', fun _ => none⟩ :=
  ⟨h, fun _ => by simp [hnum]⟩

theorem RegStep.silent_run {env : Env} {io io' : Io} {ls : List IoLabel}
    (h : LTS.Steps (IoStep env) io ls io') (hnum : ∀ l ∈ ls, l.num ≠ 21 ∧ l.num ≠ 22) :
    LTS.Steps (LTS.guarded EpollCond (RegStep env)) ⟨io, fun _ => none⟩ ls ⟨io', fun _ => none⟩ := by
  induction h with
  | nil => exact .nil _
  | snoc l _ hl ih =>
    obtain ⟨h21, h22⟩ := hnum l (by simp)
    refine .snoc l (ih fun l' hl' => hnum l' (List.mem_append_left _ hl')) ⟨⟨?_, ?_⟩, .silent hl h21⟩
    · exact fun h => absurd h h21
    · exact fun h => absurd h h22

/-- The calls of a listening descriptor are no `epoll` calls. -/
theorem listenCalls_quiet {ls : List IoLabel} (h : ls.map (fun l => (l.num, l.args)) = listenCalls) :
    ∀ l ∈ ls, l.num ≠ 21 ∧ l.num ≠ 22 := by
  intro l hl
  have hmem : (l.num, l.args) ∈ listenCalls := h ▸ List.mem_map_of_mem hl
  have hall : ∀ p ∈ listenCalls, p.1 ≠ 21 ∧ p.1 ≠ 22 := by decide
  exact hall _ hmem

/-- `EPOLL_CTL_ADD` of descriptor 100 with the event at address 16. -/
def addCall : Args := ⟨0, 1, 100, 16, 0, 0⟩

/-- One event, to address 0, without waiting. -/
def waitCall : Args := ⟨0, 0, 1, 0, 0, 0⟩

/-- A listening descriptor that is registered and then waited for: the one event
    is its own. -/
theorem events_registered_listen :
    ∃ (s : RegState) (l : IoLabel) (es : List EpollEvent), l.num = 22 ∧ l.ret = 1 ∧
      moved (machine l.root) true
        (sys_epoll_pwait .busy (user l.args.a1) l.args.a2 (toIsize l.args.a3)) (l.start s.io) =
          es.flatMap EpollEvent.bytes ∧
      ∀ e ∈ es, ∃ op, s.reg e.fd = some (op, e.data) ∧ Adds op := by
  have hscript : (((Io.boot Fs.noBlobs).script .busy listenCalls).bind fun io =>
      (io.exec .busy 21 addCall).bind fun p => (p.2.exec .busy 22 waitCall).map fun q =>
        (io.fake_fds.contains 100, p.2.fake_fds.contains 100, p.2.net.fd_to_handle.toList, q.1)) =
      some (true, true, [(100, 0)], 1) := by
    decide +kernel
  obtain ⟨io, hio, hscript⟩ := Option.bind_eq_some_iff.mp hscript
  obtain ⟨⟨r1, io1⟩, hadd, hscript⟩ := Option.bind_eq_some_iff.mp hscript
  obtain ⟨⟨r2, io2⟩, hwait, hvals⟩ := Option.map_eq_some_iff.mp hscript
  simp only [Prod.mk.injEq] at hvals
  obtain ⟨hold, hnew, hkeys, hret⟩ := hvals
  obtain ⟨ls, hls, hcalls⟩ := Io.script_steps hio
  have hrun := RegStep.silent_run hls (listenCalls_quiet hcalls)
  let l1 : IoLabel := ⟨1, onePage, init_heap, 21, addCall, r1⟩
  let s1 : RegState := ⟨io1, fun fd => open Classical in
    if fd ∈ io.fake_fds ∧ fd ∈ io1.fake_fds then
      if fd = 100 then some (1, l1.ctlData io) else none
    else none⟩
  have hstep1 : LTS.guarded EpollCond (RegStep .busy) ⟨io, fun _ => none⟩ l1 s1 := by
    refine ⟨⟨fun _ _ => (by decide : 16 ≠ 0), fun h => absurd h (by decide : 21 ≠ 22)⟩, Io.exec_step hadd, fun fd => ?_⟩
    show _ = if _ then if 21 = 21 ∧ fd = 100 then _ else _ else _
    simp [s1, l1, addCall]
  have hreg : s1.reg 100 = some (1, l1.ctlData io) := by
    have hmem : 100 ∈ io.fake_fds ∧ 100 ∈ io1.fake_fds :=
      ⟨Std.TreeMap.mem_iff_contains.mpr hold, Std.TreeMap.mem_iff_contains.mpr hnew⟩
    simp [s1, hmem]
  have hstep2 : LTS.guarded EpollCond (RegStep .busy) s1 ⟨1, onePage, init_heap, 22, waitCall, r2⟩
      ⟨io2, fun fd => open Classical in
        if fd ∈ io1.fake_fds ∧ fd ∈ io2.fake_fds then s1.reg fd else none⟩ := by
    refine ⟨⟨fun h => absurd h (by decide : 22 ≠ 21), fun _ fd handle hfd => ?_⟩, Io.exec_step hwait, fun fd => ?_⟩
    · have hmem : (fd, handle) ∈ io1.net.fd_to_handle.toList :=
        Std.TreeMap.mem_toList_iff_getElem?_eq_some.mpr hfd
      rw [hkeys, List.mem_singleton] at hmem
      cases hmem
      exact ⟨1, _, hreg, Or.inl rfl⟩
    · simp [s1]
  obtain ⟨es, hes⟩ := events_registered .busy Fs.noBlobs (.snoc l1 hrun hstep1) hstep2 rfl
  exact ⟨s1, _, es, rfl, hret, hes⟩

/-- **Counterexample**: a listening descriptor that was never registered is
    reported, with its number for the data word. -/
theorem unregistered_event :
    ∃ (s t : RegState) (ls : List IoLabel) (l : IoLabel),
      LTS.Steps (RegStep .busy) (.boot Fs.noBlobs) ls s ∧ RegStep .busy s l t ∧ l.num = 22 ∧
      moved (machine l.root) true
        (sys_epoll_pwait .busy (user l.args.a1) l.args.a2 (toIsize l.args.a3)) (l.start s.io) =
          EpollEvent.bytes ⟨100, 5, 100⟩ ∧
      ∀ fd, s.reg fd = none := by
  have hscript : (((Io.boot Fs.noBlobs).script .busy listenCalls).bind fun io =>
      (io.exec .busy 22 waitCall).map fun q =>
        (q.1, moved (machine 1) true (sys_epoll_pwait .busy (user 0) 1 0) ⟨onePage, init_heap, io⟩)) =
      some (1, EpollEvent.bytes ⟨100, 5, 100⟩) := by
    decide +kernel
  obtain ⟨io, hio, hscript⟩ := Option.bind_eq_some_iff.mp hscript
  obtain ⟨⟨r, io1⟩, hwait, hvals⟩ := Option.map_eq_some_iff.mp hscript
  obtain ⟨-, hmoved⟩ := Prod.mk.inj hvals
  obtain ⟨ls, hls, hcalls⟩ := Io.script_steps hio
  have hrun := (RegStep.silent_run hls (listenCalls_quiet hcalls)).of_guarded
  exact ⟨_, _, ls, ⟨1, onePage, init_heap, 22, waitCall, r⟩, hrun,
    .silent (Io.exec_step hwait) (by decide : 22 ≠ 21), rfl, hmoved, fun _ => rfl⟩

/-! ## Section 4: Closed descriptors -/

/-- The descriptor in the first argument. -/
def IoLabel.fd (l : IoLabel) : Nat := ofIsize (toIsize l.args.a0)

/-- A descriptor with a socket, the listening one included, is a socket of
    `FAKE_FDS`, and every slot that is taken has a descriptor. -/
structure Plugged (io : Io) : Prop where
  key : ∀ fd handle : Nat, io.net.fd_to_handle[fd]? = some handle →
    io.fake_fds[fd]? = some .InetSocket
  listen : ∀ fd, io.net.listen_fd = some fd → io.fake_fds[fd]? = some .InetSocket
  slot : ∀ handle, io.net.Live handle → ∃ fd : Nat, io.net.fd_to_handle[fd]? = some handle

/-- The condition: the listening descriptor is not closed, and `listen` is not
    called on another descriptor that already has a socket. -/
structure CloseCond (io : Io) (l : IoLabel) : Prop where
  close : l.num = 57 → io.net.listen_fd ≠ some l.fd
  listen : l.num = 201 → io.net.listen_fd = some l.fd ∨ io.net.fd_to_handle[l.fd]? = none

section Closing

variable {env : Env} {io io' : Io} {l : IoLabel}

/-- The condition of a call lasts until its end. -/
theorem CloseCond.change (h : CloseCond io l)
    (hc : Io.Change env (io_call_may l.num l.args) io io') : CloseCond io' l := by
  cases hc with
  | listen fd slot hmay hinet hnew hfree =>
    obtain ⟨hnum, rfl⟩ := hmay
    exact ⟨fun h57 => by omega, fun _ => Or.inl rfl⟩
  | accept fd handle slot s hmay hinet hlisten hfd hlive hfree =>
    obtain ⟨hnum, -⟩ := hmay
    exact ⟨fun h57 => by omega, fun h201 => by omega⟩
  | close_socket fd handle s hmay hinet hlisten hfd hlive =>
    obtain ⟨hnum, -⟩ := hmay
    exact ⟨h.close, fun h201 => by omega⟩
  | _ => exact ⟨h.close, h.listen⟩

/-- **One step**: under the condition a change keeps descriptors and slots
    together. -/
theorem Plugged.change (hpoll : env.KeepsSlots) (hnum : io.Numbered) (hcond : CloseCond io l)
    (h : Plugged io) (hc : Io.Change env (io_call_may l.num l.args) io io') : Plugged io' := by
  -- an old socket descriptor is none of the numbers still to be given out
  have hold : ∀ fd : Nat, io.fake_fds[fd]? = some .InetSocket → fd ≠ io.fake_fd_next := fun fd hfd =>
    (hnum fd (Std.TreeMap.mem_iff_isSome_getElem?.mpr (by simp [hfd]))).ne
  have hinsert : ∀ (k : Nat) (t : FakeFdType) (fd : Nat), io.fake_fds[fd]? = some .InetSocket → fd ≠ k →
      (io.fake_fds.insert k t)[fd]? = some .InetSocket := by
    intro k t fd hfd hne
    rw [Assoc.get_insert, if_neg hne, hfd]
  have herase : ∀ k fd : Nat, io.fake_fds[fd]? = some .InetSocket → fd ≠ k →
      (io.fake_fds.erase k)[fd]? = some .InetSocket := by
    intro k fd hfd hne
    rw [Assoc.get_erase, if_neg hne, hfd]
  have hnew : ∀ (t : FakeFdType) (fd : Nat), io.fake_fds[fd]? = some .InetSocket →
      (io.fake_fds.insert io.fake_fd_next t)[fd]? = some .InetSocket := fun t fd hfd =>
    hinsert _ t fd hfd (hold fd hfd)
  -- a new socket takes one more slot
  have htaken : ∀ {slot : Nat} {h' : Nat} (s : TcpSocket), io.net.free_slot = some slot →
      ({ io.net with sockets := io.net.sockets.set slot (some s) } : Net).Live h' →
      h' = slot ∨ io.net.Live h' := by
    rintro slot h' s hfree ⟨s', hs'⟩
    rw [Net.socket_set _ (Net.free_slot_spec hfree).1] at hs'
    split at hs'
    · next he => exact Or.inl he
    · exact Or.inr ⟨s', hs'⟩
  have hoccupied : ∀ sockets : Sockets, sockets.map Option.isSome = io.net.sockets.map Option.isSome →
      ∀ handle, ({ io.net with sockets := sockets } : Net).Live handle → io.net.Live handle := by
    intro sockets hocc handle hlive
    rw [Net.live_iff] at hlive ⊢
    exact hocc ▸ hlive
  cases hc with
  | poll =>
    exact ⟨h.key, h.listen, fun handle hlive => h.slot handle (hoccupied _ (hpoll _ _) handle hlive)⟩
  | transfer fd handle s s' hfd hlive hmoves =>
    exact ⟨h.key, h.listen, fun handle' hlive' =>
      h.slot handle' (hoccupied _ (occupied_set ⟨s, hlive⟩ s') handle' hlive')⟩
  | fresh t =>
    exact ⟨fun fd handle hfd => hnew t fd (h.key fd handle hfd), fun fd hfd => hnew t fd (h.listen fd hfd),
      h.slot⟩
  | nscd k st st' hk =>
    have hne : ∀ fd, io.fake_fds[fd]? = some .InetSocket → fd ≠ k := by
      rintro fd hfd rfl
      rw [hk] at hfd
      cases hfd
    exact ⟨fun fd handle hfd => hinsert k _ fd (h.key fd handle hfd) (hne fd (h.key fd handle hfd)),
      fun fd hfd => hinsert k _ fd (h.listen fd hfd) (hne fd (h.listen fd hfd)), h.slot⟩
  | listen k slot hmay hinet hother hfree =>
    obtain ⟨h201, rfl⟩ := hmay
    have hnone : io.net.fd_to_handle[l.fd]? = none := (hcond.listen h201).resolve_left hother
    refine ⟨fun fd handle hfd => ?_, fun fd hfd => Option.some.inj hfd ▸ hinet, fun handle hlive => ?_⟩
    · simp only [Assoc.get_insert] at hfd
      split at hfd
      · next he => exact he ▸ hinet
      · exact h.key fd handle hfd
    · rcases htaken _ hfree hlive with rfl | hlive
      · exact ⟨l.fd, by simp [IoLabel.fd]⟩
      · obtain ⟨fd, hfd⟩ := h.slot handle hlive
        have hne : fd ≠ l.fd := by
          rintro rfl
          rw [hnone] at hfd
          cases hfd
        refine ⟨fd, ?_⟩
        show (io.net.fd_to_handle.insert l.fd slot)[fd]? = _
        rw [Assoc.get_insert, if_neg hne, hfd]
  | accept k handle slot s hmay hinet hlisten hk hlive hfree =>
    have hget : ∀ fd : Nat, ((io.net.fd_to_handle.insert k slot).insert io.fake_fd_next handle)[fd]? =
        if fd = io.fake_fd_next then some handle
        else if fd = k then some slot else io.net.fd_to_handle[fd]? := fun fd => by
      rw [Assoc.get_insert, Assoc.get_insert]
    refine ⟨fun fd handle' hfd => ?_, fun fd hfd => hnew _ fd (h.listen fd hfd), fun handle' hlive' => ?_⟩
    · simp only [hget] at hfd
      by_cases hfresh : fd = io.fake_fd_next
      · show (io.fake_fds.insert _ _)[fd]? = _
        rw [Assoc.get_insert, if_pos hfresh]
      · rw [if_neg hfresh] at hfd
        split at hfd
        · next he => exact hnew _ fd (he ▸ hinet)
        · exact hnew _ fd (h.key fd handle' hfd)
    · simp only [hget]
      rcases htaken _ hfree hlive' with rfl | hlive'
      · exact ⟨k, by simp [hold k hinet]⟩
      · obtain ⟨fd, hfd⟩ := h.slot handle' hlive'
        by_cases he : fd = k
        · rw [he, hk] at hfd
          cases hfd
          exact ⟨io.fake_fd_next, by simp⟩
        · exact ⟨fd, by simp [he, hold fd (h.key fd handle' hfd), hfd]⟩
  | close_other k hmay hother =>
    have hne : ∀ fd, io.fake_fds[fd]? = some .InetSocket → fd ≠ k := by
      rintro fd hfd rfl
      exact hother hfd
    exact ⟨fun fd handle hfd => herase k fd (h.key fd handle hfd) (hne fd (h.key fd handle hfd)),
      fun fd hfd => herase k fd (h.listen fd hfd) (hne fd (h.listen fd hfd)), h.slot⟩
  | close_plain k hmay hinet hplain =>
    obtain ⟨h57, rfl⟩ := hmay
    have hlisten := hcond.close h57
    have hnone := hplain.resolve_left hlisten
    refine ⟨fun fd handle hfd => herase _ fd (h.key fd handle hfd) ?_,
      fun fd hfd => herase _ fd (h.listen fd hfd) ?_, h.slot⟩
    · rintro rfl
      rw [hnone] at hfd
      cases hfd
    · rintro rfl
      exact hlisten hfd
  | close_socket k handle s hmay hinet hlisten hk hlive =>
    refine ⟨fun fd handle' hfd => ?_, fun fd hfd => herase k fd (h.listen fd hfd) ?_,
      fun handle' hlive' => ?_⟩
    · simp only [Assoc.get_erase] at hfd
      split at hfd
      · cases hfd
      · next hne => exact herase k fd (h.key fd handle' hfd) hne
    · rintro rfl
      exact hlisten hfd
    · have hlt : handle < io.net.sockets.length := Net.Live.lt ⟨s, hlive⟩
      obtain ⟨s', hs'⟩ := hlive'
      have hs' : ({ io.net with sockets := io.net.sockets.set handle none } : Net).socket handle' = some s' :=
        hs'
      rw [Net.socket_set _ hlt] at hs'
      split at hs'
      · cases hs'
      · next hne =>
        obtain ⟨fd, hfd⟩ := h.slot handle' ⟨s', hs'⟩
        have hother : fd ≠ k := by
          rintro rfl
          exact hne (Option.some.inj (hfd.symm.trans hk))
        refine ⟨fd, ?_⟩
        show (io.net.fd_to_handle.erase k)[fd]? = _
        rw [Assoc.get_erase, if_neg hother, hfd]
  | _ => exact ⟨h.key, h.listen, h.slot⟩

/-- The number was given out, and is no descriptor any more. -/
structure Gone (fd : Nat) (io : Io) : Prop where
  given : fd < io.fake_fd_next
  closed : fd ∉ io.fake_fds

/-- Numbers are not given out twice. -/
theorem Gone.change {may : Io.Act → Prop} {fd : Nat} (h : Gone fd io)
    (hc : Io.Change env may io io') : Gone fd io' := by
  have hfresh : ∀ t, fd ∉ io.fake_fds.insert io.fake_fd_next t := fun t hmem =>
    (mem_insert_iff.mp hmem).elim h.given.ne h.closed
  have herase : ∀ k, fd ∉ io.fake_fds.erase k := fun k hmem => h.closed (mem_erase_iff.mp hmem).2
  cases hc with
  | fresh t => exact ⟨Nat.lt_succ_of_lt h.given, hfresh t⟩
  | skip => exact ⟨Nat.lt_succ_of_lt h.given, h.closed⟩
  | nscd k st st' hk =>
    refine ⟨h.given, fun hmem => ?_⟩
    rcases mem_insert_iff.mp hmem with rfl | hmem
    · exact h.closed (Std.TreeMap.mem_iff_isSome_getElem?.mpr (by simp [hk]))
    · exact h.closed hmem
  | accept k handle slot s _ hinet hlisten hk hlive hfree => exact ⟨Nat.lt_succ_of_lt h.given, hfresh _⟩
  | close_other k _ hother => exact ⟨h.given, herase k⟩
  | close_plain k _ hinet hplain => exact ⟨h.given, herase k⟩
  | close_socket k handle s _ hinet hlisten hk hlive => exact ⟨h.given, herase k⟩
  | _ => exact ⟨h.given, h.closed⟩

theorem IoStep.next_le (hstep : IoStep env io l io') (h : io.Numbered) :
    io.fake_fd_next ≤ io'.fake_fd_next := by
  let inv (u : Io) : Prop := u.Numbered ∧ io.fake_fd_next ≤ u.fake_fd_next
  have hchange : ∀ u v, inv u → Io.Change env (io_call_may l.num l.args) u v → inv v :=
    fun u v hu hc => ⟨(numbered_change hu.1 hc).1, hu.2.trans (numbered_change hu.1 hc).2⟩
  have hall : inv io' := hstep.reach.invariant hchange ⟨h, Nat.le_refl _⟩
  exact hall.2

/-- After a `close` the descriptor is not there. -/
theorem Io.Closes.gone {fd : Nat} (h : Io.Closes fd io io') : fd ∉ io'.fake_fds := by
  have herased : fd ∉ io.fake_fds.erase fd := fun hmem => (mem_erase_iff.mp hmem).1 rfl
  cases h with
  | file hfile => exact hfile
  | _ => exact herased

/-- `accept` on what is no descriptor. -/
theorem post_accept_gone (fd : Int) (addr addrlen : Ptr) (h : ofIsize fd ∉ io.fake_fds) :
    post (sys_accept env fd addr addrlen) (fun r _ _ => r = -1) (fun _ _ => True) io := by
  simp [sys_accept, is_inet_socket, is_fake_fd, h]

/-- What closing promises: no wait reports the descriptor, no `accept` on it
    succeeds, and every slot that is taken belongs to another one. -/
structure Ended (env : Env) (fd : Nat) (io : Io) : Prop where
  silent : ∀ l io', IoStep env io l io' → l.num = 22 → ∃ es : List EpollEvent,
    moved (machine l.root) true
      (sys_epoll_pwait env (user l.args.a1) l.args.a2 (toIsize l.args.a3)) (l.start io) =
        es.flatMap EpollEvent.bytes ∧ ∀ e ∈ es, e.fd ≠ fd
  deaf : ∀ l io', IoStep env io l io' → l.num = 202 ∨ l.num = 242 → l.fd = fd → l.ret = -1
  slots : ∀ handle, io.net.Live handle → ∃ fd' : Nat, io.net.fd_to_handle[fd']? = some handle ∧ fd' ≠ fd

theorem Gone.ended {fd : Nat} (h : Gone fd io) (hplug : Plugged io) : Ended env fd io := by
  have hkey : ∀ fd' handle : Nat, io.net.fd_to_handle[fd']? = some handle → fd' ≠ fd := by
    rintro fd' handle hfd' rfl
    have hinet := hplug.key fd' handle hfd'
    exact h.closed (Std.TreeMap.mem_iff_isSome_getElem?.mpr (by simp [hinet]))
  refine ⟨?_, ?_, fun handle hlive => ?_⟩
  · rintro l io' ⟨c, u, hc, hret, -⟩ hnum
    rw [hnum] at hc
    cases hc
    obtain ⟨-, hmap, -, hbytes⟩ := post.ok (s := l.start io)
      (post_epoll_pwait (user l.args.a1) l.args.a2 (toIsize l.args.a3)) hret
    refine ⟨u.st.events l.args.a2, hbytes, fun e he => ?_⟩
    obtain ⟨⟨handle, hmem⟩, -⟩ := Net.events_inv he
    rw [show u.st.net.fd_to_handle = io.net.fd_to_handle from hmap] at hmem
    exact hkey e.fd handle (Std.TreeMap.mem_toList_iff_getElem?_eq_some.mp hmem)
  · rintro l io' ⟨c, u, hc, hret, -⟩ hnum rfl
    rcases hnum with hnum | hnum
    · rw [hnum] at hc
      cases hc
      exact post.ok (s := l.start io) (post_accept_gone _ _ _ h.closed) hret
    · rw [hnum] at hc
      cases hc
      exact post.ok (s := l.start io) (post_accept_gone _ _ _ h.closed) hret
  · obtain ⟨fd', hfd'⟩ := hplug.slot handle hlive
    exact ⟨fd', hfd', hkey fd' handle hfd'⟩

theorem Plugged.step (hpoll : env.KeepsSlots) (h : io.Numbered ∧ Plugged io)
    (hstep : LTS.guarded CloseCond (IoStep env) io l io') : io'.Numbered ∧ Plugged io' := by
  obtain ⟨hcond, hstep⟩ := hstep
  let inv (u : Io) : Prop := u.Numbered ∧ CloseCond u l ∧ Plugged u
  have hchange : ∀ u v, inv u → Io.Change env (io_call_may l.num l.args) u v → inv v :=
    fun u v hu hc =>
      ⟨(numbered_change hu.1 hc).1, hu.2.1.change hc, hu.2.2.change hpoll hu.1 hu.2.1 hc⟩
  have hall : inv io' := hstep.reach.invariant hchange ⟨h.1, hcond, h.2⟩
  exact ⟨hall.1, hall.2.2⟩

theorem Plugged.boot (b : Fs.Blobs) : (Io.boot b).Numbered ∧ Plugged (Io.boot b) := by
  refine ⟨fun fd hfd => absurd hfd Std.TreeMap.not_mem_emptyc, ?_, ?_, ?_⟩
  · intro fd handle h
    simp [Io.boot, Io.new] at h
  · intro fd h
    cases h
  · intro handle hlive
    have hfree : ∀ h < 8, ¬ (([none, none, none, none, none, none, none, none] : Sockets).map
        Option.isSome)[h]? = some true := by decide
    exact absurd (Net.live_iff.mp hlive) (hfree handle hlive.lt)

end Closing

/-- `close(101)`. -/
def closeCall : Args := ⟨101, 0, 0, 0, 0, 0⟩

end Rvos

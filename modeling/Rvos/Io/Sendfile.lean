import Rvos.Io.Seek
import Rvos.Io.Vectored

/-! # Sending a file

    `sys_sendfile` reads up to 4096 bytes into a buffer of the kernel's own and
    hands them to `sys_write`.  The read has moved the position of the file by
    then, whatever the write takes, and the pointer `offset` is not looked at.

    * `run_sendfile` : the first half, up to the write.
    * `run_write_effect` : what the write takes, over all destinations.
    * `send_right_iff` : a call advances by what it returns just if it reads
      nothing, or `offset` is null and the destination takes all of it.
    * `sendfile_delivers` : in a sequence of such calls, what the destinations have
      taken is what lies between the first and the last position. -/

namespace Rvos

open Access ByteMem Usize

/-! ## Section 1: Source and destination -/

/-- Offsets are machine words, and pipes have their shape. -/
structure Io.Shaped (io : Io) : Prop where
  offsets : ∀ fd of, io.fd_table.get fd = some of → of.offset < 2 ^ 64
  pipes : ∀ (id : Nat) p, io.pipes[id]? = some p → p.Ok

/-- The descriptor is open on a file with these bytes. -/
structure Io.Source (io : Io) (fd : Nat) (of : OpenFile) (data : List UInt8) : Prop where
  get : io.fd_table.get fd = some of
  pipe_id : of.pipe_id = none
  inode : of.inode ≠ 0
  fake : io.fake_fds[fd]? = none
  file : ∃ f, io.fs.file of.inode = some f ∧ f.as_slice = data
  /-- No slice is longer. -/
  size : data.length < 2 ^ 63

/-- What has arrived at the destination: in the send buffer of a socket, in a pipe,
    or in a file up to the position of the descriptor. -/
def Io.stream (io : Io) (out : Nat) : List UInt8 :=
  if io.fake_fds[out]? = some .InetSocket then
    match io.net.fd_to_handle[out]?.bind fun handle => io.net.sockets[handle]?.join with
    | some socket => socket.tx
    | none => []
  else
    match io.fd_table.get out with
    | none => []
    | some of =>
      match of.pipe_id with
      | some pid =>
        match io.pipes[pid]? with
        | some p => p.contents
        | none => []
      | none =>
        match io.fs.file of.inode with
        | some f => (f.as_slice ++ List.replicate (of.offset - f.as_slice.length) 0).take of.offset
        | none => []

section Stream

variable {io : Io} {out : Nat}

theorem stream_socket {handle : Nat} {socket : TcpSocket} (hinet : io.fake_fds[out]? = some .InetSocket)
    (hhandle : io.net.fd_to_handle[out]? = some handle) (hsocket : io.net.sockets[handle]?.join = some socket) :
    io.stream out = socket.tx := by
  unfold Io.stream
  rw [if_pos hinet, hhandle, Option.bind_some, hsocket]

theorem stream_pipe {of : OpenFile} {pid : Nat} {p : PipeInner} (hplain : io.fake_fds[out]? ≠ some .InetSocket)
    (hof : io.fd_table.get out = some of) (hpid : of.pipe_id = some pid) (hpipe : io.pipes[pid]? = some p) :
    io.stream out = p.contents := by
  unfold Io.stream
  rw [if_neg hplain]
  simp only [hof, hpid, hpipe]

theorem stream_file {of : OpenFile} {f : File} (hplain : io.fake_fds[out]? ≠ some .InetSocket)
    (hof : io.fd_table.get out = some of) (hpid : of.pipe_id = none) (hfile : io.fs.file of.inode = some f) :
    io.stream out = (f.as_slice ++ List.replicate (of.offset - f.as_slice.length) 0).take of.offset := by
  unfold Io.stream
  rw [if_neg hplain]
  simp only [hof, hpid, hfile]

theorem stream_polled (env : Env) (hplain : io.fake_fds[out]? ≠ some .InetSocket) :
    (io.polled env).stream out = io.stream out := by
  have hplain' : (io.polled env).fake_fds[out]? ≠ some .InetSocket := hplain
  unfold Io.stream
  rw [if_neg hplain', if_neg hplain]
  rfl

end Stream

/-- The statics at the time when bytes were offered: the network may have been
    polled before. -/
def Io.offered (env : Env) (io io' : Io) : Io := if io'.polls = io.polls then io else io.polled env

theorem stream_offered {env : Env} {io io' : Io} {out : Nat} (hplain : io.fake_fds[out]? ≠ some .InetSocket) :
    (io.offered env io').stream out = io.stream out := by
  unfold Io.offered
  split
  · rfl
  · exact stream_polled env hplain

theorem offered_polled {env : Env} {io io' : Io} (h : io'.polls = io.polls + 1) :
    io.offered env io' = io.polled env := if_neg (by omega)

/-- The bytes have arrived. -/
def Io.Arrives (env : Env) (io io' : Io) (out : Nat) (bs : List UInt8) : Prop :=
  io'.stream out = (io.offered env io').stream out ++ bs

/-- The destination has room for `n` bytes. -/
inductive Io.Takes (env : Env) (io : Io) (out n : Nat) : Prop where
  | socket (handle : Nat) (socket : TcpSocket) (hfd : io.fake_fds[out]? = some .InetSocket)
      (hhandle : io.net.fd_to_handle[out]? = some handle)
      (hsocket : (io.polled env).net.sockets[handle]?.join = some socket) (hsend : socket.can_send = true)
      (hroom : n ≤ socket.send_room)
  | pipe (of : OpenFile) (pid : Nat) (p : PipeInner) (hfd : io.fake_fds[out]? ≠ some .InetSocket)
      (hof : io.fd_table.get out = some of) (hpid : of.pipe_id = some pid) (hpipe : io.pipes[pid]? = some p)
      (hroom : n ≤ 4095 - p.size)
  | file (of : OpenFile) (path : Path) (v : List UInt8) (cap : Nat) (hfd : io.fake_fds[out]? ≠ some .InetSocket)
      (hof : io.fd_table.get out = some of) (hpid : of.pipe_id = none)
      (hpath : io.fs.inode_map[of.inode]? = some path) (hfile : io.fs.files[path]? = some ⟨.Dynamic v cap⟩)

/-! ## Section 2: The read -/

section Read

variable {root : Nat} {s t : St HeapAllocator Io} {env : Env}

/-- A vector, if the heap has room for it; an empty one is a dangling pointer. -/
theorem run_vec_zeroed_room {n : Nat} (hok : s.heap.Ok) (hroom : s.heap.current + n ≤ s.heap.end_) :
    ∃ a, run (machine root) (vec_zeroed n : IoM Nat) s = .ok a (took s n) ∧ a ≤ s.heap.current ∧
      (0 < n → a = s.heap.current) := by
  have hlo := hok.lo
  have hend := hok.end_eq
  by_cases hn : n = 0
  · subst hn
    have htook : took s 0 = s := by
      rw [took, fill, patch_zero]
      rfl
    refine ⟨1, ?_, by omega, fun hpos => absurd hpos (Nat.lt_irrefl 0)⟩
    rw [htook]
    rfl
  · rw [vec_zeroed_pos (Nat.pos_of_ne_zero hn) (by omega)]
    exact ⟨_, run_allocZeroed_room hok hroom, Nat.le_refl _, fun _ => rfl⟩

/-- A vector that is given has found room. -/
theorem room_of_vec_zeroed {n a : Nat} (hok : s.heap.Ok) (hlt : n < 2 ^ 63)
    (h : run (machine root) (vec_zeroed n : IoM Nat) s = .ok a t) : s.heap.current + n ≤ s.heap.end_ := by
  have hhi := hok.hi
  have hend := hok.end_eq
  by_contra hfull
  rw [vec_zeroed_pos (by omega) hlt, run_allocZeroed_full hok hlt (by omega)] at h
  cases h

theorem took_ok {n : Nat} (hok : s.heap.Ok) (hroom : s.heap.current + n ≤ s.heap.end_) : (took s n).heap.Ok := by
  refine ⟨Nat.le_trans hok.lo (Nat.le_add_right _ _), ?_, hok.end_eq⟩
  show s.heap.current + n ≤ 0x8700_0000
  rw [← hok.end_eq]
  exact hroom

/-- Memory of the kernel's own is a block. -/
theorem own_block (m : Mem) {a n : Nat} (ha : a < 2 ^ 64) (hfit : a + n ≤ 2 ^ 64) :
    Block (machine root) m ⟨a, true⟩ n (fun i => a + i) where
  addr_lt := ha
  inj := by
    intro i j _ _ h
    omega
  fixed := by
    intro m' _ w i hi
    have hwadd : wadd a i = a + i := wadd_of_lt (by omega)
    simp only [Machine.at, Ptr.add, if_true, hwadd]

/-- A buffer below the rest of the heap holds what it holds. -/
theorem own_holds {a : Nat} {bs : List UInt8} (ha : a < 2 ^ 64) (hfit : a + bs.length ≤ 2 ^ 64)
    (hlow : a + bs.length ≤ s.heap.current) (hbs : contents (fun i => a + i) bs.length s.mem = bs) :
    Holds root s ⟨a, true⟩ bs := by
  intro m hm
  have hsame : contents (fun i => a + i) bs.length m = bs := by
    rw [← hbs, length_contents]
    unfold contents
    apply List.map_congr_left
    intro i hi
    have hi := List.mem_range.mp hi
    apply hm
    left
    dsimp only
    omega
  have hload : run (machine root) (Code.loadBytes ((⟨a, true⟩ : Ptr).add 0) bs.length : IoM _) ⟨m, s.heap, s.st⟩ =
      .ok (part (contents (fun i => a + i) bs.length m) 0 bs.length) ⟨m, s.heap, s.st⟩ :=
    Block.run_loadBytes (own_block m ha hfit) (by omega)
  rw [Ptr.add_zero ha, hsame, part, List.drop_zero, List.take_length] at hload
  exact ((run_loadBytes_iff _).mp hload).2

/-- How many bytes a call reads. -/
def sendable (of : OpenFile) (data : List UInt8) (count : Nat) : Nat :=
  min (min count 4096) (data.length - of.offset)

/-- The bytes it reads. -/
def chunk (of : OpenFile) (data : List UInt8) (count : Nat) : List UInt8 :=
  (data.drop of.offset).take (sendable of data count)

theorem length_chunk (of : OpenFile) (data : List UInt8) (count : Nat) :
    (chunk of data count).length = sendable of data count := by
  rw [chunk, List.length_take, List.length_drop, sendable]
  omega

/-- `sys_read` of a file. -/
theorem run_read_source {fd : Int} {of : OpenFile} {data : List UInt8} (hsrc : s.st.Source (ofIsize fd) of data)
    (buf : Ptr) (c : Nat) :
    run (machine root) (sys_read env fd buf c) s = run (machine root) (do
      let out ← read_file of.inode c of.offset
      Code.storeBytes buf out
      fd_put (ofIsize fd) { of with offset := wadd of.offset out.length }
      return (out.length : Int)) s := by
  have hstdin : s.st.is_stdin (ofIsize fd) = false := by
    unfold Io.is_stdin
    simp [hsrc.get, hsrc.inode]
  unfold sys_read
  rw [run_get_bind]
  simp only [hstdin, Bool.false_eq_true, if_false, hsrc.fake]
  unfold read_open
  rw [run_get_bind]
  simp only [hsrc.get]
  split
  · next pid hpid =>
    rw [hsrc.pipe_id] at hpid
    cases hpid
  · rfl

/-- The read of the source into a buffer of the kernel's own. -/
theorem run_read_own {fd : Int} {of : OpenFile} {data : List UInt8} {a c : Nat}
    (hsrc : s.st.Source (ofIsize fd) of data) (hpos : of.offset ≤ data.length) (hok : s.heap.Ok)
    (hroom : s.heap.current + c ≤ s.heap.end_) (ha : a < 2 ^ 64) (hfit : a + c ≤ 2 ^ 64) :
    run (machine root) (sys_read env fd ⟨a, true⟩ c) s = .ok (min c (data.length - of.offset) : Nat) { took s c with
      mem := put (fun i => a + i) 0 ((data.drop of.offset).take (min c (data.length - of.offset))) (took s c).mem
      st := s.st.seeked (ofIsize fd) of (of.offset + min c (data.length - of.offset)) } := by
  obtain ⟨f, hfile, hdata⟩ := hsrc.file
  obtain ⟨b, hvec, -⟩ := run_vec_zeroed_room hok hroom
  have hsize := hsrc.size
  have hread : (took s c).st.fs.read_inode of.inode c of.offset =
      .ok ((data.drop of.offset).take (min c (data.length - of.offset))) := by
    have hle : of.offset ≤ f.len := by
      rw [File.len, hdata]
      exact hpos
    have hinside : s.st.fs.read_inode of.inode c of.offset =
        .ok ((f.as_slice.drop of.offset).take (min (f.len - of.offset) c)) := Fs.read_inode_inside hfile hle
    rw [File.len, hdata] at hinside
    rw [Nat.min_comm]
    exact hinside
  have hlen : ((data.drop of.offset).take (min c (data.length - of.offset))).length =
      min c (data.length - of.offset) := by
    rw [List.length_take, List.length_drop]
    omega
  have hstore : run (machine root) (Code.storeBytes ((⟨a, true⟩ : Ptr).add 0)
      ((data.drop of.offset).take (min c (data.length - of.offset))) : IoM Unit) (took s c) = _ :=
    Block.run_storeBytes (own_block (took s c).mem ha hfit) (by omega)
  rw [Ptr.add_zero ha] at hstore
  have hbytes : run (machine root) (read_file of.inode c of.offset) s =
      .ok ((data.drop of.offset).take (min c (data.length - of.offset))) (took s c) := by
    unfold read_file
    rw [run_bind_of_ok _ hvec, run_get_bind]
    simp only [hread, run_pure]
  rw [run_read_source hsrc, run_bind_of_ok _ hbytes, run_bind_of_ok _ hstore, hlen, wadd_of_lt (by omega)]
  rfl

/-- A read that returns has found room, and its position is not behind the end. -/
theorem room_of_read {fd r : Int} {of : OpenFile} {data : List UInt8} {buf : Ptr} {c : Nat}
    (hsrc : s.st.Source (ofIsize fd) of data) (hoff : of.offset < 2 ^ 64) (hok : s.heap.Ok) (hc : c < 2 ^ 63)
    (h : run (machine root) (sys_read env fd buf c) s = .ok r t) :
    of.offset ≤ data.length ∧ s.heap.current + c ≤ s.heap.end_ := by
  obtain ⟨f, hfile, hdata⟩ := hsrc.file
  rw [run_read_source hsrc] at h
  obtain ⟨out, u, hread, -⟩ := (run_bind_ok _).mp h
  unfold read_file at hread
  obtain ⟨b, u', hvec, hread⟩ := (run_bind_ok _).mp hread
  refine ⟨?_, room_of_vec_zeroed hok hc hvec⟩
  by_contra hpast
  have hst : u'.st = s.st := (run_vec_zeroed hvec).1
  have hpast : f.len < of.offset := by
    rw [File.len, hdata]
    omega
  have herror : s.st.fs.read_inode of.inode c of.offset = _ := Fs.read_inode_past hoff hfile hpast
  rw [run_get_bind, hst] at hread
  simp only [herror, run_throw] at hread
  cases hread

variable (root env) in
/-- **The first half of a call**, with room for two vectors: the bytes are in a
    buffer below the rest of the heap, the position has moved, and unless nothing
    was left to read the write is next. -/
theorem run_sendfile {fd : Int} {of : OpenFile} {data : List UInt8} {count : Nat}
    (hsrc : s.st.Source (ofIsize fd) of data) (hpos : of.offset ≤ data.length) (hok : s.heap.Ok)
    (hroom : s.heap.current + 2 * min count 4096 ≤ s.heap.end_) (out : Int) :
    ∃ a s1, Drawn s s1 ∧ s1.heap.current = s.heap.current + 2 * min count 4096 ∧
      s1.st = s.st.seeked (ofIsize fd) of (of.offset + sendable of data count) ∧
      Holds root s1 ⟨a, true⟩ (chunk of data count) ∧
      run (machine root) (sys_sendfile env out fd count) s =
        if sendable of data count = 0 then .ok 0 s1
        else run (machine root) (sys_write env out ⟨a, true⟩ (chunk of data count).length) s1 := by
  have hend := hok.end_eq
  have hfirst : s.heap.current + min count 4096 ≤ s.heap.end_ := by omega
  obtain ⟨a, hvec, hle, ha⟩ : ∃ a, run (machine root) (vec_zeroed (min count 4096) : IoM Nat) s =
      .ok a (took s (min count 4096)) ∧ a ≤ s.heap.current ∧ (0 < min count 4096 → a = s.heap.current) :=
    run_vec_zeroed_room hok hfirst
  have hcur : (took s (min count 4096)).heap.current = s.heap.current + min count 4096 := rfl
  have hlast : (took s (min count 4096)).heap.end_ = s.heap.end_ := rfl
  have hdraw : Drawn s (took s (min count 4096)) :=
    Drawn.took ⟨hok, rfl, Nat.le_refl _, fun _ _ => rfl⟩ (by omega)
  have hdraw' : Drawn s (took (took s (min count 4096)) (min count 4096)) := hdraw.took (by omega)
  have hlen := length_chunk of data count
  have hsmall : sendable of data count ≤ min count 4096 := Nat.min_le_left _ _
  let s1 : St HeapAllocator Io := { took (took s (min count 4096)) (min count 4096) with
    mem := put (fun i => a + i) 0 (chunk of data count) (took (took s (min count 4096)) (min count 4096)).mem
    st := s.st.seeked (ofIsize fd) of (of.offset + sendable of data count) }
  have hsrc' : (took s (min count 4096)).st.Source (ofIsize fd) of data := hsrc
  have hread : run (machine root) (sys_read env fd ⟨a, true⟩ (min count 4096)) (took s (min count 4096)) =
      .ok (sendable of data count : Nat) s1 :=
    run_read_own hsrc' hpos hdraw.ok (by omega) (by omega) (by omega)
  -- the buffer is the first of the two vectors
  have hdraw1 : Drawn s s1 := by
    refine ⟨hdraw'.ok, hdraw'.last, hdraw'.grows, ?_⟩
    intro x hx
    show put _ _ _ _ x = _
    rw [put_off, hdraw'.mem x hx]
    intro i hi
    rw [hlen] at hi
    have := ha (by omega)
    omega
  have hcur1 : s1.heap.current = s.heap.current + 2 * min count 4096 := by
    show s.heap.current + min count 4096 + min count 4096 = _
    omega
  refine ⟨a, s1, hdraw1, hcur1, rfl, ?_, ?_⟩
  · apply own_holds (by omega) (by omega) (by omega)
    have hblock : Block (machine root) s1.mem ⟨a, true⟩ (chunk of data count).length (fun i => a + i) :=
      own_block _ (by omega) (by omega)
    show contents _ _ (put _ _ _ _) = _
    rw [contents_put hblock.inj (by omega), overlay, List.take_zero, List.nil_append,
      List.drop_of_length_le (by rw [length_contents]; omega), List.append_nil]
  · unfold sys_sendfile
    rw [run_bind_of_ok _ hvec, run_bind_of_ok _ hread]
    by_cases hzero : sendable of data count = 0
    · rw [if_pos hzero, if_pos (by omega), run_pure, hzero]
      rfl
    · rw [if_neg hzero, if_neg (by omega), ofIsize_nat (by omega), hlen]

/-- A call that returns has found room, and its position is not behind the end. -/
theorem room_of_sendfile {out fd r : Int} {of : OpenFile} {data : List UInt8} {count : Nat}
    (hsrc : s.st.Source (ofIsize fd) of data) (hoff : of.offset < 2 ^ 64) (hok : s.heap.Ok)
    (h : run (machine root) (sys_sendfile env out fd count) s = .ok r t) :
    of.offset ≤ data.length ∧ s.heap.current + 2 * min count 4096 ≤ s.heap.end_ := by
  unfold sys_sendfile at h
  obtain ⟨a, u, hvec, h⟩ := (run_bind_ok _).mp h
  obtain ⟨n, u', hread, -⟩ := (run_bind_ok _).mp h
  have hroom := room_of_vec_zeroed hok (show min count 4096 < 2 ^ 63 by omega) hvec
  obtain ⟨a', hvec', -⟩ : ∃ a, run (machine root) (vec_zeroed (min count 4096) : IoM Nat) s =
      .ok a (took s (min count 4096)) ∧ a ≤ s.heap.current ∧ (0 < min count 4096 → a = s.heap.current) :=
    run_vec_zeroed_room hok hroom
  rw [hvec'] at hvec
  obtain ⟨-, rfl⟩ := EStateM.Result.ok.inj hvec
  have hsrc' : (took s (min count 4096)).st.Source (ofIsize fd) of data := hsrc
  obtain ⟨hpos, hroom'⟩ := room_of_read hsrc' hoff (took_ok hok hroom) (by omega) hread
  have hcur : (took s (min count 4096)).heap.current = s.heap.current + min count 4096 := rfl
  have hlast : (took s (min count 4096)).heap.end_ = s.heap.end_ := rfl
  exact ⟨hpos, by omega⟩

end Read

/-! ## Section 3: The write -/

/-- What a write of `bs` to `out` that returns `r` does. -/
structure WriteEffect (env : Env) (io io' : Io) (out : Nat) (bs : List UInt8) (r : Int) : Prop where
  /-- All bytes are taken just if there is room for them. -/
  full : r = bs.length ↔ io.Takes env out bs.length
  arrives : io.Takes env out bs.length → io.Arrives env io' out bs
  /-- No position moves but that of a file at the destination. -/
  fds : ∀ fd of, io.fd_table.get fd = some of →
    ∃ k : Nat, io'.fd_table.get fd = some { of with offset := of.offset + k } ∧ (fd ≠ out → k = 0) ∧
      (fd = out → of.pipe_id = none → io.fake_fds[out]? ≠ some .InetSocket → k = r.toNat)
  files : ∀ path f, io.fs.files[path]? = some f →
    (∀ of, io.fd_table.get out = some of → io.fs.inode_map[of.inode]? ≠ some path) →
      io'.fs.files[path]? = some f
  inodes : io'.fs.inode_map = io.fs.inode_map
  fake : io'.fake_fds = io.fake_fds
  shaped : io'.Shaped

section Write

variable {root : Nat} {s t : St HeapAllocator Io} {env : Env} {out r : Int} {p : Ptr} {bs : List UInt8}

/-- A write that is refused changes no file, pipe or position. -/
theorem WriteEffect.refused {io io' : Io} {out : Nat} (hshaped : io.Shaped) (hne : bs ≠ []) (hr : r ≤ 0)
    (hfull : ¬ io.Takes env out bs.length) (hfds : io'.fd_table = io.fd_table) (hfs : io'.fs = io.fs)
    (hpipes : io'.pipes = io.pipes) (hfake : io'.fake_fds = io.fake_fds) : WriteEffect env io io' out bs r where
  full := by
    have hpos : 0 < bs.length := List.length_pos_iff.mpr hne
    exact ⟨fun h => absurd h (by omega), fun h => absurd h hfull⟩
  arrives := fun h => absurd h hfull
  fds := by
    intro fd of hof
    rw [hfds]
    exact ⟨0, hof, fun _ => rfl, fun _ _ _ => by omega⟩
  files := by
    intro path f hf _
    rw [hfs, hf]
  inodes := by rw [hfs]
  fake := hfake
  shaped := ⟨hfds ▸ hshaped.offsets, hpipes ▸ hshaped.pipes⟩

/-- A write to a socket. -/
theorem run_write_socket (hshaped : s.st.Shaped) (hout : out ≠ 1 ∧ out ≠ 2)
    (hinet : s.st.fake_fds[ofIsize out]? = some .InetSocket) (hne : bs ≠ [])
    (hbuf : (machine root).loads s.mem p bs.length = some bs)
    (h : run (machine root) (sys_write env out p bs.length) s = .ok r t) :
    WriteEffect env s.st t.st (ofIsize out) bs r := by
  have hpos : 0 < bs.length := List.length_pos_iff.mpr hne
  have hsend : run (machine root) (send_to_fd env (ofIsize out) p bs.length) s = .ok r t := by
    unfold sys_write at h
    rw [if_neg (by omega)] at h
    obtain ⟨_, u, hecho, hrest⟩ := (run_bind_ok _).mp h
    obtain rfl := run_log_echo hecho
    have hsock : run (machine root) (is_inet_socket (ofIsize out)) u = .ok true u := by
      unfold is_inet_socket
      rw [run_get_bind, run_pure, hinet]
      rfl
    rw [run_bind_of_ok _ hsock] at hrest
    exact hrest
  have hpoll : run (machine root) (poll_network env) s = .ok () { s with st := s.st.polled env } := rfl
  have hhandles : (s.st.polled env).net.fd_to_handle = s.st.net.fd_to_handle := rfl
  unfold send_to_fd at hsend
  rw [run_bind_of_ok _ hpoll, run_get_bind] at hsend
  -- a destination with room is this socket
  have htakes : s.st.Takes env (ofIsize out) bs.length → ∃ handle socket,
      s.st.net.fd_to_handle[ofIsize out]? = some handle ∧
      (s.st.polled env).net.sockets[handle]?.join = some socket ∧ socket.can_send = true ∧
      bs.length ≤ socket.send_room := by
    intro ht
    cases ht with
    | socket handle socket hfd hhandle hsocket hcan hroom => exact ⟨handle, socket, hhandle, hsocket, hcan, hroom⟩
    | pipe of pid p hfd => exact absurd hinet hfd
    | file of path v cap hfd => exact absurd hinet hfd
  cases hhandle : s.st.net.fd_to_handle[ofIsize out]? with
  | none =>
    simp only [hhandles, hhandle, run_pure] at hsend
    obtain ⟨rfl, rfl⟩ := EStateM.Result.ok.inj hsend
    refine .refused hshaped hne (by omega) ?_ rfl rfl rfl rfl
    intro ht
    obtain ⟨handle, socket, hhandle', -⟩ := htakes ht
    rw [hhandle] at hhandle'
    cases hhandle'
  | some handle =>
    simp only [hhandles, hhandle] at hsend
    cases hsocket : (s.st.polled env).net.sockets[handle]?.join with
    | none =>
      unfold socket_get at hsend
      rw [run_bind, run_get_bind] at hsend
      simp only [hsocket, run_throw] at hsend
      cases hsend
    | some socket =>
      have hget : run (machine root) (socket_get handle) { s with st := s.st.polled env } =
          .ok socket { s with st := s.st.polled env } := by
        unfold socket_get
        rw [run_get_bind]
        simp only [hsocket, run_pure]
      rw [run_bind_of_ok _ hget] at hsend
      by_cases hcan : socket.can_send = true
      · have hload : run (machine root) (Code.loadBytes p (min socket.send_room bs.length) : IoM _)
            { s with st := s.st.polled env } =
              .ok (bs.take (min socket.send_room bs.length)) { s with st := s.st.polled env } :=
          (run_loadBytes_iff _).mpr ⟨rfl, loads_take hbuf (Nat.min_le_right _ _)⟩
        simp only [hcan, Bool.not_true, Bool.false_eq_true, if_false] at hsend
        rw [run_bind_of_ok _ hload] at hsend
        obtain ⟨rfl, rfl⟩ := EStateM.Result.ok.inj hsend
        have hfull : s.st.Takes env (ofIsize out) bs.length → bs.length ≤ socket.send_room := by
          intro ht
          obtain ⟨handle', socket', hhandle', hsocket', -, hroom⟩ := htakes ht
          obtain rfl := Option.some.inj (hhandle.symm.trans hhandle')
          obtain rfl := Option.some.inj (hsocket.symm.trans hsocket')
          exact hroom
        refine ⟨?_, ?_, ?_, ?_, rfl, rfl, hshaped.offsets, hshaped.pipes⟩
        · rw [List.length_take, Nat.cast_inj]
          constructor
          · intro hr
            exact .socket handle socket hinet hhandle hsocket hcan (by omega)
          · intro ht
            have := hfull ht
            omega
        · intro ht
          have hroom := hfull ht
          have hin : handle < (s.st.polled env).net.sockets.length := by
            by_contra hge
            rw [List.getElem?_eq_none (by omega)] at hsocket
            cases hsocket
          have hbefore : (s.st.polled env).stream (ofIsize out) = socket.tx := stream_socket hinet hhandle hsocket
          rw [Io.Arrives, offered_polled rfl, hbefore, Nat.min_eq_right hroom, List.take_length]
          apply @stream_socket _ _ handle (socket.queued bs)
          · exact hinet
          · exact hhandle
          show ((s.st.polled env).net.sockets.set handle (some (socket.queued bs)))[handle]?.join = _
          rw [List.getElem?_set_self hin]
          rfl
        · intro fd of hof
          exact ⟨0, hof, fun _ => rfl, fun _ _ hplain => absurd hinet hplain⟩
        · intro path f hf _
          exact hf
      · simp only [hcan, Bool.not_false, if_true, run_pure] at hsend
        obtain ⟨rfl, rfl⟩ := EStateM.Result.ok.inj hsend
        refine .refused hshaped hne ?_ ?_ rfl rfl rfl rfl
        · split <;> omega
        · intro ht
          obtain ⟨handle', socket', hhandle', hsocket', hcan', -⟩ := htakes ht
          obtain rfl := Option.some.inj (hhandle.symm.trans hhandle')
          obtain rfl := Option.some.inj (hsocket.symm.trans hsocket')
          exact hcan hcan'

/-- A write to an open pipe. -/
theorem run_write_to_pipe (hshaped : s.st.Shaped) (hok : s.heap.Ok) (hout : out ≠ 1 ∧ out ≠ 2)
    (hplain : s.st.fake_fds[ofIsize out]? ≠ some .InetSocket) (hbuf : Holds root s p bs) (hne : bs ≠ [])
    (hlt : bs.length < 2 ^ 63) {of : OpenFile} {pid : Nat} {pipe : PipeInner}
    (hof : s.st.fd_table.get (ofIsize out) = some of) (hpid : of.pipe_id = some pid)
    (hpipe : s.st.pipes[pid]? = some pipe)
    (h : run (machine root) (sys_write env out p bs.length) s = .ok r t) :
    WriteEffect env s.st t.st (ofIsize out) bs r := by
  have hdraw : Drawn s s := ⟨hok, rfl, Nat.le_refl _, fun _ _ => rfl⟩
  have hat := (Denotes.pipe pid pipe hpid hpipe).at hof (hshaped.offsets _ _ hof)
  obtain ⟨hroom, hends⟩ := fits_of_write hout hof hplain hdraw hat hbuf hne hlt h
  obtain ⟨t', hrun, -, hat', -⟩ := run_write_dest hout hof hplain hdraw hat hbuf hne hroom hends
  rw [h] at hrun
  obtain ⟨rfl, rfl⟩ := EStateM.Result.ok.inj hrun
  -- the pipe takes what it has room for
  have hpok : pipe.Ok := hshaped.pipes _ _ hpipe
  have hput : (Dest.pipe pipe).put bs = (.pipe (pipe.push bs).1, (pipe.push bs).2) := by
    simp only [Dest.put, hpok.write_eq]
  obtain ⟨hok', -, hcontents⟩ := hpok.push bs
  have hcount := hpok.push_count bs
  rw [hput] at hat' ⊢
  have htakes : s.st.Takes env (ofIsize out) bs.length → bs.length ≤ 4095 - pipe.size := by
    intro ht
    cases ht with
    | socket handle socket hfd => exact absurd hfd hplain
    | pipe of' pid' p' hfd hof' hpid' hpipe' hroom =>
      obtain rfl := Option.some.inj (hof.symm.trans hof')
      obtain rfl := Option.some.inj (hpid.symm.trans hpid')
      obtain rfl := Option.some.inj (hpipe.symm.trans hpipe')
      exact hroom
    | file of' path v cap hfd hof' hpid' =>
      obtain rfl := Option.some.inj (hof.symm.trans hof')
      rw [hpid] at hpid'
      cases hpid'
  cases hat' with
  | pipe _ _ pid' p' hpid' hfds hfake hfs hpipes =>
    obtain rfl := Option.some.inj (hpid.symm.trans hpid')
    have hpipe' : t.st.pipes[pid]? = some (pipe.push bs).1 := by rw [hpipes, if_pos rfl]
    refine ⟨?_, ?_, ?_, ?_, by rw [hfs], hfake, ?_, ?_⟩
    · rw [Nat.cast_inj, hcount]
      constructor
      · intro hr
        exact .pipe of pid pipe hplain hof hpid hpipe (by omega)
      · intro ht
        have := htakes ht
        omega
    · intro ht
      have hroom := htakes ht
      rw [Io.Arrives, stream_offered hplain, stream_pipe hplain hof hpid hpipe, stream_pipe (by rwa [hfake]) (by rw [hfds, hof]) hpid hpipe',
        hcontents, hcount, Nat.min_eq_left hroom, List.take_length]
    · intro fd of' hof'
      rw [hfds]
      refine ⟨0, hof', fun _ => rfl, ?_⟩
      rintro rfl hnone
      obtain rfl := Option.some.inj (hof.symm.trans hof')
      rw [hpid] at hnone
      cases hnone
    · intro path f hf _
      rw [hfs, hf]
    · rw [hfds]
      exact hshaped.offsets
    · intro id q hq
      rw [hpipes] at hq
      split at hq
      · obtain rfl := Option.some.inj hq
        exact hok'
      · exact hshaped.pipes id q hq

theorem fd_lt {tab : FdTable} {fd : Nat} {of : OpenFile} (hof : tab.get fd = some of) : fd < tab.files.length := by
  by_contra hge
  rw [FdTable.get, List.getElem?_eq_none (by omega)] at hof
  cases hof

/-- What is in a file up to the position, after a write there. -/
theorem take_splice (v bs : List UInt8) (offset : Nat) :
    (splice v offset bs ++ List.replicate (offset + bs.length - (splice v offset bs).length) 0).take
        (offset + bs.length) =
      (v ++ List.replicate (offset - v.length) 0).take offset ++ bs := by
  have hfront : ((v ++ List.replicate (offset - v.length) 0).take offset ++ bs).length = offset + bs.length := by
    rw [List.length_append, List.length_take, List.length_append, List.length_replicate]
    omega
  rw [splice, List.append_assoc, List.take_left' hfront]

/-- A write to a growing file. -/
theorem run_write_to_file (hshaped : s.st.Shaped) (hok : s.heap.Ok) (hout : out ≠ 1 ∧ out ≠ 2)
    (hplain : s.st.fake_fds[ofIsize out]? ≠ some .InetSocket) (hbuf : Holds root s p bs) (hne : bs ≠ [])
    (hlt : bs.length < 2 ^ 63) {of : OpenFile} {path : Path} {v : List UInt8} {cap : Nat}
    (hof : s.st.fd_table.get (ofIsize out) = some of) (hpid : of.pipe_id = none)
    (hpath : s.st.fs.inode_map[of.inode]? = some path) (hfile : s.st.fs.files[path]? = some ⟨.Dynamic v cap⟩)
    (h : run (machine root) (sys_write env out p bs.length) s = .ok r t) :
    WriteEffect env s.st t.st (ofIsize out) bs r := by
  have hdraw : Drawn s s := ⟨hok, rfl, Nat.le_refl _, fun _ _ => rfl⟩
  have hat := (Denotes.growing path v cap hpid hpath hfile).at hof (hshaped.offsets _ _ hof)
  obtain ⟨hroom, hends⟩ := fits_of_write hout hof hplain hdraw hat hbuf hne hlt h
  obtain ⟨t', hrun, -, hat', -⟩ := run_write_dest hout hof hplain hdraw hat hbuf hne hroom hends
  rw [h] at hrun
  obtain ⟨rfl, rfl⟩ := EStateM.Result.ok.inj hrun
  have hput : (Dest.growing v of.offset).put bs =
      (.growing (splice v of.offset bs) (of.offset + bs.length), bs.length) := if_neg hne
  rw [hput] at hat' ⊢
  generalize hcap : (Dest.growing v of.offset).capAfter cap bs.length = cap' at hat'
  cases hat' with
  | growing _ _ _ path' _ hpid' hoff hfds hfake hpipes hinodes hpath' hfiles =>
    obtain rfl := Option.some.inj (hpath.symm.trans hpath')
    have hof' : t.st.fd_table.get (ofIsize out) = some { of with offset := of.offset + bs.length } := by
      rw [hfds]
      exact get_put_self hof _
    refine ⟨?_, ?_, ?_, ?_, hinodes, hfake, ?_, ?_⟩
    · exact ⟨fun _ => .file of path v cap hplain hof hpid hpath hfile, fun _ => rfl⟩
    · intro _
      have hbefore : s.st.fs.file of.inode = some ⟨.Dynamic v cap⟩ := by
        rw [Fs.file, hpath, Option.bind_some, hfile]
      have hafter : t.st.fs.file of.inode = some ⟨.Dynamic (splice v of.offset bs) cap'⟩ := by
        rw [Fs.file, hinodes, hpath, Option.bind_some, hfiles, if_pos rfl]
      rw [Io.Arrives, stream_offered hplain, stream_file hplain hof hpid hbefore, stream_file (by rwa [hfake]) hof' hpid hafter]
      exact take_splice v bs of.offset
    · intro fd of' hget
      rw [hfds, FdTable.get_put]
      split
      · next hfd =>
        obtain ⟨rfl, -⟩ := hfd
        obtain rfl := Option.some.inj (hof.symm.trans hget)
        exact ⟨bs.length, rfl, fun h => absurd rfl h, fun _ _ _ => rfl⟩
      · next hfd =>
        refine ⟨0, hget, fun _ => rfl, ?_⟩
        rintro rfl
        exact absurd ⟨rfl, fd_lt hof⟩ hfd
    · intro q f hf hother
      rw [hfiles, if_neg, hf]
      rintro rfl
      exact hother of hof hpath
    · intro fd of' hget
      rw [hfds, FdTable.get_put] at hget
      split at hget
      · obtain rfl := Option.some.inj hget
        exact hoff
      · exact hshaped.offsets fd of' hget
    · rw [hpipes]
      exact hshaped.pipes

/-- **The second half of a call**: what a write of some bytes that returns has done. -/
theorem run_write_effect (hshaped : s.st.Shaped) (hok : s.heap.Ok) (hout : out ≠ 1 ∧ out ≠ 2)
    (hbuf : Holds root s p bs) (hne : bs ≠ []) (hlt : bs.length < 2 ^ 63)
    (h : run (machine root) (sys_write env out p bs.length) s = .ok r t) :
    WriteEffect env s.st t.st (ofIsize out) bs r := by
  have hpos : 0 < bs.length := List.length_pos_iff.mpr hne
  have hdraw : Drawn s s := ⟨hok, rfl, Nat.le_refl _, fun _ _ => rfl⟩
  have hload := hbuf s.mem hdraw.mem
  by_cases hinet : s.st.fake_fds[ofIsize out]? = some .InetSocket
  · exact run_write_socket hshaped hout hinet hne hload h
  have hopen := h
  rw [run_write_plain hout hinet hload] at hopen
  unfold write_open at hopen
  rw [run_get_bind] at hopen
  cases hof : s.st.fd_table.get (ofIsize out) with
  | none =>
    -- not open
    simp only [hof, run_pure] at hopen
    obtain ⟨rfl, rfl⟩ := EStateM.Result.ok.inj hopen
    refine .refused hshaped hne (by omega) ?_ rfl rfl rfl rfl
    intro ht
    cases ht with
    | socket _ _ hfd => exact hinet hfd
    | pipe of' pid p hfd hof' => rw [hof] at hof'; cases hof'
    | file of' path v cap hfd hof' => rw [hof] at hof'; cases hof'
  | some of =>
    simp only [hof] at hopen
    cases hpid : of.pipe_id with
    | some pid =>
      cases hpipe : s.st.pipes[pid]? with
      | some pipe => exact run_write_to_pipe hshaped hok hout hinet hbuf hne hlt hof hpid hpipe h
      | none =>
        -- a pipe that is gone takes nothing
        simp only [hpid] at hopen
        unfold write_pipe at hopen
        rw [run_get_bind] at hopen
        simp only [hpipe, run_pure] at hopen
        obtain ⟨rfl, rfl⟩ := EStateM.Result.ok.inj hopen
        refine .refused hshaped hne (by omega) ?_ rfl rfl rfl rfl
        intro ht
        cases ht with
        | socket _ _ hfd => exact hinet hfd
        | pipe of' pid' p hfd hof' hpid' hpipe' =>
          obtain rfl := Option.some.inj (hof.symm.trans hof')
          obtain rfl := Option.some.inj (hpid.symm.trans hpid')
          rw [hpipe] at hpipe'
          cases hpipe'
        | file of' path v cap hfd hof' hpid' =>
          obtain rfl := Option.some.inj (hof.symm.trans hof')
          rw [hpid] at hpid'
          cases hpid'
    | none =>
      by_cases hdyn : ∃ path v cap, s.st.fs.inode_map[of.inode]? = some path ∧
          s.st.fs.files[path]? = some ⟨.Dynamic v cap⟩
      · obtain ⟨path, v, cap, hpath, hfile⟩ := hdyn
        exact run_write_to_file hshaped hok hout hinet hbuf hne hlt hof hpid hpath hfile h
      · -- an embedded file, or no file at all, takes nothing
        simp only [hpid] at hopen
        obtain ⟨bs', u, hcopy, -⟩ := (run_bind_ok _).mp hopen
        have hroom := room_of_copy_in hok hne hlt hcopy
        rw [run_write_copied hout hinet hdraw hbuf hne hroom hof hpid] at h
        have hwrite : run (machine root) (write_inode of.inode bs of.offset) (took s bs.length) =
            .ok 0 (took s bs.length) := by
          unfold write_inode
          rw [run_get_bind, show (took s bs.length).st = s.st from rfl]
          cases hpath : s.st.fs.inode_map[of.inode]? with
          | none => simp only [hpath, run_pure]
          | some path =>
            cases hfile : s.st.fs.files[path]? with
            | none => simp only [hpath, hfile, run_pure]
            | some f =>
              obtain ⟨_ | ⟨v, cap⟩⟩ := f
              · simp only [hpath, hfile, run_pure]
              · exact absurd ⟨path, v, cap, hpath, hfile⟩ hdyn
        have hoff := hshaped.offsets _ _ hof
        rw [run_bind_of_ok _ hwrite, wadd_of_lt (show of.offset + 0 < 2 ^ 64 from hoff)] at h
        obtain ⟨rfl, rfl⟩ := EStateM.Result.ok.inj h
        refine .refused hshaped hne (by simp) ?_ (put_self hof) rfl rfl rfl
        intro ht
        cases ht with
        | socket _ _ hfd => exact hinet hfd
        | pipe of' pid' p hfd hof' hpid' =>
          obtain rfl := Option.some.inj (hof.symm.trans hof')
          rw [hpid] at hpid'
          cases hpid'
        | file of' path v cap hfd hof' hpid' hpath hfile =>
          obtain rfl := Option.some.inj (hof.symm.trans hof')
          exact hdyn ⟨path, v, cap, hpath, hfile⟩

end Write

/-! ## Section 4: One call -/

/-- Where a call reads from: the position of the descriptor, or what `offset` points to. -/
def read_pos (root : Nat) (s : St HeapAllocator Io) (fd : Int) (offset : Nat) : Option Nat :=
  if offset = 0 then (s.st.fd_table.get (ofIsize fd)).map OpenFile.offset
  else ((machine root).loads s.mem (user offset) 8).map leNat

/-- A call that returned `r` has advanced by that many bytes, which have arrived at
    the destination; with a position of its own it leaves that of the descriptor. -/
structure SendRight (env : Env) (root : Nat) (s t : St HeapAllocator Io) (out fd : Int) (offset : Nat)
    (data : List UInt8) (r : Int) : Prop where
  advances : read_pos root t fd offset = (read_pos root s fd offset).map (· + r.toNat)
  untouched : offset ≠ 0 → t.st.fd_table.get (ofIsize fd) = s.st.fd_table.get (ofIsize fd)
  arrives : ∀ pos, read_pos root s fd offset = some pos →
    s.st.Arrives env t.st (ofIsize out) ((data.drop pos).take r.toNat)

/-- Nothing is left to read, or `offset` is null and the destination, which is not
    the source, has room for all that is read. -/
def SendCond (env : Env) (io : Io) (out fd : Int) (offset : Nat) (of : OpenFile) (data : List UInt8) (count : Nat) :
    Prop :=
  sendable of data count = 0 ∨
    offset = 0 ∧ ofIsize out ≠ ofIsize fd ∧ io.Takes env (ofIsize out) (sendable of data count)

section Call

variable {root : Nat} {s t : St HeapAllocator Io} {env : Env} {out fd r : Int} {of : OpenFile} {data : List UInt8}
  {count offset : Nat}

theorem get_seeked_ne {io : Io} {fd fd' : Nat} (hne : fd' ≠ fd) (of : OpenFile) (o : Nat) :
    (io.seeked fd of o).fd_table.get fd' = io.fd_table.get fd' := by
  rw [Io.seeked, FdTable.get_put, if_neg (fun h => hne h.1)]

/-- Another descriptor does not see the position of the source. -/
theorem stream_seeked {io : Io} {fd fd' : Nat} (hne : fd' ≠ fd) (of : OpenFile) (o : Nat) :
    (io.seeked fd of o).stream fd' = io.stream fd' := by
  unfold Io.stream
  rw [get_seeked_ne hne]
  rfl

theorem takes_seeked {io : Io} {fd fd' n : Nat} (hne : fd' ≠ fd) (of : OpenFile) (o : Nat) :
    (io.seeked fd of o).Takes env fd' n ↔ io.Takes env fd' n := by
  have hget : (io.seeked fd of o).fd_table.get fd' = io.fd_table.get fd' := get_seeked_ne hne of o
  constructor
  · intro h
    cases h with
    | socket handle socket hfd hhandle hsocket hsend hroom => exact .socket handle socket hfd hhandle hsocket hsend hroom
    | pipe of' pid p hfd hof hpid hpipe hroom => exact .pipe of' pid p hfd (hget ▸ hof) hpid hpipe hroom
    | file of' path v cap hfd hof hpid hpath hfile => exact .file of' path v cap hfd (hget ▸ hof) hpid hpath hfile
  · intro h
    cases h with
    | socket handle socket hfd hhandle hsocket hsend hroom => exact .socket handle socket hfd hhandle hsocket hsend hroom
    | pipe of' pid p hfd hof hpid hpipe hroom => exact .pipe of' pid p hfd (hget.trans hof) hpid hpipe hroom
    | file of' path v cap hfd hof hpid hpath hfile => exact .file of' path v cap hfd (hget.trans hof) hpid hpath hfile

theorem arrives_seeked {io io' : Io} {fd fd' o : Nat} {of : OpenFile} {bs : List UInt8} (hne : fd' ≠ fd) :
    (io.seeked fd of o).Arrives env io' fd' bs ↔ io.Arrives env io' fd' bs := by
  have hoffered : ((io.seeked fd of o).offered env io').stream fd' = (io.offered env io').stream fd' := by
    unfold Io.offered
    split
    · next h => rw [if_pos (show io'.polls = io.polls from h), stream_seeked hne]
    · next h =>
      have hcomm : (io.seeked fd of o).polled env = (io.polled env).seeked fd of o := rfl
      rw [if_neg (show ¬ io'.polls = io.polls from h), hcomm, stream_seeked hne]
  rw [Io.Arrives, Io.Arrives, hoffered]

theorem shaped_seeked {io : Io} {fd o : Nat} (h : io.Shaped) (of : OpenFile) (ho : o < 2 ^ 64) :
    (io.seeked fd of o).Shaped := by
  refine ⟨?_, h.pipes⟩
  intro fd' of' hget
  rw [Io.seeked, FdTable.get_put] at hget
  split at hget
  · obtain rfl := Option.some.inj hget
    exact ho
  · exact h.offsets fd' of' hget

/-- **Both halves of a call** that returns: nothing was left to read, or the position
    has moved past the bytes that were read, and these were written. -/
theorem sendfile_effect (hok : s.heap.Ok) (hshaped : s.st.Shaped) (hsrc : s.st.Source (ofIsize fd) of data)
    (hout : out ≠ 1 ∧ out ≠ 2) (hrun : run (machine root) (sys_sendfile env out fd count) s = .ok r t) :
    (sendable of data count = 0 ∧ r = 0 ∧ t.st = s.st ∧ Drawn s t) ∨
    (0 < sendable of data count ∧ of.offset + sendable of data count < 2 ^ 64 ∧
      WriteEffect env (s.st.seeked (ofIsize fd) of (of.offset + sendable of data count)) t.st (ofIsize out)
        (chunk of data count) r) := by
  have hoff := hshaped.offsets _ _ hsrc.get
  obtain ⟨hpos, hroom⟩ := room_of_sendfile hsrc hoff hok hrun
  obtain ⟨a, s1, hdraw, -, hst, hbuf, heq⟩ := run_sendfile root env hsrc hpos hok hroom out
  rw [hrun] at heq
  have hsize := hsrc.size
  have hsend : sendable of data count ≤ data.length - of.offset := Nat.min_le_right _ _
  have hlen := length_chunk of data count
  by_cases hzero : sendable of data count = 0
  · left
    rw [if_pos hzero] at heq
    obtain ⟨rfl, rfl⟩ := EStateM.Result.ok.inj heq
    refine ⟨hzero, rfl, ?_, hdraw⟩
    rw [hst, hzero, Nat.add_zero, Io.seeked]
    show { s.st with fd_table := s.st.fd_table.put (ofIsize fd) of } = s.st
    rw [put_self hsrc.get]
  · right
    rw [if_neg hzero] at heq
    refine ⟨Nat.pos_of_ne_zero hzero, by omega, ?_⟩
    rw [← hst]
    apply run_write_effect _ hdraw.ok hout hbuf _ (by omega) heq.symm
    · rw [hst]
      exact shaped_seeked hshaped of (by omega)
    · intro hnil
      rw [hnil] at hlen
      exact hzero hlen.symm

/-- A call that meets the condition advances the descriptor by what it returns, and
    these bytes have arrived. -/
theorem send_advances (hok : s.heap.Ok) (hshaped : s.st.Shaped) (hsrc : s.st.Source (ofIsize fd) of data)
    (hout : out ≠ 1 ∧ out ≠ 2) (hrun : run (machine root) (sys_sendfile env out fd count) s = .ok r t)
    (hcond : SendCond env s.st out fd offset of data count) :
    t.st.fd_table.get (ofIsize fd) = some { of with offset := of.offset + r.toNat } ∧
      s.st.Arrives env t.st (ofIsize out) ((data.drop of.offset).take r.toNat) := by
  rcases sendfile_effect hok hshaped hsrc hout hrun with ⟨-, rfl, hst, -⟩ | ⟨hpos, -, heffect⟩
  · rw [hst, Io.Arrives, Io.offered, if_pos rfl]
    exact ⟨hsrc.get, by simp⟩
  · obtain ⟨-, hne, htakes⟩ := hcond.resolve_left (by omega)
    have hlen := length_chunk of data count
    have htakes' : (s.st.seeked (ofIsize fd) of (of.offset + sendable of data count)).Takes env (ofIsize out)
        (chunk of data count).length := by
      rw [hlen, takes_seeked hne]
      exact htakes
    -- all that was read has been taken, and no other position has moved
    have hr : r = sendable of data count := hlen ▸ heffect.full.mpr htakes'
    obtain ⟨k, hk, hother, -⟩ := heffect.fds _ _ (get_seeked hsrc.get _)
    rw [hr, Int.toNat_natCast]
    constructor
    · rw [hk, hother hne.symm]
      rfl
    · show s.st.Arrives env t.st (ofIsize out) (chunk of data count)
      rw [← arrives_seeked hne]
      exact heffect.arrives htakes'

/-- **A call is right** if and only if it reads nothing, or `offset` is null and the
    destination takes all of it. -/
theorem send_right_iff (hok : s.heap.Ok) (hshaped : s.st.Shaped) (hsrc : s.st.Source (ofIsize fd) of data)
    (hout : out ≠ 1 ∧ out ≠ 2) (hptr : offset ≠ 0 → ∃ bs, bs.length = 8 ∧ Holds root s (user offset) bs)
    (hrun : run (machine root) (sys_sendfile env out fd count) s = .ok r t) :
    SendRight env root s t out fd offset data r ↔ SendCond env s.st out fd offset of data count := by
  have hnull : offset = 0 → read_pos root s fd offset = some of.offset := by
    intro h
    rw [read_pos, if_pos h, hsrc.get]
    rfl
  have heffects := sendfile_effect hok hshaped hsrc hout hrun
  constructor
  · intro hright
    rcases heffects with ⟨hzero, -⟩ | ⟨hpos, -, heffect⟩
    · exact Or.inl hzero
    right
    -- the position has moved by what was read, and perhaps by what was written
    obtain ⟨k, hk, hother, hself⟩ := heffect.fds _ _ (get_seeked hsrc.get _)
    have hzero : offset = 0 := by
      by_contra h
      have huntouched := hright.untouched h
      rw [hk, hsrc.get] at huntouched
      have := congrArg OpenFile.offset (Option.some.inj huntouched)
      dsimp only at this
      omega
    have hadvances := hright.advances
    rw [hnull hzero, read_pos, if_pos hzero, hk] at hadvances
    have hsum : of.offset + sendable of data count + k = of.offset + r.toNat := Option.some.inj hadvances
    have hne : ofIsize out ≠ ofIsize fd := by
      intro h
      have hplain : s.st.fake_fds[ofIsize out]? ≠ some .InetSocket := by
        rw [h, hsrc.fake]
        simp
      have := hself h.symm hsrc.pipe_id hplain
      omega
    refine ⟨hzero, hne, ?_⟩
    have hkz := hother hne.symm
    have hfull := heffect.full
    rw [length_chunk, takes_seeked hne] at hfull
    exact hfull.mp (by omega)
  · intro hcond
    by_cases hzero : offset = 0
    · obtain ⟨hget, harrives⟩ := send_advances hok hshaped hsrc hout hrun hcond
      refine ⟨?_, fun h => absurd hzero h, ?_⟩
      · rw [hnull hzero, read_pos, if_pos hzero, hget]
        rfl
      · intro pos hpos
        rw [hnull hzero] at hpos
        obtain rfl := Option.some.inj hpos
        exact harrives
    · -- with a pointer nothing was read, and what it points to is as it was
      have hnone : sendable of data count = 0 := hcond.resolve_right fun h => hzero h.1
      obtain ⟨-, rfl, hst, hdraw⟩ := heffects.resolve_right fun h => by omega
      obtain ⟨bs, hlen, hbs⟩ := hptr hzero
      have hbefore := hbs s.mem (fun _ _ => rfl)
      have hafter := hbs t.mem hdraw.mem
      rw [hlen] at hbefore hafter
      refine ⟨?_, fun _ => by rw [hst], ?_⟩
      · rw [read_pos, read_pos, if_neg hzero, if_neg hzero, hbefore, hafter]
        simp
      · intro pos _
        rw [hst, Io.Arrives, Io.offered, if_pos rfl]
        simp

/-- Such a call leaves the bytes of the source, unless the destination is the same file. -/
theorem send_source (hok : s.heap.Ok) (hshaped : s.st.Shaped) (hsrc : s.st.Source (ofIsize fd) of data)
    (hout : out ≠ 1 ∧ out ≠ 2) (hrun : run (machine root) (sys_sendfile env out fd count) s = .ok r t)
    (hcond : SendCond env s.st out fd offset of data count)
    (hfile : ∀ of', s.st.fd_table.get (ofIsize out) = some of' →
      s.st.fs.inode_map[of'.inode]? ≠ s.st.fs.inode_map[of.inode]?) :
    t.st.Source (ofIsize fd) { of with offset := of.offset + r.toNat } data ∧ t.st.Shaped := by
  have hget := (send_advances hok hshaped hsrc hout hrun hcond).1
  rcases sendfile_effect hok hshaped hsrc hout hrun with ⟨-, rfl, hst, -⟩ | ⟨hpos, -, heffect⟩
  · rw [hst]
    exact ⟨hsrc, hshaped⟩
  · obtain ⟨-, hne, -⟩ := hcond.resolve_left (by omega)
    refine ⟨⟨hget, hsrc.pipe_id, hsrc.inode, ?_, ?_, hsrc.size⟩, heffect.shaped⟩
    · rw [heffect.fake]
      exact hsrc.fake
    · obtain ⟨f, hf, hdata⟩ := hsrc.file
      obtain ⟨path, hpath, hff⟩ := Option.bind_eq_some_iff.mp hf
      refine ⟨f, ?_, hdata⟩
      have hkept : t.st.fs.files[path]? = some f := by
        apply heffect.files path f hff
        intro of' hof'
        rw [get_seeked_ne hne] at hof'
        rw [← hpath]
        exact hfile of' hof'
      show t.st.fs.file of.inode = some f
      rw [Fs.file, heffect.inodes]
      show s.st.fs.inode_map[of.inode]?.bind _ = _
      rw [hpath, Option.bind_some, hkept]

end Call

/-! ## Section 5: Sequences of calls -/

/-- A sequence of calls from the descriptor `fd` that meet the condition, to other
    files, pipes and sockets: the bytes that have arrived so far and the sum of the
    results.  Between the calls the statics may change in any way that keeps the
    source: readers drain pipes, the network stack drains sockets. -/
inductive Sent (env : Env) (fd : Int) (data : List UInt8) (io0 : Io) : List UInt8 → Nat → Io → Prop where
  | start : Sent env fd data io0 [] 0 io0
  | other {bs : List UInt8} {n : Nat} {io io' : Io} (h : Sent env fd data io0 bs n io)
      (hkeep : ∀ of, io.Source (ofIsize fd) of data → io'.Source (ofIsize fd) of data) (hshaped : io'.Shaped) :
      Sent env fd data io0 bs n io'
  | send {bs bs' : List UInt8} {n root offset count : Nat} {s t : St HeapAllocator Io} {out r : Int} {of : OpenFile}
      (h : Sent env fd data io0 bs n s.st) (hok : s.heap.Ok) (hout : out ≠ 1 ∧ out ≠ 2)
      (hsrc : s.st.Source (ofIsize fd) of data)
      (hrun : run (machine root) (sys_sendfile env out fd count) s = .ok r t)
      (hcond : SendCond env s.st out fd offset of data count)
      (hfile : ∀ of', s.st.fd_table.get (ofIsize out) = some of' →
        s.st.fs.inode_map[of'.inode]? ≠ s.st.fs.inode_map[of.inode]?)
      (harrives : s.st.Arrives env t.st (ofIsize out) bs') : Sent env fd data io0 (bs ++ bs') (n + r.toNat) t.st

/-- What arrives is determined. -/
theorem Io.Arrives.unique {env : Env} {io io' : Io} {out : Nat} {bs bs' : List UInt8} (h : io.Arrives env io' out bs)
    (h' : io.Arrives env io' out bs') : bs = bs' :=
  List.append_cancel_left (h.symm.trans h')

/-- The run lemma: the position is the start plus the sum of the results, and what lies
    between has arrived. -/
theorem Sent.arrived {env : Env} {fd : Int} {data bs : List UInt8} {io0 io : Io} {n : Nat} {of0 : OpenFile}
    (h : Sent env fd data io0 bs n io) (hsrc0 : io0.Source (ofIsize fd) of0 data) (hshaped0 : io0.Shaped) :
    io.Source (ofIsize fd) { of0 with offset := of0.offset + n } data ∧ io.Shaped ∧
      bs = (data.drop of0.offset).take n := by
  induction h with
  | start => exact ⟨hsrc0, hshaped0, by simp⟩
  | other h hkeep hshaped ih => exact ⟨hkeep _ ih.1, hshaped, ih.2.2⟩
  | @send bs bs' n root offset count s t out r of h hok hout hsrc hrun hcond hfile harrives ih =>
    obtain ⟨hsrc', hshaped, hbs⟩ := ih
    obtain rfl : of = { of0 with offset := of0.offset + n } := Option.some.inj (hsrc.get.symm.trans hsrc'.get)
    obtain ⟨hnext, hshaped'⟩ := send_source hok hshaped hsrc hout hrun hcond hfile
    have hnew := harrives.unique (send_advances hok hshaped hsrc hout hrun hcond).2
    refine ⟨?_, hshaped', ?_⟩
    · rw [← Nat.add_assoc]
      exact hnext
    · rw [hbs, hnew, List.take_add, List.drop_drop]

/-- **Sending a file.**  A call that returns advances the read position by exactly
    its non-negative result, with these bytes arriving at the destination, if and
    only if nothing is left to read, or `offset` is null and the destination, which
    is not the source, has room for all that is read; and in every sequence of such
    calls to other files, pipes and sockets what has arrived are the bytes of the
    file between the first and the last position. -/
theorem sendfile_delivers (env : Env) :
    (∀ root s t out fd offset of data count r, s.heap.Ok → s.st.Shaped → s.st.Source (ofIsize fd) of data →
      (out ≠ 1 ∧ out ≠ 2) → (offset ≠ 0 → ∃ bs, bs.length = 8 ∧ Holds root s (user offset) bs) →
      run (machine root) (sys_sendfile env out fd count) s = .ok r t →
      (SendRight env root s t out fd offset data r ↔ SendCond env s.st out fd offset of data count)) ∧
    ∀ fd data io0 io1 of0 bs n, Sent env fd data io0 bs n io1 → io0.Source (ofIsize fd) of0 data → io0.Shaped →
      io1.Source (ofIsize fd) { of0 with offset := of0.offset + n } data ∧ bs = (data.drop of0.offset).take n := by
  constructor
  · intro root s t out fd offset of data count r hok hshaped hsrc hout hptr hrun
    exact send_right_iff hok hshaped hsrc hout hptr hrun
  · intro fd data io0 io1 of0 bs n h hsrc hshaped
    obtain ⟨hend, -, hbs⟩ := h.arrived hsrc hshaped
    exact ⟨hend, hbs⟩

/-! ### Two files opened at boot -/

/-- Descriptor 3 is open on the file with inode `i`, descriptor 4 on that with inode `j`. -/
def bootPair (i j : Nat) : Io := ((Io.boot Fs.noBlobs).opened i).opened j

/-- An `openat` after the first one gets descriptor 4. -/
theorem openat_pair {path : Path} {i j : Nat} (hlen : path.length < 2 ^ 64)
    (hstr : str_at (machine 1) (pathMem path) (user 0) path = true)
    (hpath : (Fs.init Fs.noBlobs).lookup path = some j) :
    IoStep .idle ((Io.boot Fs.noBlobs).opened i) (.openat path 4) (bootPair i j) := by
  generalize hio : (Io.boot Fs.noBlobs).opened i = io
  have hcstr : run (machine 1) (cstr (user 0)) ((IoLabel.openat path 4).start io) =
      .ok path ((IoLabel.openat path 4).start io) := run_cstr hlen hstr
  subst hio
  have hlook : ((IoLabel.openat path 4).start ((Io.boot Fs.noBlobs).opened i)).st.fs.lookup path = some j := hpath
  refine ⟨_, ⟨pathMem path, init_heap, bootPair i j⟩, rfl, ?_, rfl⟩
  show run (machine 1) (sys_openat (user 0) (toIsize 2)) _ = _
  unfold sys_openat
  rw [run_bind, hcstr]
  simp only [run_get_bind, hlook]
  rfl

theorem bootPair_shaped (i j : Nat) : (bootPair i j).Shaped where
  offsets := by
    intro fd of hget
    have hmem : some of ∈ (bootPair i j).fd_table.files := by
      exact List.mem_of_getElem? (Option.join_eq_some_iff.mp hget)
    have hzero : of.offset = 0 := by
      simp only [bootPair, Io.opened, Io.boot, Io.new, FdTable.new, List.mem_append, List.mem_cons, Option.some.injEq,
        List.not_mem_nil, or_false] at hmem
      rcases hmem with ((rfl | rfl | rfl) | rfl) | rfl <;> rfl
    omega
  pipes := by
    intro id p hp
    simp [bootPair, Io.opened, Io.boot, Io.new] at hp

theorem bootPair_source {i : Nat} (j : Nat) {f : File} (hfile : (Fs.init Fs.noBlobs).file i = some f)
    (hsize : f.as_slice.length < 2 ^ 63) :
    (bootPair i j).Source 3 ⟨i, 0, true, true, none⟩ f.as_slice where
  get := rfl
  pipe_id := rfl
  inode := by
    obtain ⟨path, hpath, -⟩ := Option.bind_eq_some_iff.mp hfile
    have hmem : i ∈ (Fs.init Fs.noBlobs).inode_map := Std.TreeMap.mem_iff_isSome_getElem?.mpr (by simp [hpath])
    have hpos := ((Fs.init_lawful Fs.noBlobs).numbered i).mp hmem
    show i ≠ 0
    omega
  fake := by simp [bootPair, Io.opened, Io.boot, Io.new]
  file := ⟨f, hfile, rfl⟩
  size := hsize

/-- One byte of `/proc/stat` is sent, if the heap has room for its copies. -/
theorem run_send_stat {i j cap : Nat} {d : Dest} (hfile : (Fs.init Fs.noBlobs).file i = some ⟨.Static procStat⟩)
    (hd : Denotes (bootPair i j) ⟨j, 0, true, true, none⟩ cap d) (hcost : d.cost cap 1 ≤ 2 ^ 24 - 2) (hends : d.Ends 1) :
    ∃ t, run (machine 1) (sys_sendfile .idle 4 3 1) ⟨onePage, init_heap, bootPair i j⟩ = .ok (d.put [99]).2 t ∧
      ∃ cap', (d.put [99]).1.At ((bootPair i j).seeked 3 ⟨i, 0, true, true, none⟩ 1) 4 ⟨j, 0, true, true, none⟩ cap'
        t.st := by
  have hsize : procStat.length = 25 := by decide +kernel
  have hchunk : chunk ⟨i, 0, true, true, none⟩ procStat 1 = [99] := by
    have hhead : procStat.take 1 = [99] := by decide +kernel
    rw [chunk, sendable, hsize]
    exact hhead
  have hone : sendable ⟨i, 0, true, true, none⟩ procStat 1 = 1 := by
    rw [← length_chunk, hchunk]
    rfl
  have hsrc : (bootPair i j).Source (ofIsize 3) ⟨i, 0, true, true, none⟩ procStat := bootPair_source j hfile
    (show procStat.length < 2 ^ 63 by omega)
  have hheap : init_heap.current + 2 * min 1 4096 ≤ init_heap.end_ := by decide
  generalize hs : (⟨onePage, init_heap, bootPair i j⟩ : St HeapAllocator Io) = s
  obtain ⟨a, s1, hdraw, hcur, hst, hbuf, hrun⟩ := run_sendfile 1 .idle
    (s := s) (by rw [← hs]; exact hsrc) (Nat.zero_le _) (by rw [← hs]; exact init_heap_ok) (by rw [← hs]; exact hheap) 4
  rw [hrun, hone, if_neg (by decide)]
  rw [hchunk] at hbuf ⊢
  rw [hone, ← hs] at hst
  -- the destination does not see the position of the source
  have hd' : Denotes s1.st ⟨j, 0, true, true, none⟩ cap d := by
    rw [hst]
    cases hd with
    | pipe pid p hpid hpipe => exact .pipe pid p hpid hpipe
    | static path bytes hpid hpath hfile => exact .static path bytes hpid hpath hfile
    | growing path v cap hpid hpath hfile => exact .growing path v cap hpid hpath hfile
  have hof : s1.st.fd_table.get (ofIsize 4) = some ⟨j, 0, true, true, none⟩ := by
    rw [hst]
    rfl
  have hplain : s1.st.fake_fds[ofIsize 4]? ≠ some .InetSocket := by
    rw [hst]
    simp [Io.seeked, bootPair, Io.opened, Io.boot, Io.new]
  have hroom : s1.heap.end_ - s1.heap.current = 2 ^ 24 - 2 := by
    rw [hcur, hdraw.ok.end_eq, ← hs]
    show 0x8700_0000 - (init_heap.current + 2 * min 1 4096) = 2 ^ 24 - 2
    decide
  have hsame : Drawn s1 s1 := ⟨hdraw.ok, rfl, Nat.le_refl _, fun _ _ => rfl⟩
  have hat := hd'.at hof (show 0 < 2 ^ 64 by decide)
  rw [← hroom] at hcost
  obtain ⟨t, hwrite, -, hat', -⟩ : ∃ t, run (machine 1) (sys_write .idle 4 ⟨a, true⟩ [(99 : UInt8)].length) s1 =
      .ok (d.put [99]).2 t ∧ _ := run_write_dest (by decide) hof hplain hsame hat hbuf (by decide) hcost hends
  rw [hst] at hat'
  exact ⟨t, hwrite, _, hat'⟩

/-- The first byte of `/proc/stat` goes to the log. -/
theorem sendfile_delivers_log : ∃ i j t,
    run (machine 1) (sys_sendfile .idle 4 3 1) ⟨onePage, init_heap, bootPair i j⟩ = .ok 1 t ∧
      SendRight .idle 1 ⟨onePage, init_heap, bootPair i j⟩ t 4 3 0 procStat 1 ∧
      Sent .idle 3 procStat (bootPair i j) [99] 1 t.st ∧
      t.st.Source 3 ⟨i, 1, true, true, none⟩ procStat := by
  obtain ⟨i, -, hfile⟩ := boot_stat
  obtain ⟨j, -, hpath, hlog⟩ := boot_log
  have hsize : procStat.length = 25 := by decide +kernel
  have hhead : procStat.take 1 = [99] := by decide +kernel
  have hd : Denotes (bootPair i j) ⟨j, 0, true, true, none⟩ 0 (.growing [] 0) := .growing errorLog [] 0 rfl hpath hlog
  have hcost : Dest.cost 0 1 (.growing [] 0) ≤ 2 ^ 24 - 2 := by decide
  have hends : Dest.Ends 1 (.growing [] 0) := show 0 + 1 < 2 ^ 64 by decide
  obtain ⟨t, hrun, -⟩ := run_send_stat hfile hd hcost hends
  have hrun : run (machine 1) (sys_sendfile .idle 4 3 1) ⟨onePage, init_heap, bootPair i j⟩ = .ok 1 t := hrun
  have hsrc : (bootPair i j).Source (ofIsize 3) ⟨i, 0, true, true, none⟩ procStat := bootPair_source j hfile
    (show procStat.length < 2 ^ 63 by omega)
  have hcond : SendCond .idle (bootPair i j) 4 3 0 ⟨i, 0, true, true, none⟩ procStat 1 := by
    refine Or.inr ⟨rfl, by decide, .file ⟨j, 0, true, true, none⟩ errorLog [] 0 ?_ rfl rfl hpath hlog⟩
    simp [bootPair, Io.opened, Io.boot, Io.new]
  have hright := ((sendfile_delivers .idle).1 1 _ t 4 3 0 _ procStat 1 1 init_heap_ok (bootPair_shaped i j) hsrc
    (by decide) (fun h => absurd rfl h) hrun).mpr hcond
  have hsent : Sent .idle 3 procStat (bootPair i j) ([] ++ [99]) (0 + 1) t.st := by
    refine .send (s := ⟨onePage, init_heap, bootPair i j⟩) .start init_heap_ok (by decide) hsrc hrun hcond ?_ ?_
    · -- the log grows, and `/proc/stat` is embedded
      intro of' hget hsame
      obtain rfl : (⟨j, 0, true, true, none⟩ : OpenFile) = of' := Option.some.inj hget
      have hembedded : (Fs.init Fs.noBlobs).file j = some ⟨.Static procStat⟩ := by
        rw [Fs.file, show (Fs.init Fs.noBlobs).inode_map[j]? = _ from hsame]
        exact hfile
      rw [Fs.file, hpath, Option.bind_some, hlog] at hembedded
      cases hembedded
    · exact hhead ▸ hright.arrives 0 rfl
  have hend := ((sendfile_delivers .idle).2 3 procStat _ _ _ _ _ hsent hsrc (bootPair_shaped i j)).1
  exact ⟨i, j, t, hrun, hright, hsent, hend⟩

/-- **Counterexample**: `/proc/stat` is opened twice, and one byte is sent from one
    descriptor to the other.  Embedded files take no bytes, and the result is 0, but
    the position of the source is 1. -/
theorem sendfile_skips_byte : ∃ i t,
    IoStep .idle (Io.boot Fs.noBlobs) (.openat (utf8 "/proc/stat") 3) ((Io.boot Fs.noBlobs).opened i) ∧
      IoStep .idle ((Io.boot Fs.noBlobs).opened i) (.openat (utf8 "/proc/stat") 4) (bootPair i i) ∧
      run (machine 1) (sys_sendfile .idle 4 3 1) ⟨onePage, init_heap, bootPair i i⟩ = .ok 0 t ∧
      ((bootPair i i).fd_table.get 3).map OpenFile.offset = some 0 ∧
      (t.st.fd_table.get 3).map OpenFile.offset = some 1 ∧
      ¬ SendRight .idle 1 ⟨onePage, init_heap, bootPair i i⟩ t 4 3 0 procStat 0 := by
  obtain ⟨i, hlook, hfile⟩ := boot_stat
  have hlen : (utf8 "/proc/stat").length < 2 ^ 64 := by decide +kernel
  have hstr : str_at (machine 1) (pathMem (utf8 "/proc/stat")) (user 0) (utf8 "/proc/stat") = true := by
    decide +kernel
  obtain ⟨path, hpath, hstat⟩ := Option.bind_eq_some_iff.mp hfile
  have hd : Denotes (bootPair i i) ⟨i, 0, true, true, none⟩ 0 (.static 0) := .static path procStat rfl hpath hstat
  obtain ⟨t, hrun, cap, hat⟩ := run_send_stat hfile hd (by decide) trivial
  have hpos : (t.st.fd_table.get 3).map OpenFile.offset = some 1 := by
    cases hat with
    | static _ _ _ _ _ hpid hoff hfds =>
      rw [hfds]
      rfl
  refine ⟨i, t, openat_boot Fs.noBlobs hlen hstr hlook, openat_pair hlen hstr hlook, hrun, rfl, hpos, ?_⟩
  intro hright
  have hadv : (t.st.fd_table.get 3).map OpenFile.offset = some 0 := hright.advances
  rw [hpos] at hadv
  cases hadv

end Rvos

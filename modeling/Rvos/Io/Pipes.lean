import Mathlib.Data.List.DropRight
import Rvos.Kernel.State
import Rvos.Lib.Fifo
import Rvos.Lib.Run

/-! # Pipes as queues

    The ring buffer of a pipe holds a queue of at most 4095 bytes
    (`PipeInner.contents`); `write` appends to it and `read` takes from its
    front.  Over any interleaving of writers and a reader, what was accepted is
    what was collected followed by what is still in the buffer.

    End of file is another matter: nothing ever sets `write_closed`, and a
    read of an empty pipe returns 0 at once, whether or not a writer is left.
    `read_zero_with_writer` is such a run; `pipe_read_complete` is what holds
    when the reader only reads while there are bytes or no writer is left. -/

namespace Rvos

open Access ByteMem Usize

/-! ## Section 1: The queue in the ring buffer -/

/-- The shape of a pipe that is in use. -/
structure PipeInner.Ok (p : PipeInner) : Prop where
  len : p.buf.length = 4096
  head : p.head < 4096
  tail : p.tail < 4096
  reader : p.read_closed = false

/-- How many bytes the pipe holds. -/
def PipeInner.size (p : PipeInner) : Nat := (p.tail + 4096 - p.head) % 4096

/-- The bytes the pipe holds, oldest first. -/
def PipeInner.contents (p : PipeInner) : List UInt8 :=
  (List.range p.size).map fun i => p.buf.getD ((p.head + i) % 4096) 0

theorem PipeInner.new_ok : PipeInner.new.Ok where
  len := List.length_replicate
  head := Nat.zero_lt_succ _
  tail := Nat.zero_lt_succ _
  reader := rfl

theorem PipeInner.new_contents : PipeInner.new.contents = [] := by
  have hsize : PipeInner.new.size = 0 := rfl
  rw [PipeInner.contents, hsize]
  rfl

namespace PipeInner

variable {p : PipeInner}

theorem length_contents (p : PipeInner) : p.contents.length = p.size := by simp [contents]

/-- One byte is stored at the tail. -/
theorem Ok.push_one (h : p.Ok) (hroom : (p.tail + 1) % p.buf.length ≠ p.head) (b : UInt8) :
    let p' := { p with buf := p.buf.set p.tail b, tail := (p.tail + 1) % p.buf.length }
    p'.Ok ∧ p'.contents = p.contents ++ [b] := by
  obtain ⟨hlen, hhead, htail, hreader⟩ := h
  rw [hlen] at hroom ⊢
  refine ⟨⟨by simp [hlen], hhead, Nat.mod_lt _ (by norm_num), hreader⟩, ?_⟩
  have hsize : ((p.tail + 1) % 4096 + 4096 - p.head) % 4096 = p.size + 1 := by
    unfold size
    omega
  simp only [contents, size, hsize] at *
  rw [List.range_succ, List.map_append, List.map_singleton]
  congr 1
  · refine List.map_congr_left fun i hi => ?_
    -- the older bytes lie elsewhere
    have hi' := List.mem_range.mp hi
    have hne : p.tail ≠ (p.head + i) % 4096 := by omega
    rw [List.getD_eq_getElem?_getD, List.getD_eq_getElem?_getD, List.getElem?_set_ne hne]
  · have hat : (p.head + (p.tail + 4096 - p.head) % 4096) % 4096 = p.tail := by omega
    rw [hat, List.getD_eq_getElem?_getD, List.getElem?_set_self (by omega)]
    rfl

/-- **`write`** appends as many bytes as there is room for. -/
theorem Ok.push (h : p.Ok) (bs : List UInt8) :
    (p.push bs).1.Ok ∧ (p.push bs).2 ≤ bs.length ∧
      (p.push bs).1.contents = p.contents ++ bs.take (p.push bs).2 := by
  induction bs generalizing p with
  | nil => exact ⟨h, Nat.le_refl _, by simp [PipeInner.push]⟩
  | cons b bs ih =>
    unfold PipeInner.push
    by_cases hfull : (p.tail + 1) % p.buf.length = p.head
    · simp [hfull, h]
    · obtain ⟨hok, hone⟩ := h.push_one hfull b
      obtain ⟨hok', hle, hrest⟩ := ih hok
      simp only [hfull, if_false]
      refine ⟨hok', by simpa using hle, ?_⟩
      rw [hrest, hone]
      simp

theorem Ok.size_lt (p : PipeInner) : p.size < 4096 := Nat.mod_lt _ (by norm_num)

/-- The buffer is full with 4095 bytes. -/
theorem Ok.full_iff (h : p.Ok) : (p.tail + 1) % p.buf.length = p.head ↔ p.size = 4095 := by
  obtain ⟨hlen, hhead, htail, -⟩ := h
  rw [hlen, size]
  omega

/-- How many bytes **`write`** accepts. -/
theorem Ok.push_count (h : p.Ok) (bs : List UInt8) : (p.push bs).2 = min bs.length (4095 - p.size) := by
  induction bs generalizing p with
  | nil => simp [PipeInner.push]
  | cons b bs ih =>
    unfold PipeInner.push
    by_cases hfull : (p.tail + 1) % p.buf.length = p.head
    · simp [hfull, h.full_iff.mp hfull]
    · obtain ⟨hok, hone⟩ := h.push_one hfull b
      have hgrown := congrArg List.length hone
      rw [length_contents, List.length_append, length_contents, List.length_singleton] at hgrown
      have hnot := h.full_iff.not.mp hfull
      have hlt := Ok.size_lt p
      simp only [hfull, if_false, ih hok, hgrown, List.length_cons]
      omega

/-- One byte is taken at the head. -/
theorem Ok.read_one (h : p.Ok) (hne : p.head ≠ p.tail) :
    let p' := { p with head := (p.head + 1) % p.buf.length }
    p'.Ok ∧ p.contents = p.buf.getD p.head 0 :: p'.contents := by
  obtain ⟨hlen, hhead, htail, hreader⟩ := h
  rw [hlen]
  refine ⟨⟨hlen, Nat.mod_lt _ (by norm_num), htail, hreader⟩, ?_⟩
  have hsize : (p.tail + 4096 - p.head) % 4096 =
      (p.tail + 4096 - (p.head + 1) % 4096) % 4096 + 1 := by omega
  simp only [contents, size, hsize]
  rw [List.range_succ_eq_map, List.map_cons, List.map_map]
  congr 1
  · rw [Nat.add_zero, Nat.mod_eq_of_lt hhead]
  · refine List.map_congr_left fun i _ => ?_
    simp only [Function.comp]
    congr 1
    omega

/-- **`read`** takes bytes from the front; none only if there are none or none
    were asked for. -/
theorem Ok.read (h : p.Ok) (n : Nat) :
    (p.read n).1.Ok ∧ p.contents = (p.read n).2 ++ (p.read n).1.contents ∧
      ((p.read n).2 = [] → n = 0 ∨ p.contents = []) := by
  induction n generalizing p with
  | zero => exact ⟨h, by simp [PipeInner.read], fun _ => Or.inl rfl⟩
  | succ n ih =>
    unfold PipeInner.read
    by_cases hempty : p.head = p.tail
    · have hzero : p.contents = [] := by simp [contents, size, hempty]
      simp [hempty, h, hzero]
    · obtain ⟨hok, hone⟩ := h.read_one hempty
      obtain ⟨hok', hrest, -⟩ := ih hok
      simp only [hempty, if_false]
      refine ⟨hok', ?_, by simp⟩
      rw [hone, hrest]
      simp

/-- Which bytes **`read`** returns. -/
theorem Ok.read_eq (h : p.Ok) (n : Nat) : (p.read n).2 = p.contents.take n := by
  induction n generalizing p with
  | zero => rfl
  | succ n ih =>
    unfold PipeInner.read
    by_cases hempty : p.head = p.tail
    · have hzero : p.contents = [] := by simp [contents, size, hempty]
      simp [hempty, hzero]
    · obtain ⟨hok, hone⟩ := h.read_one hempty
      simp only [hempty, if_false, ih hok]
      rw [hone, List.take_succ_cons]

/-! ### All sequences of calls -/

/-- `write` and `read` as the calls of a queue. -/
def call (p : PipeInner) : Fifo.Call UInt8 → PipeInner × Fifo.Answer UInt8
  | .put data => ((p.write data).1, .accepted (p.write data).2)
  | .take n => ((p.read n).1, .given (p.read n).2)

/-- The pipe holds what the queue of capacity 4095 holds. -/
def Holds (p : PipeInner) (q : Fifo.Queue UInt8 4095) : Prop := p.Ok ∧ p.contents = q.items

theorem Ok.write_eq (h : p.Ok) (data : List UInt8) : p.write data = p.push data := by
  simp [PipeInner.write, h.reader]

/-- Each call is answered as the queue answers it. -/
theorem call_refines : Fifo.Refines PipeInner.call Holds where
  answer := by
    intro p q c hq
    obtain ⟨hok, hcont⟩ := hq
    cases c with
    | put data =>
      have hcount := hok.push_count data
      rw [← length_contents, hcont] at hcount
      simp only [call, hok.write_eq, hcount, Fifo.Queue.call, Fifo.Queue.room]
    | take n => simp only [call, hok.read_eq, hcont, Fifo.Queue.call]
  next := by
    intro p q c hq
    obtain ⟨hok, hcont⟩ := hq
    cases c with
    | put data =>
      obtain ⟨hok', -, happend⟩ := hok.push data
      refine ⟨by simpa only [call, hok.write_eq] using hok', ?_⟩
      simp only [call, hok.write_eq, happend, hok.push_count, Fifo.Queue.call, Fifo.Queue.put,
        Fifo.Queue.room, ← hcont, length_contents]
      rw [Nat.min_comm, ← List.take_eq_take_min]
    | take n =>
      obtain ⟨hok', hsplit, -⟩ := hok.read n
      refine ⟨hok', ?_⟩
      -- what is left is what follows the bytes that were read
      rw [hok.read_eq] at hsplit
      have hdrop : p.contents.take n ++ p.contents.drop n =
          p.contents.take n ++ (p.read n).1.contents := by rw [List.take_append_drop, ← hsplit]
      have hleft := List.append_cancel_left hdrop
      simp only [call, Fifo.Queue.call, Fifo.Queue.take, ← hcont, hleft]

/-- **The pipe is a queue.**  After any sequence of writes and reads of a new pipe:
    each call was answered as a queue of capacity 4095 answers it and the pipe
    holds what the queue holds; the indices are below 4096; everything read
    followed by what is queued is everything accepted; and the next write accepts
    the first `min(data.len(), 4095 - queued)` bytes, the next read returns the
    first `min(out.len(), queued)` queued ones. -/
theorem pipe_refines_queue (cs : List (Fifo.Call UInt8)) :
    let log := (Fifo.serve PipeInner.call .new cs).2
    let p := (Fifo.serve PipeInner.call .new cs).1
    let queue := Fifo.serve Fifo.Queue.call (Fifo.Queue.empty : Fifo.Queue UInt8 4095) cs
    log = queue.2 ∧ p.contents = queue.1.items ∧ p.head < 4096 ∧ p.tail < 4096 ∧
      Fifo.given log ++ p.contents = Fifo.accepted log ∧
      (∀ data, (p.write data).2 = min data.length (4095 - p.contents.length) ∧
        (p.write data).1.contents = p.contents ++ data.take (p.write data).2) ∧
      ∀ n, (p.read n).2.length = min n p.contents.length ∧
        (p.read n).2 ++ (p.read n).1.contents = p.contents := by
  intro log p queue
  have hnew : Holds .new Fifo.Queue.empty := ⟨new_ok, new_contents⟩
  obtain ⟨hlog, hok, hcont⟩ := call_refines.serve cs hnew
  have hlog : log = queue.2 := hlog
  have hacc := Fifo.Queue.account cs (Fifo.Queue.empty : Fifo.Queue UInt8 4095)
  refine ⟨hlog, hcont, hok.head, hok.tail, ?_, ?_, ?_⟩
  · rw [hcont, hlog]
    exact hacc.symm
  · intro data
    rw [hok.write_eq, length_contents]
    exact ⟨hok.push_count data, (hok.push data).2.2⟩
  · intro n
    refine ⟨by rw [hok.read_eq, List.length_take], (hok.read n).2.1.symm⟩

end PipeInner

/-! ## Section 2: Reading and writing a pipe -/

section Calls

variable {η : Type} {M : Machine η Halt} {s t : St η Io} {buf : Ptr} {n : Nat}

theorem run_copy_in {bs : List UInt8} (h : run M (copy_in buf n) s = .ok bs t) :
    t.st = s.st ∧ bs.length = n ∧ moved M false (copy_in buf n) s = bs := by
  unfold copy_in at h ⊢
  obtain ⟨a, s1, hvec, hload⟩ := (run_bind_ok M).mp h
  obtain ⟨hst, hmoved⟩ := run_vec_zeroed hvec
  obtain ⟨rfl, hlen, hbytes⟩ := run_loadBytes M hload
  refine ⟨hst, hlen, ?_⟩
  rw [moved_bind, hvec, hmoved]
  exact hbytes

/-- Writing to a pipe appends the bytes that are reported as accepted. -/
theorem run_write_pipe {id : Nat} {pipe : PipeInner} {r : Int} (hpipe : s.st.pipes[id]? = some pipe)
    (hok : pipe.Ok) (h : run M (write_pipe id buf n) s = .ok r t) :
    ∃ pipe', t.st = { s.st with pipes := s.st.pipes.insert id pipe' } ∧ pipe'.Ok ∧
      (moved M false (write_pipe id buf n) s).length = n ∧
      pipe'.contents = pipe.contents ++ (moved M false (write_pipe id buf n) s).take r.toNat := by
  unfold write_pipe at h ⊢
  simp only [run_bind, run_get, hpipe] at h
  simp only [moved_bind, run_get, hpipe]
  cases hcopy : run M (copy_in buf n) s with
  | error e u => simp [hcopy] at h
  | ok bs u =>
    obtain ⟨hst, hlen, hbytes⟩ := run_copy_in hcopy
    obtain ⟨hok', hle, hcont⟩ := hok.push bs
    have hwrite : pipe.write bs = pipe.push bs := by simp [PipeInner.write, hok.reader]
    simp only [hcopy, hwrite, run_modify, run_pure, EStateM.Result.ok.injEq] at h
    obtain ⟨rfl, rfl⟩ := h
    refine ⟨_, by rw [hst], hok', by simpa [hbytes, hwrite, moved_bind] using hlen, ?_⟩
    rw [hcont, Int.toNat_natCast]
    simp [hbytes, hwrite]

/-- Reading from a pipe delivers bytes from the front of the queue. -/
theorem run_read_pipe {id : Nat} {pipe : PipeInner} {r : Int} (hpipe : s.st.pipes[id]? = some pipe)
    (hok : pipe.Ok) (h : run M (read_pipe id buf n) s = .ok r t) :
    ∃ pipe', t.st = { s.st with pipes := s.st.pipes.insert id pipe' } ∧ pipe'.Ok ∧
      pipe.contents = moved M true (read_pipe id buf n) s ++ pipe'.contents ∧
      (r = 0 → n = 0 ∨ pipe.contents = []) := by
  unfold read_pipe at h ⊢
  simp only [run_bind, run_get, hpipe] at h
  simp only [moved_bind, run_get, hpipe]
  cases hvec : run M (vec_zeroed n) s with
  | error e u => simp [hvec] at h
  | ok a u =>
    obtain ⟨hst, hnone⟩ := run_vec_zeroed hvec
    obtain ⟨hok', hcont, hzero⟩ := hok.read n
    simp only [hvec, run_modify] at h
    cases hstore : run M (Code.storeBytes buf (pipe.read n).2)
        { u with st := { u.st with pipes := u.st.pipes.insert id (pipe.read n).1 } } with
    | error e v => simp [hstore] at h
    | ok _ v =>
      obtain ⟨hst', -, hmoved⟩ := run_storeBytes M hstore
      simp only [hstore, run_pure, EStateM.Result.ok.injEq] at h
      obtain ⟨rfl, rfl⟩ := h
      refine ⟨_, by rw [hst', hst], hok', ?_, ?_⟩
      · simpa [hnone, moved_bind, hstore, hmoved] using hcont
      · intro hr
        exact hzero (List.length_eq_zero_iff.mp (by simpa using hr))

theorem run_log_echo {fd : Int} (h : run M (log_echo fd buf n) s = .ok () t) : t = s := by
  unfold log_echo at h
  split at h
  · obtain ⟨bs, u, hload, hret⟩ := (run_bind_ok M).mp h
    cases hret
    exact (run_loadBytes M hload).1
  · cases h
    rfl

/-- `sys_write` to a descriptor of the table, after the echo of log files. -/
theorem run_sys_write {env : Env} {fd : Nat} {r : Int} (hlow : 3 ≤ fd) (hfd : fd < 2 ^ 63)
    (hfake : fd ∉ s.st.fake_fds) (h : run M (sys_write env fd buf n) s = .ok r t) :
    run M (write_open fd buf n) s = .ok r t ∧
      ∃ pre, moved M false (sys_write env fd buf n) s = pre ++ moved M false (write_open fd buf n) s := by
  have hstd : ¬ ((fd : Int) = 1 ∨ (fd : Int) = 2) := by omega
  have hof : ofIsize (fd : Int) = fd := ofIsize_natCast (by omega)
  have hnone : s.st.fake_fds[fd]? = none := Std.TreeMap.getElem?_eq_none hfake
  unfold sys_write at h ⊢
  simp only [hstd, if_false, hof] at h ⊢
  obtain ⟨_, u, hecho, hrest⟩ := (run_bind_ok M).mp h
  obtain rfl := run_log_echo hecho
  simp only [is_inet_socket, run_bind, run_get, run_pure, hnone] at hrest
  refine ⟨by simpa using hrest, moved M false (log_echo fd buf n) u, ?_⟩
  rw [moved_bind, hecho]
  simp [is_inet_socket, moved_bind, run_bind, hnone]

/-- `sys_read` from a pipe. -/
theorem run_sys_read {env : Env} {fd id : Nat} {of : OpenFile} (hfd : fd < 2 ^ 63)
    (hfake : fd ∉ s.st.fake_fds) (hof : s.st.fd_table.get fd = some of)
    (hid : of.pipe_id = some id) :
    run M (sys_read env fd buf n) s = run M (read_pipe id buf n) s ∧
      moved M true (sys_read env fd buf n) s = moved M true (read_pipe id buf n) s := by
  have hfd' : ofIsize (fd : Int) = fd := ofIsize_natCast (by omega)
  have hnone : s.st.fake_fds[fd]? = none := Std.TreeMap.getElem?_eq_none hfake
  have hstdin : s.st.is_stdin fd = false := by simp [Io.is_stdin, hof, hid]
  unfold sys_read read_open
  simp [run_bind, moved_bind, hfd', hnone, hstdin, hof, hid]

/-- `sys_close` of a descriptor of the table. -/
theorem run_sys_close {fd : Nat} (hlow : 3 ≤ fd) (hfd : fd < 2 ^ 63) (hfake : fd ∉ s.st.fake_fds) :
    run M (sys_close fd) s = .ok 0 { s with st := { s.st with fd_table := s.st.fd_table.close fd } } := by
  have hfd' : ofIsize (fd : Int) = fd := ofIsize_natCast (by omega)
  have hnone : s.st.fake_fds[fd]? = none := Std.TreeMap.getElem?_eq_none hfake
  have hcontains : s.st.fake_fds.contains fd = false :=
    Bool.eq_false_iff.mpr fun h => hfake (Std.TreeMap.mem_iff_contains.mpr h)
  have hstd : ¬ ((fd : Int) < 3 ∧ (fd : Int) ≥ 0) := by omega
  unfold sys_close
  rw [if_neg hstd]
  simp [is_inet_socket, is_fake_fd, run_bind, hfd', hnone, hcontains]

/-- The open file of a pipe's read or write end. -/
def pipe_end (id : Nat) (writable : Bool) : OpenFile :=
  { inode := 0, offset := 0, readable := !writable, writable := writable, pipe_id := some id }

/-- `sys_pipe2` fills two empty slots. -/
theorem run_sys_pipe2 {r : Int} (h : run M (sys_pipe2 buf) s = .ok r t) :
    ∃ i j, s.st.fd_table.get i = none ∧ s.st.fd_table.get j = none ∧ i ≠ j ∧
      t.st.pipes = s.st.pipes.insert s.st.next_pipe_id .new ∧
      ∀ fd, t.st.fd_table.get fd =
        if fd = j then some (pipe_end s.st.next_pipe_id true)
        else if fd = i then some (pipe_end s.st.next_pipe_id false)
        else s.st.fd_table.get fd := by
  unfold sys_pipe2 at h
  rw [run_get_bind] at h
  obtain ⟨_, u1, hvec, h⟩ := (run_bind_ok _).mp h
  obtain ⟨hu1, -⟩ := run_vec_zeroed hvec
  rw [run_modify_bind, run_get_bind] at h
  obtain ⟨⟨t1, i⟩, u2, halloc1, h⟩ := (run_bind_ok _).mp h
  obtain ⟨hu2, hfree1, hget1⟩ := FdTable.run_alloc halloc1
  rw [run_modify_bind, run_get_bind] at h
  obtain ⟨⟨t2, j⟩, u3, halloc2, h⟩ := (run_bind_ok _).mp h
  obtain ⟨hu3, hfree2, hget2⟩ := FdTable.run_alloc halloc2
  rw [run_modify_bind] at h
  obtain ⟨_, u4, hstore1, h⟩ := (run_bind_ok _).mp h
  obtain ⟨_, u5, hstore2, hret⟩ := (run_bind_ok _).mp h
  cases hret
  rw [(run_storeBytes _ hstore2).1, (run_storeBytes _ hstore1).1]
  simp only [hu1, hu2, hu3] at hfree1 hfree2 hget1 hget2 ⊢
  have hne : i ≠ j := fun hij => by simp [hget1, hij] at hfree2
  refine ⟨i, j, hfree1, ?_, hne, trivial, ?_⟩
  · rwa [hget1, if_neg (Ne.symm hne)] at hfree2
  · intro fd
    rw [hget2, hget1]
    rfl

end Calls

/-! ## Section 3: Writers and a reader -/

/-- The two descriptors that a `sys_pipe2` opened, and the pipe behind them. -/
structure PipeEnds where
  rfd : Nat
  wfd : Nat
  id : Nat

/-- The calls of writers and reader. -/
inductive PipeCall where
  | write (buf n : Nat)
  | close
  | read (buf n : Nat)

def PipeCall.code (env : Env) (e : PipeEnds) : PipeCall → IoM Int
  | .write buf n => sys_write env e.wfd ⟨buf, false⟩ n
  | .close => sys_close e.wfd
  | .read buf n => sys_read env e.rfd ⟨buf, false⟩ n

/-- The bytes the pipe holds. -/
def Io.pipe_contents (io : Io) (id : Nat) : List UInt8 :=
  match io.pipes[id]? with
  | some p => p.contents
  | none => []

/-- Some descriptor for the write end is open. -/
def WriterOpen (io : Io) (id : Nat) : Prop :=
  ∃ fd of, io.fd_table.get fd = some of ∧ of.pipe_id = some id ∧ of.writable = true

/-- The kernel's data behind pipes, and what has passed through so far. -/
structure PipeState where
  heap : HeapAllocator
  io : Io
  accepted : List UInt8
  collected : List UInt8

/-- A call, the address space and memory it is made in, and its result. -/
structure PipeLabel where
  root : Nat
  mem : Mem
  call : PipeCall
  ret : Int

/-- The bytes accepted from a writer: the last `n` loaded from its buffer (the
    echo of log files may have loaded them before), up to the result. -/
def PipeLabel.accepts (env : Env) (e : PipeEnds) (s : PipeState) (l : PipeLabel) : List UInt8 :=
  match l.call with
  | .write _ n =>
    ((moved (machine l.root) false (l.call.code env e) ⟨l.mem, s.heap, s.io⟩).rtake n).take l.ret.toNat
  | _ => []

/-- The bytes a reader collects: those stored to its buffer. -/
def PipeLabel.collects (env : Env) (e : PipeEnds) (s : PipeState) (l : PipeLabel) : List UInt8 :=
  match l.call with
  | .read _ _ => moved (machine l.root) true (l.call.code env e) ⟨l.mem, s.heap, s.io⟩
  | _ => []

/-- One call, by any process: between calls memory and address space are arbitrary. -/
def PipeStep (env : Env) (e : PipeEnds) (s : PipeState) (l : PipeLabel) (t : PipeState) : Prop :=
  (∀ buf n, l.call = .read buf n → 0 < n) ∧
  (∃ mem', run (machine l.root) (l.call.code env e) ⟨l.mem, s.heap, s.io⟩ =
    .ok l.ret ⟨mem', t.heap, t.io⟩) ∧
  t.accepted = s.accepted ++ l.accepts env e s ∧
  t.collected = s.collected ++ l.collects env e s

/-- The condition: the descriptor is not also one of `FAKE_FDS`, and a read is
    issued only when there are bytes or no writer is left. -/
def PipeCond (e : PipeEnds) (s : PipeState) (l : PipeLabel) : Prop :=
  match l.call with
  | .write _ _ | .close => e.wfd ∉ s.io.fake_fds
  | .read _ _ => e.rfd ∉ s.io.fake_fds ∧
    (s.io.pipe_contents e.id ≠ [] ∨ ¬ WriterOpen s.io e.id)

/-- Descriptors 0 to 2 are taken, and every pipe in use has been numbered. -/
structure Io.Sane (io : Io) : Prop where
  stdio : ∀ fd < 3, (io.fd_table.get fd).isSome
  numbered : ∀ fd of id, io.fd_table.get fd = some of → of.pipe_id = some id → id < io.next_pipe_id

/-- The pipe has just been created by `sys_pipe2`, in any address space. -/
def PipeStart (e : PipeEnds) (s : PipeState) : Prop :=
  (∃ root m m' h io p, io.Sane ∧ e.id = io.next_pipe_id ∧
    run (machine root) (sys_pipe2 ⟨p, false⟩) ⟨m, h, io⟩ = .ok 0 ⟨m', s.heap, s.io⟩) ∧
  (∃ of, s.io.fd_table.get e.rfd = some of ∧ of.pipe_id = some e.id ∧ of.writable = false) ∧
  (∃ of, s.io.fd_table.get e.wfd = some of ∧ of.pipe_id = some e.id ∧ of.writable = true) ∧
  e.rfd < 2 ^ 63 ∧ e.wfd < 2 ^ 63 ∧ s.accepted = [] ∧ s.collected = []

/-- The descriptor table between the calls. -/
structure PipeInv (e : PipeEnds) (s : PipeState) : Prop where
  pipe : ∃ pipe, s.io.pipes[e.id]? = some pipe ∧ pipe.Ok ∧
    s.accepted = s.collected ++ pipe.contents
  small : 3 ≤ e.rfd ∧ e.rfd < 2 ^ 63 ∧ 3 ≤ e.wfd ∧ e.wfd < 2 ^ 63 ∧ e.rfd ≠ e.wfd
  reader : ∃ of, s.io.fd_table.get e.rfd = some of ∧ of.pipe_id = some e.id ∧ of.writable = false
  writer : ∀ of, s.io.fd_table.get e.wfd = some of → of.pipe_id = some e.id ∧ of.writable = true
  only : ∀ fd of, s.io.fd_table.get fd = some of → of.pipe_id = some e.id → fd = e.rfd ∨ fd = e.wfd

section Run

variable {env : Env} {e : PipeEnds} {s t : PipeState} {l : PipeLabel} {root : Nat} {m m' : Mem}

/-- After `sys_pipe2` the pipe is empty and has one descriptor for each end. -/
theorem PipeInv.start (h : PipeStart e s) : PipeInv e s := by
  obtain ⟨⟨root, m, m', h, io, p, hsane, hid, hrun⟩, hr, hw, hrlt, hwlt, hacc, hcol⟩ := h
  obtain ⟨i, j, hi, hj, hne, hpipes, hget⟩ := run_sys_pipe2 hrun
  simp only [← hid] at hi hj hpipes hget
  -- a slot that was empty is none of the first three
  have hlow : ∀ fd, io.fd_table.get fd = none → 3 ≤ fd := fun fd hnone => by
    by_contra hlt
    have hsome := hsane.stdio fd (by omega)
    simp [hnone] at hsome
  -- before the call no descriptor was for this pipe
  have hfresh : ∀ fd of, io.fd_table.get fd = some of → of.pipe_id ≠ some e.id := fun fd of hof hpid => by
    have := hsane.numbered fd of e.id hof hpid
    omega
  have honly : ∀ fd of, s.io.fd_table.get fd = some of → of.pipe_id = some e.id →
      fd = i ∧ of.writable = false ∨ fd = j ∧ of.writable = true := by
    intro fd of hof hpid
    rw [hget] at hof
    split at hof
    · next hfd => exact Or.inr ⟨hfd, by cases hof; rfl⟩
    · split at hof
      · next hfd => exact Or.inl ⟨hfd, by cases hof; rfl⟩
      · exact absurd hpid (hfresh fd of hof)
  have hri : e.rfd = i := by
    obtain ⟨of, hof, hpid, hro⟩ := hr
    have := honly _ of hof hpid
    simp_all
  have hwj : e.wfd = j := by
    obtain ⟨of, hof, hpid, hwo⟩ := hw
    have := honly _ of hof hpid
    simp_all
  refine ⟨⟨.new, by simp [hpipes], PipeInner.new_ok, by simp [hacc, hcol, PipeInner.new_contents]⟩,
    ⟨?_, hrlt, ?_, hwlt, ?_⟩, hr, ?_, ?_⟩
  · exact hri ▸ hlow i hi
  · exact hwj ▸ hlow j hj
  · rwa [hri, hwj]
  · intro of hof
    rw [hget, if_pos hwj] at hof
    cases hof
    exact ⟨rfl, rfl⟩
  · intro fd of hof hpid
    rw [hri, hwj]
    exact (honly fd of hof hpid).imp And.left And.left

/-- Another ring buffer in the place of the pipe. -/
theorem PipeInv.queue (hi : PipeInv e s) {pipe' : PipeInner}
    (hfd : t.io.fd_table = s.io.fd_table) (hpipe : t.io.pipes[e.id]? = some pipe') (hok : pipe'.Ok)
    (hqueue : t.accepted = t.collected ++ pipe'.contents) : PipeInv e t := by
  obtain ⟨-, hsmall, hreader, hwriter, honly⟩ := hi
  refine ⟨⟨pipe', hpipe, hok, hqueue⟩, hsmall, ?_, ?_, ?_⟩ <;> rw [hfd] <;> assumption

/-- A write appends the bytes it accepts. -/
theorem PipeInv.write (hi : PipeInv e s) {buf n : Nat} {r : Int} (hfake : e.wfd ∉ s.io.fake_fds)
    (hrun : run (machine root) (sys_write env e.wfd ⟨buf, false⟩ n) ⟨m, s.heap, s.io⟩ =
      .ok r ⟨m', t.heap, t.io⟩)
    (hacc : t.accepted = s.accepted ++ PipeLabel.accepts env e s ⟨root, m, .write buf n, r⟩)
    (hcol : t.collected = s.collected) : PipeInv e t := by
  obtain ⟨pipe, hpipe, hok, hqueue⟩ := hi.pipe
  obtain ⟨-, -, hw3, hwlt, -⟩ := hi.small
  obtain ⟨hopen, pre, hpre⟩ := run_sys_write hw3 hwlt hfake hrun
  simp only [PipeLabel.accepts, PipeCall.code, hpre] at hacc
  cases hget : s.io.fd_table.get e.wfd with
  | none =>
    -- the write end is closed: an error, and nothing accepted
    simp only [write_open, run_bind, run_get, hget, run_pure, EStateM.Result.ok.injEq] at hopen
    obtain ⟨rfl, hst⟩ := hopen
    have hio : s.io = t.io := congrArg St.st hst
    exact hi.queue (by rw [hio]) (by rw [← hio, hpipe]) hok (by simp [hacc, hcol, hqueue])
  | some of =>
    obtain ⟨hid, -⟩ := hi.writer of hget
    have hwrite : run (machine root) (write_pipe e.id ⟨buf, false⟩ n) ⟨m, s.heap, s.io⟩ =
        .ok r ⟨m', t.heap, t.io⟩ := by
      simpa [write_open, run_bind, hget, hid] using hopen
    obtain ⟨pipe', hio, hok', hlen, hcont⟩ := run_write_pipe hpipe hok hwrite
    have hmoved : moved (machine root) false (write_open e.wfd ⟨buf, false⟩ n) ⟨m, s.heap, s.io⟩ =
        moved (machine root) false (write_pipe e.id ⟨buf, false⟩ n) ⟨m, s.heap, s.io⟩ := by
      simp [write_open, moved_bind, hget, hid]
    simp only at hio
    refine hi.queue (by rw [hio]) (by simp [hio]) hok' ?_
    rw [hacc, hcol, hcont, hqueue, hmoved, List.rtake, List.length_append, hlen,
      Nat.add_sub_cancel, List.drop_left, List.append_assoc]

/-- Closing the write end leaves the queue. -/
theorem PipeInv.close (hi : PipeInv e s) {r : Int} (hfake : e.wfd ∉ s.io.fake_fds)
    (hrun : run (machine root) (sys_close e.wfd) ⟨m, s.heap, s.io⟩ = .ok r ⟨m', t.heap, t.io⟩)
    (hacc : t.accepted = s.accepted) (hcol : t.collected = s.collected) : PipeInv e t := by
  obtain ⟨hpipe, ⟨hr3, hrlt, hw3, hwlt, hne⟩, hreader, hwriter, honly⟩ := hi
  rw [run_sys_close hw3 hwlt hfake] at hrun
  simp only [EStateM.Result.ok.injEq, St.mk.injEq] at hrun
  have hio := hrun.2.2.2.symm
  have hget := FdTable.get_close s.io.fd_table e.wfd
  refine ⟨?_, ⟨hr3, hrlt, hw3, hwlt, hne⟩, ?_, ?_, ?_⟩
  · rw [hio, hacc, hcol]
    exact hpipe
  · rw [hio]
    simpa [hget, hne] using hreader
  · rw [hio]
    simp [hget]
  · intro fd of hfd hpid
    rw [hio] at hfd
    simp only [hget] at hfd
    split at hfd
    · cases hfd
    · exact honly fd of hfd hpid

/-- A read takes what it delivers from the front of the queue. -/
theorem PipeInv.read (hi : PipeInv e s) {buf n : Nat} {r : Int} (hfake : e.rfd ∉ s.io.fake_fds)
    (hrun : run (machine root) (sys_read env e.rfd ⟨buf, false⟩ n) ⟨m, s.heap, s.io⟩ =
      .ok r ⟨m', t.heap, t.io⟩)
    (hacc : t.accepted = s.accepted)
    (hcol : t.collected = s.collected ++ PipeLabel.collects env e s ⟨root, m, .read buf n, r⟩) :
    PipeInv e t ∧ (r = 0 → n = 0 ∨ s.io.pipe_contents e.id = []) := by
  obtain ⟨pipe, hpipe, hok, hqueue⟩ := hi.pipe
  obtain ⟨-, hrlt, -, -, -⟩ := hi.small
  obtain ⟨of, hget, hid, -⟩ := hi.reader
  obtain ⟨hread, hmoved⟩ :
      run (machine root) (sys_read env e.rfd ⟨buf, false⟩ n) ⟨m, s.heap, s.io⟩ =
          run (machine root) (read_pipe e.id ⟨buf, false⟩ n) ⟨m, s.heap, s.io⟩ ∧
        moved (machine root) true (sys_read env e.rfd ⟨buf, false⟩ n) ⟨m, s.heap, s.io⟩ =
          moved (machine root) true (read_pipe e.id ⟨buf, false⟩ n) ⟨m, s.heap, s.io⟩ :=
    run_sys_read hrlt hfake hget hid
  rw [hread] at hrun
  obtain ⟨pipe', hio, hok', hcont, hzero⟩ := run_read_pipe hpipe hok hrun
  simp only [PipeLabel.collects, PipeCall.code, hmoved] at hcol
  simp only at hio
  refine ⟨hi.queue (by rw [hio]) (by simp [hio]) hok' ?_, by simpa [Io.pipe_contents, hpipe] using hzero⟩
  rw [hacc, hcol, hqueue, hcont, List.append_assoc]

theorem PipeInv.step (hi : PipeInv e s) (h : LTS.guarded (PipeCond e) (PipeStep env e) s l t) :
    PipeInv e t := by
  obtain ⟨hcond, hpos, ⟨m', hrun⟩, hacc, hcol⟩ := h
  obtain ⟨root, m, call, ret⟩ := l
  cases call with
  | write buf n => exact hi.write hcond hrun hacc (by simpa [PipeLabel.collects] using hcol)
  | close =>
    exact hi.close hcond hrun (by simpa [PipeLabel.accepts] using hacc)
      (by simpa [PipeLabel.collects] using hcol)
  | read buf n => exact (hi.read hcond.1 hrun (by simpa [PipeLabel.accepts] using hacc) hcol).1

end Run

/-- **End of file.**  In every run of writers and a reader on a new pipe in which
    each read is issued only when there are bytes or no writer is left: what was
    collected is the beginning of what was accepted, and a read returns 0 only
    when the buffer is empty, no descriptor for the write end is open, and
    everything accepted has been collected. -/
theorem pipe_read_complete (env : Env) (e : PipeEnds) {s0 s t : PipeState} {ls : List PipeLabel}
    {l : PipeLabel} (hstart : PipeStart e s0)
    (hrun : LTS.Steps (LTS.guarded (PipeCond e) (PipeStep env e)) s0 ls s)
    (hstep : LTS.guarded (PipeCond e) (PipeStep env e) s l t) :
    s.accepted = s.collected ++ s.io.pipe_contents e.id ∧
      ∀ buf n, l.call = .read buf n → l.ret = 0 →
        s.io.pipe_contents e.id = [] ∧ ¬ WriterOpen s.io e.id ∧ s.collected = s.accepted := by
  have hi : PipeInv e s :=
    LTS.Steps.invariant (fun s l t (hs : PipeInv e s) hst => hs.step hst) hrun (PipeInv.start hstart)
  have hqueue : s.accepted = s.collected ++ s.io.pipe_contents e.id := by
    obtain ⟨pipe, hpipe, -, hqueue⟩ := hi.pipe
    simpa [Io.pipe_contents, hpipe] using hqueue
  refine ⟨hqueue, ?_⟩
  intro buf n hcall hzero
  obtain ⟨root, m, call, ret⟩ := l
  obtain rfl : call = .read buf n := hcall
  obtain ⟨⟨hfake, hcond⟩, hpos, ⟨m', hret⟩, hacc, hcol⟩ := hstep
  have hempty : s.io.pipe_contents e.id = [] := by
    have hread := (hi.read hfake hret (by simpa [PipeLabel.accepts] using hacc) hcol).2 hzero
    exact hread.resolve_left (hpos buf n rfl).ne'
  refine ⟨hempty, hcond.resolve_left (not_not_intro hempty), ?_⟩
  simp [hqueue, hempty]

/-! ## Section 4: A pipe in one page of memory -/

/-- The call `c` in that memory. -/
def PipeState.call (s : PipeState) (c : IoM Int) : EStateM.Result Halt (St HeapAllocator Io) Int :=
  run (machine 1) c ⟨onePage, s.heap, s.io⟩

/-- The state after the call. -/
def PipeState.after (s : PipeState) (c : IoM Int) : PipeState :=
  { s with heap := (Prog.final (s.call c)).heap, io := (Prog.final (s.call c)).st }

/-- A new pipe with descriptors 3 and 4. -/
def newPipe : PipeState := PipeState.after ⟨init_heap, .new, [], []⟩ (sys_pipe2 ⟨0, false⟩)

theorem Io.new_sane : Io.new.Sane where
  stdio := by decide
  numbered := by
    intro fd of id hget hid
    have hmem := FdTable.mem_of_get hget
    obtain rfl : of = FdTable.stdio := by simpa [Io.new, FdTable.new] using hmem
    cases hid

theorem PipeState.call_ok {s : PipeState} {c : IoM Int} {r : Int} (h : Prog.value (s.call c) = some r) :
    ∃ m', run (machine 1) c ⟨onePage, s.heap, s.io⟩ = .ok r ⟨m', (s.after c).heap, (s.after c).io⟩ :=
  ⟨_, Prog.eq_ok_of_value h⟩

theorem newPipe_start : PipeStart ⟨3, 4, 1⟩ newPipe := by
  obtain ⟨m', hrun⟩ := PipeState.call_ok (s := ⟨init_heap, .new, [], []⟩) (c := sys_pipe2 ⟨0, false⟩)
    (r := 0) (by decide +kernel)
  refine ⟨⟨1, onePage, m', init_heap, .new, 0, Io.new_sane, rfl, hrun⟩,
    ⟨pipe_end 1 false, ?_, rfl, rfl⟩, ⟨pipe_end 1 true, ?_, rfl, rfl⟩, by decide, by decide, rfl, rfl⟩
  · decide +kernel
  · decide +kernel

/-- The write end is closed, then a read returns 0. -/
theorem pipe_read_complete_closed :
    let s := newPipe.after (sys_close 4)
    s.io.pipe_contents 1 = [] ∧ ¬ WriterOpen s.io 1 ∧ s.collected = s.accepted := by
  intro s
  have hfiles : s.io.fd_table.files =
      [some FdTable.stdio, some FdTable.stdio, some FdTable.stdio, some (pipe_end 1 false), none] := by
    decide +kernel
  have hclosed : ¬ WriterOpen s.io 1 := by
    rintro ⟨fd, of, hget, hid, hwrite⟩
    have hmem := FdTable.mem_of_get hget
    rw [hfiles] at hmem
    have hof : of = FdTable.stdio ∨ of = pipe_end 1 false := by simpa using hmem
    rcases hof with rfl | rfl
    · cases hid
    · cases hwrite
  have hclose : LTS.guarded (PipeCond ⟨3, 4, 1⟩) (PipeStep .idle ⟨3, 4, 1⟩) newPipe
      ⟨1, onePage, .close, 0⟩ s := by
    refine ⟨?_, by simp, PipeState.call_ok (by decide +kernel), rfl, rfl⟩
    show 4 ∉ newPipe.io.fake_fds
    decide +kernel
  have hread : LTS.guarded (PipeCond ⟨3, 4, 1⟩) (PipeStep .idle ⟨3, 4, 1⟩) s
      ⟨1, onePage, .read 0 1, 0⟩ (s.after (sys_read .idle 3 ⟨0, false⟩ 1)) := by
    refine ⟨⟨?_, Or.inr hclosed⟩, by simp, PipeState.call_ok (by decide +kernel), rfl, ?_⟩
    · show 3 ∉ s.io.fake_fds
      decide +kernel
    · decide +kernel
  exact (pipe_read_complete .idle ⟨3, 4, 1⟩ newPipe_start (.single hclose) hread).2 0 1 rfl rfl

/-- **Counterexample**: the first read of a new pipe returns 0 while its write
    end is open. -/
theorem read_zero_with_writer :
    PipeStart ⟨3, 4, 1⟩ newPipe ∧
      PipeStep .idle ⟨3, 4, 1⟩ newPipe ⟨1, onePage, .read 0 1, 0⟩
        (newPipe.after (sys_read .idle 3 ⟨0, false⟩ 1)) ∧
      WriterOpen newPipe.io 1 := by
  refine ⟨newPipe_start, ⟨by simp, PipeState.call_ok (by decide +kernel), rfl, ?_⟩,
    ⟨4, pipe_end 1 true, ?_, rfl, rfl⟩⟩
  · decide +kernel
  · decide +kernel

end Rvos

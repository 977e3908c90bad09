import Rvos.Io.Epoll
import Rvos.Io.Pipes
import Rvos.Io.Seek

/-! # Descriptor numbers

    Two tables give out descriptor numbers: `FD_TABLE` its lowest empty slot, and
    `FAKE_FDS` the numbers of a counter that starts at 100.

    * `FdTable.denotes` : what a descriptor denotes, whatever the position in it.
      Only `openat`, `close`, `dup2` and `pipe2` change this (`io_call_steady`);
      `post_openat`, `post_close`, `post_dup2` and `post_pipe2` say how.
    * `numbers_apart` : the tables stay apart in every run whose files stay below
      100; `dup2_takes_number` is what happens otherwise.
    * `dup2_aliases` : a copied descriptor has a position of its own, so it is no
      alias of the one it was copied from.
    * `dup2_right_iff` : when `FdTable::dup2` copies, for every slot. -/

namespace Rvos

open Access Access.Code ByteMem Usize

/-! ## Section 1: What descriptors denote -/

/-- The open file of a descriptor, whatever the position in it. -/
def FdTable.denotes (t : FdTable) (fd : Nat) : Option OpenFile :=
  (t.get fd).map fun of => { of with offset := 0 }

/-- The descriptors denote `d`. -/
def Io.Denotes (d : Nat → Option OpenFile) (io : Io) : Prop := io.fd_table.denotes = d

theorem FdTable.denotes_eq_none {t : FdTable} {fd : Nat} : t.denotes fd = none ↔ t.get fd = none :=
  Option.map_eq_none_iff

section Steady

variable {env : Env} {io : Io} {d : Nat → Option OpenFile}

theorem Apart.steady {α : Type} {c : IoM α} (h : Apart c) : Keeps (Io.Denotes d) c := by
  apply h.keeps
  intro io io' htable _ hio
  unfold Io.Denotes
  rw [htable]
  exact hio

/-- Moving a descriptor. -/
theorem steady_fd_put (h : io.Denotes d) {fd : Nat} {of : OpenFile}
    (hd : d fd = some { of with offset := 0 }) : KeepsAt (Io.Denotes d) (fd_put fd of) io := by
  apply KeepsAt.modify
  show (io.fd_table.put fd of).denotes = d
  funext fd'
  have hold : io.fd_table.denotes fd' = d fd' := congrFun h fd'
  unfold FdTable.denotes at hold ⊢
  rw [FdTable.get_put]
  split
  · next hfd =>
    rw [hfd.1, hd]
    rfl
  · exact hold

theorem Io.Denotes.of_get (h : io.Denotes d) {fd : Nat} {of : OpenFile} (hof : io.fd_table.get fd = some of) :
    d fd = some { of with offset := 0 } := by
  rw [← h, FdTable.denotes, hof]
  rfl

theorem steady_write_inode (inode : Nat) (buf : List UInt8) (offset : Nat) :
    Keeps (Io.Denotes d) (write_inode inode buf offset) := by
  intro io h
  unfold KeepsAt write_inode
  rw [post_bind, post_get]
  cases hpath : io.fs.inode_map[inode]? with
  | none =>
    simp only [hpath]
    exact h
  | some path =>
    cases hfile : io.fs.files[path]? with
    | none =>
      simp only [hpath, hfile]
      exact h
    | some f =>
      obtain ⟨data⟩ := f
      cases data with
      | Static s =>
        simp only [hpath, hfile]
        exact h
      | Dynamic v cap =>
        simp only [hpath, hfile]
        -- once the vector has grown only the files change
        split
        · rw [post_bind]
          refine ((quiet_vec_reserve _ _ _ _ _).apart.steady io h).mono ?_ fun _ _ h => h
          intro cap' t _ ht
          split
          · trivial
          · exact ht
        · split
          · trivial
          · exact h

theorem steady_write_open (fd : Nat) (buf : Ptr) (count : Nat) :
    Keeps (Io.Denotes d) (write_open fd buf count) := by
  intro io h
  apply KeepsAt.get_bind
  cases hof : io.fd_table.get fd with
  | none => exact h
  | some of =>
    cases hpid : of.pipe_id with
    | some pid => simpa only [hpid] using (apart_write_pipe pid buf count).steady io h
    | none =>
      simp only [hpid]
      apply KeepsAt.bind ((quiet_copy_in _ _).apart.steady io h)
      intro tmp io1 h1
      apply KeepsAt.bind (steady_write_inode _ _ _ io1 h1)
      intro n io2 h2
      refine (steady_fd_put h2 ?_).bind fun _ => .pure _
      rw [h.of_get hof, hpid]

theorem steady_read_open (fd : Nat) (buf : Ptr) (count : Nat) :
    Keeps (Io.Denotes d) (read_open fd buf count) := by
  intro io h
  apply KeepsAt.get_bind
  cases hof : io.fd_table.get fd with
  | none => exact h
  | some of =>
    cases hpid : of.pipe_id with
    | some pid => simpa only [hpid] using (apart_read_pipe pid buf count).steady io h
    | none =>
      simp only [hpid]
      apply KeepsAt.bind ((quiet_read_file _ _ _).apart.steady io h)
      intro out io1 h1
      apply KeepsAt.bind ((Apart.storeBytes _ _).steady io1 h1)
      intro _ io2 h2
      refine (steady_fd_put h2 ?_).bind fun _ => .pure _
      rw [h.of_get hof, hpid]

theorem steady_sys_write (fd : Int) (buf : Ptr) (count : Nat) :
    Keeps (Io.Denotes d) (sys_write env fd buf count) := by
  intro io h
  unfold sys_write
  split
  · exact ((Outer.loadBytes _ _).apart.bind fun _ => (Outer.print _).apart.bind fun _ => .pure _).steady io h
  · apply KeepsAt.bind ((quiet_log_echo _ _ _).apart.steady io h)
    intro _ io h
    apply KeepsAt.bind ((outer_is_inet_socket _).apart.steady io h)
    intro b io h
    split
    · exact (outer_send_to_fd _ _ _).apart.steady io h
    · exact steady_write_open _ _ _ io h

theorem steady_sys_read (fd : Int) (buf : Ptr) (count : Nat) :
    Keeps (Io.Denotes d) (sys_read env fd buf count) := by
  intro io h
  apply KeepsAt.get_bind
  split
  · exact ((outer_read_line _ _ _ _).apart.bind fun _ => .pure _).steady io h
  · split
    · exact ((Apart.storeBytes _ _).bind fun _ => (outer_fake_fd_insert _ _).apart.bind fun _ =>
        .pure _).steady io h
    · exact (outer_recv_from_fd _ _ _).apart.steady io h
    · exact steady_read_open _ _ _ io h

theorem steady_writev_loop (fd : Int) (left : Nat) :
    ∀ iov total, Keeps (Io.Denotes d) (writev_loop env fd iov left total) := by
  induction left with
  | zero => exact fun _ _ => .pure _
  | succ left ih =>
    intro iov total io h
    simp only [writev_loop, KeepsAt, post_bind, post_loadBytes]
    intro base _ len _
    split
    · exact ih _ _ io h
    · apply KeepsAt.bind (steady_sys_write fd ⟨leNat base, false⟩ (leNat len) io h)
      intro n io h
      split
      · exact h
      · split
        · exact h
        · exact ih _ _ io h

theorem steady_pwrite64 (fd : Int) (buf : Ptr) (count offset : Nat) :
    Keeps (Io.Denotes d) (sys_pwrite64 fd buf count offset) := by
  intro io h
  apply KeepsAt.get_bind
  cases io.fd_table.get (ofIsize fd) with
  | none => exact h
  | some of =>
    apply KeepsAt.bind ((quiet_copy_in _ _).apart.steady io h)
    intro tmp io h
    apply KeepsAt.bind (steady_write_inode _ _ _ io h)
    exact fun _ => .pure _

theorem steady_sendfile (out_fd in_fd : Int) (count : Nat) :
    Keeps (Io.Denotes d) (sys_sendfile env out_fd in_fd count) := by
  intro io h
  apply KeepsAt.bind ((quiet_vec_zeroed _).apart.steady io h)
  intro _ io h
  apply KeepsAt.bind (steady_sys_read _ _ _ io h)
  intro n io h
  split
  · exact h
  · exact steady_sys_write _ _ _ io h

theorem steady_getdents64 (fd : Int) (buf : Ptr) (count : Nat) :
    Keeps (Io.Denotes d) (sys_getdents64 fd buf count) := by
  intro io h
  apply KeepsAt.get_bind
  cases hof : io.fd_table.get (ofIsize fd) with
  | none => exact h
  | some of =>
    apply KeepsAt.bind ((quiet_vec_zeroed _).apart.steady io h)
    intro _ io1 h1
    apply KeepsAt.get_bind
    dsimp only
    split
    · apply KeepsAt.bind ((Apart.storeBytes _ _).steady io1 h1)
      intro _ io2 h2
      have hd := h.of_get hof
      exact KeepsAt.bind (steady_fd_put h2 hd) fun _ => .pure _
    · exact h1

theorem steady_lseek (fd offset whence : Int) : Keeps (Io.Denotes d) (sys_lseek fd offset whence) := by
  intro io h
  apply KeepsAt.get_bind
  cases hof : io.fd_table.get (ofIsize fd) with
  | none => exact h
  | some of =>
    have hseek : ∀ base : Int, KeepsAt (Io.Denotes d) (do
        fd_put (ofIsize fd) { of with offset := ofIsize (base + offset) }
        return toIsize (ofIsize (base + offset)) : IoM Int) io := by
      intro base
      have hd := h.of_get hof
      exact KeepsAt.bind (steady_fd_put h hd) fun _ => .pure _
    dsimp only
    split
    · exact hseek 0
    · split
      · exact hseek _
      · split
        · exact .get_bind (hseek _)
        · exact h

theorem steady_mkdirat (path : Ptr) : Keeps (Io.Denotes d) (sys_mkdirat path) := by
  intro io h
  apply KeepsAt.bind ((quiet_cstr _).apart.steady io h)
  intro path io h
  apply KeepsAt.get_bind
  split
  · exact h
  · exact h

/-- The calls that open, close and copy descriptors. -/
def openingCalls : List Nat := [23, 24, 56, 57, 59]

/-- **All other calls of the table** leave what descriptors denote. -/
theorem io_call_steady {num : Nat} {a : Args} {c : IoM Int} (hc : io_call env num a = some c)
    (hnum : num ∉ openingCalls) : Keeps (Io.Denotes d) c := by
  by_cases hcall : num ∈ descriptorCalls
  · simp only [descriptorCalls, List.mem_cons, List.not_mem_nil, or_false] at hcall
    rcases hcall with rfl | rfl | rfl | rfl | rfl | rfl | rfl | rfl | rfl | rfl | rfl | rfl | rfl | rfl <;>
      cases hc
    · exact absurd (by decide) hnum
    · exact absurd (by decide) hnum
    · exact steady_mkdirat _
    · exact absurd (by decide) hnum
    · exact absurd (by decide) hnum
    · exact absurd (by decide) hnum
    · exact steady_getdents64 _ _ _
    · exact steady_lseek _ _ _
    · exact steady_sys_read _ _ _
    · exact steady_sys_write _ _ _
    · exact steady_writev_loop _ _ _ _
    · exact steady_pwrite64 _ _ _ _
    · exact steady_sendfile _ _ _
    · exact steady_sys_read _ _ _
  · exact (io_call_apart hc hcall).steady

end Steady

/-! ## Section 2: Opening, closing and copying -/

/-- The lowest empty slot takes the file. -/
structure FdTable.Takes (t : FdTable) (fd : Nat) (file : OpenFile) (t' : FdTable) : Prop where
  lowest : ∀ i, i < fd → t.get i ≠ none
  empty : t.get fd = none
  get : ∀ i, t'.get i = if i = fd then some file else t.get i

section Opening

variable {env : Env} {io : Io}

theorem FdTable.get_full {t : FdTable} {i : Nat} (hlt : i < t.files.length)
    (hfull : t.files[i].isNone = false) : t.get i ≠ none := by
  intro hnone
  rw [FdTable.get, List.getElem?_eq_getElem hlt, Option.join_some] at hnone
  rw [hnone] at hfull
  cases hfull

theorem post_vec_reserve_silent (size log_align len cap additional : Nat) :
    post (vec_reserve size log_align len cap additional : IoM Nat) (fun _ u l => u = io ∧ l = .nil)
      (fun _ _ => True) io := by
  unfold vec_reserve
  dsimp only
  split
  · exact ⟨rfl, rfl⟩
  · generalize max (max (2 * cap) (len + additional)) (if size = 1 then 8 else 4) = cap'
    split
    · trivial
    · exact fun _ => ⟨rfl, rfl⟩

theorem post_fd_takes (t : FdTable) (file : OpenFile) :
    post (t.alloc file : IoM (FdTable × Nat))
      (fun p u l => u = io ∧ l = .nil ∧ t.Takes p.2 file p.1) (fun _ _ => True) io := by
  unfold FdTable.alloc
  cases hfind : t.files.findIdx? (·.isNone) with
  | some i =>
    obtain ⟨hlt, hnone, hbefore⟩ := List.findIdx?_eq_some_iff_getElem.mp hfind
    have htakes : t.Takes i file (t.put i file) := by
      constructor
      · intro j hj
        exact FdTable.get_full (by omega) (by simpa [Option.isSome_iff_ne_none] using hbefore j hj)
      · simpa [FdTable.get, hlt] using hnone
      · intro j
        simp [FdTable.get_put, hlt]
    exact ⟨rfl, rfl, htakes⟩
  | none =>
    -- every slot is taken: the file goes to a new one
    have hall := List.findIdx?_eq_none_iff.mp hfind
    have htakes : ∀ cap, t.Takes t.files.length file { files := t.files ++ [some file], cap := cap } := by
      intro cap
      constructor
      · intro j hj
        exact FdTable.get_full hj (hall _ (List.getElem_mem hj))
      · simp [FdTable.get]
      · intro j
        unfold FdTable.get
        rw [List.getElem?_append]
        split
        · next hlt => rw [if_neg (by omega)]
        · next hge =>
          rw [List.getElem?_eq_none (l := t.files) (by omega)]
          by_cases hj : j = t.files.length
          · simp [hj]
          · rw [if_neg hj, List.getElem?_eq_none (by simp; omega)]
    dsimp only
    rw [post_bind]
    refine (post_vec_reserve_silent _ _ _ _ _).mono ?_ fun _ _ h => h
    rintro cap u l ⟨rfl, rfl⟩
    exact ⟨rfl, rfl, htakes cap⟩

/-- The open file of `openat`. -/
def openFile (inode : Nat) (flags : Int) : OpenFile :=
  { inode := inode, offset := 0, readable := true,
    writable := ofIsize flags &&& 1 != 0 || ofIsize flags &&& 2 != 0, pipe_id := none }

/-- **`openat`** fails, or takes the lowest empty slot. -/
theorem post_openat (path : Ptr) (flags : Int) :
    post (sys_openat path flags) (fun r t _ => r = -2 ∧ t = io ∨
      ∃ inode fd t', io.fd_table.Takes fd (openFile inode flags) t' ∧ r = fd ∧
        t = { io with fd_table := t' }) (fun _ _ => True) io := by
  unfold sys_openat
  rw [post_bind]
  refine (quiet_cstr path io).mono ?_ fun _ _ _ => trivial
  rintro name t l rfl
  rw [post_bind, post_get]
  cases t.fs.lookup name with
  | none => exact Or.inl ⟨rfl, rfl⟩
  | some inode =>
    dsimp only
    rw [post_bind, post_get, post_bind]
    refine (post_fd_takes t.fd_table (openFile inode flags)).mono ?_ fun _ _ h => h
    rintro ⟨t', fd⟩ u _ ⟨rfl, -, htakes⟩
    exact Or.inr ⟨inode, fd, t', htakes, rfl, rfl⟩

/-- **`close`** empties the slot, unless the descriptor is a standard one or no file. -/
theorem post_close (fd : Int) :
    post (sys_close fd) (fun _ t _ =>
      ((0 ≤ fd ∧ fd < 3 ∨ ofIsize fd ∈ io.fake_fds) ∧ t.store = io.store) ∨
      (¬ (0 ≤ fd ∧ fd < 3) ∧ ofIsize fd ∉ io.fake_fds ∧
        t = { io with fd_table := io.fd_table.close (ofIsize fd) })) (fun _ _ => True) io := by
  unfold sys_close is_inet_socket is_fake_fd
  split
  · next hstd => exact Or.inl ⟨Or.inl ⟨hstd.2, hstd.1⟩, rfl⟩
  · next hstd =>
    simp only [post_bind, post_get, post_pure]
    split
    · next hinet =>
      have hmem : ofIsize fd ∈ io.fake_fds :=
        Std.TreeMap.mem_iff_isSome_getElem?.mpr (by simp [eq_of_beq hinet])
      rw [post_bind]
      refine ((outer_close_fd (ofIsize fd)) io).mono ?_ fun _ _ h => h
      intro _ t _ ht
      exact Or.inl ⟨Or.inr hmem, ht⟩
    · simp only [post_bind, post_get, post_pure]
      split
      · next hfake =>
        exact Or.inl ⟨Or.inr (Std.TreeMap.mem_iff_contains.mpr hfake), rfl⟩
      · next hfake =>
        refine Or.inr ⟨fun h => hstd ⟨h.2, h.1⟩, fun h => hfake (Std.TreeMap.mem_iff_contains.mp h), rfl⟩

theorem post_fd_resized (t : FdTable) {n : Nat} (hn : t.files.length < n) :
    post (t.resize n : IoM FdTable) (fun t' u _ => u = io ∧ t'.files.length = n ∧ ∀ i, t'.get i = t.get i)
      (fun _ _ => True) io := by
  unfold FdTable.resize
  rw [if_neg (by omega), post_bind]
  refine (quiet_vec_reserve _ _ _ _ _ io).mono ?_ fun _ _ _ => trivial
  rintro cap u l rfl
  refine ⟨rfl, by simp; omega, fun i => ?_⟩
  unfold FdTable.get
  rw [List.getElem?_append]
  split
  · rfl
  · next hge =>
    rw [List.getElem?_eq_none (l := t.files) (by omega), List.getElem?_replicate]
    split <;> rfl

theorem post_fd_copied (t : FdTable) {oldfd newfd : Nat} (hnew : newfd < 2 ^ 64) :
    post (t.dup2 oldfd newfd : IoM (FdTable × Bool)) (fun p u _ => u = io ∧
      (t.get oldfd = none ∧ p = (t, false) ∨ ∃ file, t.get oldfd = some file ∧ p.2 = true ∧
        ∀ i, p.1.get i = if i = newfd then some file else t.get i)) (fun _ _ => True) io := by
  unfold FdTable.dup2
  cases hget : t.get oldfd with
  | none => exact ⟨rfl, Or.inl ⟨rfl, rfl⟩⟩
  | some file =>
    have hput : ∀ t' : FdTable, newfd < t'.files.length → (∀ i, t'.get i = t.get i) →
        ∀ i, (t'.put newfd file).get i = if i = newfd then some file else t.get i := by
      intro t' hlt hsame i
      rw [FdTable.get_put, hsame]
      simp [hlt]
    dsimp only
    split
    · next hge =>
      rw [post_bind]
      by_cases hwrap : newfd + 1 < 2 ^ 64
      · rw [wadd_of_lt hwrap]
        refine (post_fd_resized t (by omega)).mono ?_ fun _ _ h => h
        rintro t' u _ ⟨rfl, hlen, hsame⟩
        rw [if_neg (by omega)]
        exact ⟨rfl, Or.inr ⟨file, rfl, rfl, hput t' (by omega) hsame⟩⟩
      · -- the length wraps to 0, and the write panics
        have hzero : wadd newfd 1 = 0 := by
          rw [wadd]
          omega
        unfold FdTable.resize
        rw [hzero, if_pos (Nat.zero_le _)]
        simp
    · next hlt =>
      rw [post_bind, post_pure, if_neg hlt]
      exact ⟨rfl, Or.inr ⟨file, rfl, rfl, hput t (by omega) fun _ => rfl⟩⟩

/-- **`dup2`** fails, or copies the open file to the other slot. -/
theorem post_dup2 (oldfd newfd : Int) :
    post (sys_dup2 oldfd newfd) (fun r t _ => io.fd_table.get (ofIsize oldfd) = none ∧ r = -1 ∧ t = io ∨
      ∃ file t', io.fd_table.get (ofIsize oldfd) = some file ∧ r = newfd ∧
        t = { io with fd_table := t' } ∧
        ∀ i, t'.get i = if i = ofIsize newfd then some file else io.fd_table.get i)
      (fun _ _ => True) io := by
  unfold sys_dup2
  rw [post_bind, post_get, post_bind]
  refine (post_fd_copied io.fd_table (ofIsize_lt newfd)).mono ?_ fun _ _ h => h
  rintro ⟨t', ok⟩ u _ ⟨rfl, ⟨hnone, heq⟩ | ⟨file, hfile, rfl, hget⟩⟩
  · cases heq
    exact Or.inl ⟨hnone, rfl, rfl⟩
  · exact Or.inr ⟨file, t', hfile, rfl, rfl, hget⟩

/-- **`pipe2`** takes the two lowest empty slots, and stores their numbers. -/
theorem post_pipe2 (pipefd : Ptr) :
    post (sys_pipe2 pipefd) (fun r t lg => ∃ rfd wfd t1 t2,
      io.fd_table.Takes rfd (pipe_end io.next_pipe_id false) t1 ∧
      t1.Takes wfd (pipe_end io.next_pipe_id true) t2 ∧ r = 0 ∧
      t = { io with
        fd_table := t2
        next_pipe_id := io.next_pipe_id + 1
        pipes := io.pipes.insert io.next_pipe_id .new } ∧
      lg true = leBytes 4 rfd ++ leBytes 4 wfd) (fun _ _ => True) io := by
  unfold sys_pipe2
  rw [post_bind, post_get, post_bind]
  refine (post_vec_zeroed 4096 io).mono ?_ fun _ _ h => h
  rintro _ io l ⟨rfl, rfl⟩
  rw [post_bind, post_modify, post_bind, post_get, post_bind]
  refine (post_fd_takes io.fd_table (pipe_end io.next_pipe_id false)).mono ?_ fun _ _ h => h
  rintro ⟨t1, rfd⟩ _ _ ⟨rfl, rfl, hread⟩
  rw [post_bind, post_modify, post_bind, post_get, post_bind]
  refine (post_fd_takes t1 (pipe_end io.next_pipe_id true)).mono ?_ fun _ _ h => h
  rintro ⟨t2, wfd⟩ _ _ ⟨rfl, rfl, hwrite⟩
  simp only [post_bind, post_modify, post_storeBytes, post_pure]
  exact ⟨rfd, wfd, t1, t2, hread, hwrite, trivial, rfl, by simp⟩

/-- What the calls that open, close and copy descriptors do. -/
inductive Opening (io : Io) (num : Nat) (a : Args) (r : Int) : Io → Prop where
  /-- The call fails, or closes a socket. -/
  | failed (io' : Io) (h : io'.store = io.store) : Opening io num a r io'
  | openat (fd inode : Nat) (t' : FdTable) (hnum : num = 56)
      (htakes : io.fd_table.Takes fd (openFile inode (toIsize a.a2)) t') (hret : r = fd) :
      Opening io num a r { io with fd_table := t' }
  | close (hnum : num = 57) (hstd : ¬ (0 ≤ toIsize a.a0 ∧ toIsize a.a0 < 3)) :
      Opening io num a r { io with fd_table := io.fd_table.close (ofIsize (toIsize a.a0)) }
  | dup (file : OpenFile) (t' : FdTable) (hnum : num = 23 ∨ num = 24)
      (hfile : io.fd_table.get (ofIsize (toIsize a.a0)) = some file)
      (hget : ∀ i, t'.get i = if i = ofIsize (toIsize a.a1) then some file else io.fd_table.get i) :
      Opening io num a r { io with fd_table := t' }
  | pipe (rfd wfd : Nat) (t1 t2 : FdTable) (hnum : num = 59)
      (hread : io.fd_table.Takes rfd (pipe_end io.next_pipe_id false) t1)
      (hwrite : t1.Takes wfd (pipe_end io.next_pipe_id true) t2) :
      Opening io num a r { io with
        fd_table := t2
        next_pipe_id := io.next_pipe_id + 1
        pipes := io.pipes.insert io.next_pipe_id .new }

theorem run_opening {num : Nat} {a : Args} {c : IoM Int} {M : Machine HeapAllocator Halt} {s t : St HeapAllocator Io}
    {r : Int} (hc : io_call env num a = some c) (hnum : num ∈ openingCalls) (hrun : run M c s = .ok r t) :
    Opening s.st num a r t.st := by
  have hdup : num = 23 ∨ num = 24 → run M (sys_dup2 (toIsize a.a0) (toIsize a.a1)) s = .ok r t →
      Opening s.st num a r t.st := by
    intro hnum hrun
    rcases (post_dup2 (toIsize a.a0) (toIsize a.a1)).ok hrun with ⟨-, -, ht⟩ | ⟨file, t', hfile, -, ht, hget⟩
    · exact .failed _ (congrArg Io.store ht)
    · exact ht ▸ .dup file t' hnum hfile hget
  simp only [openingCalls, List.mem_cons, List.not_mem_nil, or_false] at hnum
  rcases hnum with rfl | rfl | rfl | rfl | rfl <;> cases hc
  · exact hdup (Or.inl rfl) hrun
  · exact hdup (Or.inr rfl) hrun
  · rcases (post_openat (user a.a1) (toIsize a.a2)).ok hrun with ⟨-, ht⟩ | ⟨inode, fd, t', htakes, hret, ht⟩
    · exact .failed _ (congrArg Io.store ht)
    · exact ht ▸ .openat fd inode t' rfl htakes hret
  · rcases (post_close (toIsize a.a0)).ok hrun with ⟨-, ht⟩ | ⟨hstd, -, ht⟩
    · exact .failed _ ht
    · exact ht ▸ .close rfl hstd
  · obtain ⟨rfd, wfd, t1, t2, hread, hwrite, -, ht, -⟩ := (post_pipe2 (user a.a0)).ok hrun
    exact ht ▸ .pipe rfd wfd t1 t2 rfl hread hwrite

end Opening

/-! ## Section 3: Two allocators -/

/-- Files have numbers below 100, other descriptors the numbers from 100 on that
    the counter has given out. -/
structure Io.Parted (io : Io) : Prop where
  low : ∀ fd, io.fd_table.get fd ≠ none → fd < 100
  high : ∀ fd, fd ∈ io.fake_fds → 100 ≤ fd ∧ fd < io.fake_fd_next
  next : 100 ≤ io.fake_fd_next

/-- The files stay below 100: no descriptor is copied to a higher number, and
    there are empty slots below 100 for the files to open.  The counter has given
    out fewer than `2 ^ 31` numbers, all that fit into an `int`. -/
structure LowCond (io : Io) (l : IoLabel) : Prop where
  dup : l.num = 23 ∨ l.num = 24 → io.fd_table.get (ofIsize (toIsize l.args.a0)) ≠ none →
    ofIsize (toIsize l.args.a1) < 100
  openat : l.num = 56 → ∃ fd, fd < 100 ∧ io.fd_table.get fd = none
  pipe : l.num = 59 → ∃ fd fd', fd < fd' ∧ fd' < 100 ∧ io.fd_table.get fd = none ∧
    io.fd_table.get fd' = none
  counter : io.fake_fd_next + 2 ≤ 2 ^ 31

/-- The calls that return a new descriptor number. -/
def returningCalls : List Nat := [19, 20, 56, 198, 202, 242]

/-- The calls that store two. -/
def pairCalls : List Nat := [59, 199]

/-- The call hands out the new number `n`: it returns it, or it is one of the two
    words that it stores. -/
def IoLabel.Hands (env : Env) (io : Io) (l : IoLabel) (n : Nat) : Prop :=
  0 ≤ l.ret ∧ (l.num ∈ returningCalls ∧ l.ret = n ∨
    l.num ∈ pairCalls ∧ ∃ c, io_call env l.num l.args = some c ∧
      (n = leNat ((moved (machine l.root) true c (l.start io)).take 4) ∨
        n = leNat ((moved (machine l.root) true c (l.start io)).drop 4)))

section Numbers

variable {env : Env} {io io' : Io} {l : IoLabel} {b : Fs.Blobs}

/-- The counter only goes up, and gives out the numbers of `FAKE_FDS`. -/
theorem high_change {may : Io.Act → Prop}
    (h : (∀ fd, fd ∈ io.fake_fds → 100 ≤ fd ∧ fd < io.fake_fd_next) ∧ 100 ≤ io.fake_fd_next)
    (hc : Io.Change env may io io') :
    (∀ fd, fd ∈ io'.fake_fds → 100 ≤ fd ∧ fd < io'.fake_fd_next) ∧ 100 ≤ io'.fake_fd_next := by
  obtain ⟨hnum, hnext⟩ := h
  have hnumbered : io.Numbered := fun fd hfd => (hnum fd hfd).2
  obtain ⟨hnumbered', hle⟩ := numbered_change hnumbered hc
  refine ⟨fun fd hfd => ⟨?_, hnumbered' fd hfd⟩, hnext.trans hle⟩
  have hfresh : ∀ t, fd ∈ io.fake_fds.insert io.fake_fd_next t → 100 ≤ fd := by
    intro t hmem
    rcases mem_insert_iff.mp hmem with rfl | hmem
    · exact hnext
    · exact (hnum fd hmem).1
  have herase : ∀ k, fd ∈ io.fake_fds.erase k → 100 ≤ fd := fun k hmem =>
    (hnum fd (mem_erase_iff.mp hmem).2).1
  cases hc with
  | fresh t => exact hfresh t hfd
  | nscd k st st' hold =>
    rcases mem_insert_iff.mp hfd with rfl | hmem
    · exact (hnum _ (Std.TreeMap.mem_iff_isSome_getElem?.mpr (by simp [hold]))).1
    · exact (hnum fd hmem).1
  | accept k handle slot s _ hinet hlisten hfd' hlive hfree => exact hfresh .InetSocket hfd
  | close_other k _ hother => exact herase k hfd
  | close_plain k _ hinet hplain => exact herase k hfd
  | close_socket k handle s _ hinet hlisten hfd' hlive => exact herase k hfd
  | _ => exact (hnum fd hfd).1

/-- A file is opened below an empty slot below 100. -/
theorem FdTable.Takes.low {t t' : FdTable} {fd : Nat} {file : OpenFile} (h : t.Takes fd file t')
    (hlow : ∀ fd, t.get fd ≠ none → fd < 100) (hfree : ∃ fd, fd < 100 ∧ t.get fd = none) :
    fd < 100 ∧ ∀ i, t'.get i ≠ none → i < 100 := by
  obtain ⟨free, hlt, hnone⟩ := hfree
  have hfd : fd < 100 := by
    by_contra hge
    exact h.lowest free (by omega) hnone
  refine ⟨hfd, fun i hi => ?_⟩
  rw [h.get i] at hi
  split at hi
  · omega
  · exact hlow i hi

/-- The second end of a pipe: one of two empty slots is left. -/
theorem FdTable.Takes.left {t t' : FdTable} {fd : Nat} {file : OpenFile} (h : t.Takes fd file t')
    (hfree : ∃ fd fd', fd < fd' ∧ fd' < 100 ∧ t.get fd = none ∧ t.get fd' = none) :
    ∃ i, i < 100 ∧ t'.get i = none := by
  obtain ⟨i, j, hij, hj, hi, hj'⟩ := hfree
  have hfd : ¬ i < fd := fun hlt => h.lowest i hlt hi
  refine ⟨j, hj, ?_⟩
  rw [h.get j, if_neg (by omega)]
  exact hj'

/-- One call that meets the condition keeps the files below 100. -/
theorem low_step (hlow : ∀ fd, io.fd_table.get fd ≠ none → fd < 100) (hcond : LowCond io l)
    (hstep : IoStep env io l io') : ∀ fd, io'.fd_table.get fd ≠ none → fd < 100 := by
  obtain ⟨c, t, hc, hrun, rfl⟩ := hstep
  by_cases hnum : l.num ∈ openingCalls
  · have hopen : Opening io l.num l.args l.ret t.st := run_opening hc hnum hrun
    generalize t.st = io' at hopen
    intro fd hfd
    cases hopen with
    | failed _ hstore =>
      have htable : io'.fd_table = io.fd_table := congrArg Prod.fst hstore
      rw [htable] at hfd
      exact hlow fd hfd
    | openat fd' inode t' hnum htakes hret => exact (htakes.low hlow (hcond.openat hnum)).2 fd hfd
    | close hnum hstd =>
      have hfd : (io.fd_table.close (ofIsize (toIsize l.args.a0))).get fd ≠ none := hfd
      rw [FdTable.get_close] at hfd
      split at hfd
      · exact absurd rfl hfd
      · exact hlow fd hfd
    | dup file t' hnum hfile hget =>
      have hfd : t'.get fd ≠ none := hfd
      rw [hget fd] at hfd
      split at hfd
      · next heq =>
        have hlt := hcond.dup hnum (by rw [hfile]; exact Option.some_ne_none _)
        exact heq ▸ hlt
      · exact hlow fd hfd
    | pipe rfd wfd t1 t2 hnum hread hwrite =>
      have hpair := hcond.pipe hnum
      obtain ⟨i, j, hij, hj, hi, -⟩ := id hpair
      have hlow1 := (hread.low hlow ⟨i, by omega, hi⟩).2
      exact (hwrite.low hlow1 (hread.left hpair)).2 fd hfd
  · have hsame : t.st.fd_table.denotes = io.fd_table.denotes := (io_call_steady hc hnum).run hrun rfl
    intro fd hfd
    apply hlow fd
    rw [ne_eq, ← FdTable.denotes_eq_none] at hfd ⊢
    rwa [← hsame]

theorem Io.Parted.step (h : io.Parted) (hst : LTS.guarded LowCond (IoStep env) io l io') : io'.Parted := by
  obtain ⟨hcond, hstep⟩ := hst
  obtain ⟨hhigh, hnext⟩ := hstep.reach.invariant (fun _ _ => high_change) ⟨h.high, h.next⟩
  exact ⟨low_step h.low hcond hstep, hhigh, hnext⟩

theorem Io.Parted.boot (b : Fs.Blobs) : (Io.boot b).Parted where
  low := by
    intro fd hfd
    by_contra hge
    apply hfd
    show FdTable.new.files[fd]?.join = none
    rw [List.getElem?_eq_none (by simp [FdTable.new]; omega)]
    rfl
  high := by
    intro fd hfd
    exact absurd hfd Std.TreeMap.not_mem_emptyc
  next := Nat.le_refl _

/-- The next numbers of the counter are new. -/
theorem Io.Parted.counter_new (h : io.Parted) {n : Nat} (hn : io.fake_fd_next ≤ n) :
    io.fd_table.get n = none ∧ n ∉ io.fake_fds := by
  have hnext := h.next
  constructor
  · by_contra hsome
    have := h.low n hsome
    omega
  · intro hmem
    have := (h.high n hmem).2
    omega

/-- So is an empty slot below 100. -/
theorem Io.Parted.slot_new (h : io.Parted) {n : Nat} (hn : n < 100) (hnone : io.fd_table.get n = none) :
    io.fd_table.get n = none ∧ n ∉ io.fake_fds := by
  refine ⟨hnone, fun hmem => ?_⟩
  have := (h.high n hmem).1
  omega

theorem post_fresh_number (t : FakeFdType) :
    post (do let fd ← fake_fd_alloc; fake_fd_insert fd t; return toIsize fd : IoM Int)
      (fun r _ _ => r = toIsize io.fake_fd_next) (fun _ _ => True) io := by
  simp [fake_fd_alloc, fake_fd_insert]

theorem post_socket_number (domain : Int) :
    post (sys_socket domain) (fun r _ _ => r = toIsize io.fake_fd_next ∨ r < 0) (fun _ _ => True) io := by
  simp only [sys_socket, fake_fd_alloc, fake_fd_insert, post_bind, post_get, post_modify, post_pure]
  split
  · exact Or.inl rfl
  · split
    · exact Or.inl rfl
    · exact Or.inr (by decide)

theorem post_socketpair_numbers (sv : Ptr) :
    post (sys_socketpair sv)
      (fun _ _ lg => lg true = leBytes 4 io.fake_fd_next ++ leBytes 4 (io.fake_fd_next + 1))
      (fun _ _ => True) io := by
  simp [sys_socketpair, fake_fd_alloc, fake_fd_insert]

theorem post_accept_number (fd : Int) (addr addrlen : Ptr) :
    post (sys_accept env fd addr addrlen) (fun r _ _ => r = toIsize io.fake_fd_next ∨ r < 0)
      (fun _ _ => True) io := by
  by_cases hinet : io.fake_fds[ofIsize fd]? = some .InetSocket
  · refine (post_accept_inet fd addr addrlen hinet).mono ?_ fun _ _ _ => trivial
    intro r t _ h
    cases h with
    | early hlisten => exact Or.inr (by decide)
    | again => exact Or.inr (by decide)
    | connection handle slot s hlisten hfd hlive hconn hfree => exact Or.inl rfl
  · have hother : (io.fake_fds[ofIsize fd]? == some .InetSocket) = false := by simpa using hinet
    simp only [sys_accept, is_inet_socket, is_fake_fd, post_bind, post_get, post_pure, hother,
      Bool.false_eq_true, if_false]
    split
    · exact (post_fresh_number .InetSocket).mono (fun _ _ _ hr => Or.inl hr) fun _ _ h => h
    · exact Or.inr (by decide)

/-- The two words of eight bytes. -/
theorem leNat_pair {a b : Nat} (ha : a < 2 ^ 32) (hb : b < 2 ^ 32) :
    leNat ((leBytes 4 a ++ leBytes 4 b).take 4) = a ∧ leNat ((leBytes 4 a ++ leBytes 4 b).drop 4) = b := by
  rw [List.take_left' (length_leBytes 4 a), List.drop_left' (length_leBytes 4 a), leNat_leBytes, leNat_leBytes]
  exact ⟨Nat.mod_eq_of_lt ha, Nat.mod_eq_of_lt hb⟩

/-- **New numbers.**  A number that a call hands out was in neither table. -/
theorem Io.Parted.hands (h : io.Parted) (hst : LTS.guarded LowCond (IoStep env) io l io') {n : Nat}
    (hn : l.Hands env io n) : io.fd_table.get n = none ∧ n ∉ io.fake_fds := by
  obtain ⟨hcond, c, t, hc, hrun, rfl⟩ := hst
  obtain ⟨root, mem, heap, num, a, ret⟩ := l
  obtain ⟨hpos, ⟨hnum, hret⟩ | ⟨hnum, c', hc', hword⟩⟩ := hn
  · have hcounter := hcond.counter
    -- the calls that take the next number of the counter
    have hnew : ret = toIsize io.fake_fd_next ∨ ret < 0 → io.fd_table.get n = none ∧ n ∉ io.fake_fds := by
      rintro (heq | hneg)
      · rw [toIsize_of_lt (by omega)] at heq
        dsimp only at hret
        exact h.counter_new (by omega)
      · dsimp only at hpos
        omega
    simp only [returningCalls, List.mem_cons, List.not_mem_nil, or_false] at hnum
    rcases hnum with rfl | rfl | rfl | rfl | rfl | rfl <;> cases hc
    · exact hnew (Or.inl ((post_fresh_number .EventFd).ok hrun))
    · exact hnew (Or.inl ((post_fresh_number .Epoll).ok hrun))
    · rcases (post_openat (user a.a1) (toIsize a.a2)).ok hrun with ⟨hneg, -⟩ | ⟨inode, fd, t', htakes, hfd, -⟩
      · dsimp only at hpos hneg
        omega
      · have hlow := (htakes.low h.low (hcond.openat rfl)).1
        dsimp only at hret hfd
        obtain rfl : fd = n := by omega
        exact h.slot_new hlow htakes.empty
    · exact hnew ((post_socket_number _).ok hrun)
    · exact hnew ((post_accept_number _ _ _).ok hrun)
    · exact hnew ((post_accept_number _ _ _).ok hrun)
  · obtain rfl : c = c' := Option.some.inj (hc.symm.trans hc')
    have hcounter := hcond.counter
    simp only [pairCalls, List.mem_cons, List.not_mem_nil, or_false] at hnum
    rcases hnum with rfl | rfl <;> cases hc
    · obtain ⟨rfd, wfd, t1, t2, hread, hwrite, -, -, hmoved⟩ := (post_pipe2 (user a.a0)).ok hrun
      have hpair := hcond.pipe rfl
      obtain ⟨i, j, hij, hj, hi, -⟩ := id hpair
      obtain ⟨hrfd, hlow1⟩ := hread.low h.low ⟨i, by omega, hi⟩
      have hwfd := (hwrite.low hlow1 (hread.left hpair)).1
      obtain ⟨hfst, hsnd⟩ := leNat_pair (a := rfd) (b := wfd) (by omega) (by omega)
      dsimp only [IoLabel.start] at hmoved hword
      rw [hmoved, hfst, hsnd] at hword
      rcases hword with rfl | rfl
      · exact h.slot_new hrfd hread.empty
      · -- the second slot was empty before the first was taken
        have hempty := hwrite.empty
        rw [hread.get] at hempty
        split at hempty
        · cases hempty
        · exact h.slot_new hwfd hempty
    · have hmoved := (post_socketpair_numbers (user a.a3)).ok hrun
      obtain ⟨hfst, hsnd⟩ := leNat_pair (a := io.fake_fd_next) (b := io.fake_fd_next + 1) (by omega) (by omega)
      dsimp only [IoLabel.start] at hmoved hword
      rw [hmoved, hfst, hsnd] at hword
      rcases hword with rfl | rfl
      · exact h.counter_new (Nat.le_refl _)
      · exact h.counter_new (Nat.le_succ _)

end Numbers

/-- **Numbers.**  In every run from boot whose calls all meet the condition, no
    number is in both tables, and a number that the next call hands out is in neither. -/
theorem numbers_apart (env : Env) (b : Fs.Blobs) {io : Io} {ls : List IoLabel}
    (hrun : LTS.Steps (LTS.guarded LowCond (IoStep env)) (Io.boot b) ls io) :
    (∀ fd, ¬ (io.fd_table.get fd ≠ none ∧ fd ∈ io.fake_fds)) ∧
    ∀ l io', LTS.guarded LowCond (IoStep env) io l io' → ∀ n, l.Hands env io n →
      io.fd_table.get n = none ∧ n ∉ io.fake_fds := by
  have h : io.Parted := LTS.Steps.invariant (fun _ _ _ h hst => h.step hst) hrun (.boot b)
  constructor
  · intro fd hboth
    have hlow := h.low fd hboth.1
    have hhigh := (h.high fd hboth.2).1
    omega
  · intro l io' hst n hn
    exact h.hands hst hn

/-- A socket of the family `AF_INET`. -/
def socketCall : Args := ⟨2, 0, 0, 0, 0, 0⟩

/-- The first socket after boot gets 100, which is in neither table. -/
theorem numbers_apart_socket : ∃ io' : Io,
    LTS.guarded LowCond (IoStep .idle) (Io.boot Fs.noBlobs)
      ⟨1, onePage, init_heap, 198, socketCall, 100⟩ io' ∧
    (∀ fd, ¬ (io'.fd_table.get fd ≠ none ∧ fd ∈ io'.fake_fds)) ∧
    (Io.boot Fs.noBlobs).fd_table.get 100 = none ∧ 100 ∉ (Io.boot Fs.noBlobs).fake_fds := by
  have hexec : ((Io.boot Fs.noBlobs).exec .idle 198 socketCall).map (·.1) = some 100 := by
    decide +kernel
  obtain ⟨⟨r, io'⟩, hexec, rfl⟩ := Option.map_eq_some_iff.mp hexec
  have hcond : LowCond (Io.boot Fs.noBlobs) ⟨1, onePage, init_heap, 198, socketCall, 100⟩ :=
    ⟨fun h => absurd h (by decide), fun h => absurd h (by decide), fun h => absurd h (by decide),
      (by decide : 100 + 2 ≤ 2 ^ 31)⟩
  have hstep : LTS.guarded LowCond (IoStep .idle) (Io.boot Fs.noBlobs)
      ⟨1, onePage, init_heap, 198, socketCall, 100⟩ io' := ⟨hcond, Io.exec_step hexec⟩
  refine ⟨io', hstep, (numbers_apart .idle Fs.noBlobs (.single hstep)).1, ?_⟩
  exact (numbers_apart .idle Fs.noBlobs (.nil _)).2 _ io' hstep 100 ⟨by decide, Or.inl ⟨by decide, rfl⟩⟩

/-- **Counterexample**: standard input is copied to 100; the next socket gets 100
    as well, although it is taken, and is then in both tables. -/
theorem dup2_takes_number : ∃ io io' : Io,
    IoStep .idle (Io.boot Fs.noBlobs) ⟨1, onePage, init_heap, 24, ⟨0, 100, 0, 0, 0, 0⟩, 100⟩ io ∧
    IoStep .idle io ⟨1, onePage, init_heap, 198, socketCall, 100⟩ io' ∧
    io.fd_table.get 100 ≠ none ∧ io'.fd_table.get 100 ≠ none ∧ 100 ∈ io'.fake_fds := by
  have hscript : ((Io.boot Fs.noBlobs).exec .idle 24 ⟨0, 100, 0, 0, 0, 0⟩).bind (fun p =>
      (p.2.exec .idle 198 socketCall).map fun q =>
        (p.1, q.1, (p.2.fd_table.get 100).isSome, (q.2.fd_table.get 100).isSome,
          q.2.fake_fds.contains 100)) = some (100, 100, true, true, true) := by
    decide +kernel
  obtain ⟨⟨r, io⟩, hdup, hscript⟩ := Option.bind_eq_some_iff.mp hscript
  obtain ⟨⟨r', io'⟩, hsocket, hvals⟩ := Option.map_eq_some_iff.mp hscript
  simp only [Prod.mk.injEq] at hvals
  obtain ⟨rfl, rfl, hold, hnew, hfake⟩ := hvals
  refine ⟨io, io', Io.exec_step hdup, Io.exec_step hsocket, ?_, ?_, Std.TreeMap.mem_iff_contains.mpr hfake⟩
  · exact Option.isSome_iff_ne_none.mp hold
  · exact Option.isSome_iff_ne_none.mp hnew

/-! ## Section 4: Copies -/

/-- The calls on an open file. -/
inductive FdCall where
  | read (buf : Ptr) (count : Nat)
  | write (buf : Ptr) (count : Nat)
  | writev (iov : Ptr) (iovcnt : Nat)
  | lseek (offset whence : Int)
  | fstat (buf : Ptr)

/-- The call on the descriptor `fd`. -/
def FdCall.on (env : Env) (fd : Int) : FdCall → IoM Int
  | read buf count => sys_read env fd buf count
  | write buf count => sys_write env fd buf count
  | writev iov iovcnt => sys_writev env fd iov iovcnt
  | lseek offset whence => sys_lseek fd offset whence
  | fstat buf => sys_fstat fd buf

/-- Calls one after another, each on the descriptor or on its copy: the results. -/
def spread (env : Env) (fd copy : Int) : List (FdCall × Bool) → IoM (List Int)
  | [] => return []
  | (c, onCopy) :: cs => do
    let r ← c.on env (if onCopy then copy else fd)
    let rs ← spread env fd copy cs
    return r :: rs

/-- What calls on an open file leave to be seen. -/
structure Seen where
  results : List Int
  mem : Mem
  fs : Fs
  pipes : Std.TreeMap Nat PipeInner
  uart_in : List UInt8
  uart_out : List UInt8
  position : Option Nat

/-- What a run leaves, with the position of `fd`, or how it halts. -/
def seen (M : Machine HeapAllocator Halt) (fd : Int) (c : IoM (List Int)) (s : St HeapAllocator Io) :
    Except Halt Seen :=
  match run M c s with
  | .ok rs t => .ok ⟨rs, t.mem, t.st.fs, t.st.pipes, t.st.uart_in, t.st.uart_out,
      (t.st.fd_table.get (ofIsize fd)).map OpenFile.offset⟩
  | .error e _ => .error e

/-- The descriptors are aliases: calls spread over both are seen to do what they
    do on the first alone. -/
def Aliases (env : Env) (M : Machine HeapAllocator Halt) (s : St HeapAllocator Io) (fd copy : Int) : Prop :=
  ∀ cs, seen M fd (spread env fd copy cs) s = seen M fd (spread env fd fd cs) s

section Copies

variable {env : Env} {M : Machine HeapAllocator Halt} {s t : St HeapAllocator Io} {oldfd newfd : Int}

/-- Two seeks, the second of which tells the position. -/
def seekTell : List (FdCall × Bool) := [(.lseek 1 1, false), (.lseek 0 1, true)]

theorem seen_results {fd copy : Int} {rs : List Int} {cs : List (FdCall × Bool)}
    (hrun : run M (spread env fd copy cs) s = .ok rs t) :
    (seen M fd (spread env fd copy cs) s).toOption.map Seen.results = some rs := by
  simp only [seen, hrun]
  rfl

theorem run_spread_cons {fd copy r : Int} {c : FdCall} {onCopy : Bool} {cs : List (FdCall × Bool)}
    {rs : List Int} {u : St HeapAllocator Io}
    (hfirst : run M (c.on env (if onCopy then copy else fd)) s = .ok r t)
    (hrest : run M (spread env fd copy cs) t = .ok rs u) :
    run M (spread env fd copy ((c, onCopy) :: cs)) s = .ok (r :: rs) u := by
  unfold spread
  rw [run_bind_of_ok M hfirst, run_bind_of_ok M hrest]
  rfl

variable (env M) in
/-- A seek by 1 on the first descriptor, then the position of the second. -/
theorem seekTell_run {of of' : OpenFile} (hof : s.st.fd_table.get (ofIsize oldfd) = some of)
    (hof' : (s.st.seeked (ofIsize oldfd) of (ofIsize (of.offset + 1))).fd_table.get (ofIsize newfd) = some of') :
    ∃ t, run M (spread env oldfd newfd seekTell) s =
      .ok [toIsize (ofIsize (of.offset + 1)), toIsize (ofIsize (of'.offset + 0))] t := by
  have hbase : seek_base s.st of 1 = some of.offset := rfl
  have hfirst : run M (sys_lseek oldfd 1 1) s = .ok (toIsize (ofIsize (of.offset + 1)))
      { s with st := s.st.seeked (ofIsize oldfd) of (ofIsize (of.offset + 1)) } := run_lseek hof hbase
  let s1 : St HeapAllocator Io :=
    { s with st := s.st.seeked (ofIsize oldfd) of (ofIsize (of.offset + 1)) }
  have hbase' : seek_base s1.st of' 1 = some of'.offset := rfl
  have hsecond : run M (sys_lseek newfd 0 1) s1 = .ok (toIsize (ofIsize (of'.offset + 0)))
      { s1 with st := s1.st.seeked (ofIsize newfd) of' (ofIsize (of'.offset + 0)) } := run_lseek hof' hbase'
  exact ⟨_, run_spread_cons hfirst (run_spread_cons hsecond rfl)⟩

/-- **Copies.**  A descriptor and its copy are aliases exactly if they are one
    and the same: the copy has its own position. -/
theorem dup2_aliases (env : Env) (M : Machine HeapAllocator Halt) (s t : St HeapAllocator Io)
    (a b : Nat) (hpos : 0 ≤ toIsize b)
    (hrun : run M (sys_dup2 (toIsize a) (toIsize b)) s = .ok (toIsize b) t) :
    Aliases env M t (toIsize a) (toIsize b) ↔ toIsize a = toIsize b := by
  generalize hold : toIsize a = oldfd at *
  generalize hnew : toIsize b = newfd at *
  rcases (post_dup2 oldfd newfd).ok hrun with ⟨-, hneg, -⟩ | ⟨of, t', hof, -, ht, hget⟩
  · omega
  · constructor
    · intro halias
      by_contra hfds
      have hne : ofIsize oldfd ≠ ofIsize newfd := by
        intro heq
        apply hfds
        rw [← hold, ← hnew] at heq ⊢
        rw [← toIsize_ofIsize a, heq, toIsize_ofIsize]
      have hfile : t.st.fd_table.get (ofIsize oldfd) = some of := by
        rw [ht]
        exact (hget _).trans ((if_neg hne).trans hof)
      have hcopy : t.st.fd_table.get (ofIsize newfd) = some of := by
        rw [ht]
        exact (hget _).trans (if_pos rfl)
      -- the seek moves the first descriptor only
      have hmoved : (t.st.seeked (ofIsize oldfd) of (ofIsize (of.offset + 1))).fd_table.get (ofIsize newfd) =
          some of := by
        rw [Io.seeked, FdTable.get_put, if_neg fun h => hne h.1.symm]
        exact hcopy
      obtain ⟨u, hspread⟩ := seekTell_run env M hfile hmoved
      obtain ⟨u', hsame⟩ := seekTell_run env M hfile (get_seeked hfile _)
      have heq := (seen_results hspread).symm.trans
        ((congrArg (fun x => x.toOption.map Seen.results) (halias seekTell)).trans (seen_results hsame))
      simp only [Option.some.injEq, List.cons.injEq, and_true, true_and] at heq
      have h0 := ofIsize_eq (of.offset + 0)
      have h1 := ofIsize_eq (of.offset + 1)
      have h2 := ofIsize_eq (ofIsize (of.offset + 1) + 0)
      have hlt0 := ofIsize_lt (of.offset + 0)
      have hlt2 := ofIsize_lt (ofIsize (of.offset + 1) + 0)
      rw [toIsize_eq hlt0, toIsize_eq hlt2] at heq
      split at heq <;> split at heq <;> omega
    · intro hsame cs
      rw [hsame]

end Copies

/-- Standard output, copied to itself after boot, is its own alias. -/
theorem dup2_aliases_self : ∃ t : St HeapAllocator Io,
    run (machine 1) (sys_dup2 (toIsize 1) (toIsize 1)) ⟨onePage, init_heap, Io.boot Fs.noBlobs⟩ =
      .ok (toIsize 1) t ∧ Aliases .idle (machine 1) t (toIsize 1) (toIsize 1) := by
  have hexec : ((Io.boot Fs.noBlobs).exec .idle 24 ⟨1, 1, 0, 0, 0, 0⟩).map (·.1) = some (toIsize 1) := by
    decide +kernel
  obtain ⟨⟨r, io⟩, hexec, rfl⟩ := Option.map_eq_some_iff.mp hexec
  obtain ⟨c, t, hc, hrun, -⟩ := Io.exec_step hexec
  cases hc
  exact ⟨t, hrun, (dup2_aliases .idle (machine 1) _ t 1 1 (by decide +kernel) hrun).mpr rfl⟩

/-- Four bytes, written to the copy. -/
def writeCopy : List (FdCall × Bool) := [(.write (user 0) 4, true)]

/-- **Counterexample**: standard output is copied to 3, and 3 is returned.  Four
    bytes written to 1 are printed; written to 3 they are lost, and 0 is returned. -/
theorem dup2_no_alias : ∃ io : Io,
    IoStep .idle (Io.boot Fs.noBlobs) ⟨1, onePage, init_heap, 24, ⟨1, 3, 0, 0, 0, 0⟩, 3⟩ io ∧
    (seen (machine 1) 1 (spread .idle 1 3 writeCopy) ⟨onePage, init_heap, io⟩).toOption.map
      (fun x => (x.results, x.uart_out)) = some ([0], []) ∧
    (seen (machine 1) 1 (spread .idle 1 1 writeCopy) ⟨onePage, init_heap, io⟩).toOption.map
      (fun x => (x.results, x.uart_out)) = some ([4], [0, 0, 0, 0]) ∧
    ¬ Aliases .idle (machine 1) ⟨onePage, init_heap, io⟩ 1 3 := by
  have hret : ((Io.boot Fs.noBlobs).exec .idle 24 ⟨1, 3, 0, 0, 0, 0⟩).map (·.1) = some 3 := by
    decide +kernel
  have hcopy : ((Io.boot Fs.noBlobs).exec .idle 24 ⟨1, 3, 0, 0, 0, 0⟩).bind (fun p =>
      (seen (machine 1) 1 (spread .idle 1 3 writeCopy) ⟨onePage, init_heap, p.2⟩).toOption.map
        fun x => (x.results, x.uart_out)) = some ([0], []) := by
    decide +kernel
  have hsame : ((Io.boot Fs.noBlobs).exec .idle 24 ⟨1, 3, 0, 0, 0, 0⟩).bind (fun p =>
      (seen (machine 1) 1 (spread .idle 1 1 writeCopy) ⟨onePage, init_heap, p.2⟩).toOption.map
        fun x => (x.results, x.uart_out)) = some ([4], [0, 0, 0, 0]) := by
    decide +kernel
  obtain ⟨⟨r, io⟩, hexec, rfl⟩ := Option.map_eq_some_iff.mp hret
  rw [hexec, Option.bind_some] at hcopy hsame
  refine ⟨io, Io.exec_step hexec, hcopy, hsame, fun halias => ?_⟩
  rw [halias writeCopy, hsame] at hcopy
  cases hcopy

/-! ## Section 5: Copies to any number -/

/-- `FdTable::dup2` returns, without a change if it returns false; if it returns
    true, the new descriptor has the open file of the old one and all others are
    as they were. -/
def FdTable.CopyRight (root : Nat) (s : St HeapAllocator Io) (t : FdTable) (oldfd newfd : Nat) : Prop :=
  ∃ t' ok s', run (machine root) (t.dup2 oldfd newfd) s = .ok (t', ok) s' ∧
    (ok = false → t' = t) ∧
    (ok = true → t.get oldfd ≠ none ∧ t'.get newfd = t.get oldfd ∧
      ∀ fd, fd ≠ newfd → t'.get fd = t.get fd)

/-- The vector has room for `n` slots, or the heap for a vector that has. -/
def FdTable.Room (t : FdTable) (h : HeapAllocator) (n : Nat) : Prop :=
  n ≤ t.cap ∨ (h.current + 7) / 8 * 8 + max (max (2 * t.cap) n) 4 * FdTable.slotSize ≤ h.end_

section Growing

variable {root : Nat} {s : St HeapAllocator Io} {t : FdTable} {oldfd newfd : Nat}

theorem run_allocZeroed_iff {n l : Nat} :
    (∃ a s', run (machine root) (Code.allocZeroed n l : IoM Nat) s = .ok a s') ↔
      ∃ a h', heap_alloc s.heap n l = (some a, h') := by
  have hrun : (machine root).alloc s.heap n l = heap_alloc s.heap n l := rfl
  simp only [Code.allocZeroed, run, hrun]
  rcases heap_alloc s.heap n l with ⟨_ | a, h⟩ <;> simp

variable (root) in
theorem run_reserve_slots_iff (hok : s.heap.Ok) {n : Nat} (hlen : t.files.length < n) (hn : n < 2 ^ 64) :
    (∃ cap s', run (machine root)
      (vec_reserve FdTable.slotSize 3 t.files.length t.cap (n - t.files.length) : IoM Nat) s = .ok cap s') ↔
      t.Room s.heap n := by
  have hend := hok.end_eq
  unfold vec_reserve FdTable.Room
  by_cases hcap : n ≤ t.cap
  · rw [if_pos (by omega)]
    exact ⟨fun _ => Or.inl hcap, fun _ => ⟨_, _, rfl⟩⟩
  · rw [if_neg (by omega)]
    simp only [show ¬ FdTable.slotSize = 1 by decide, if_false, Nat.add_sub_cancel' hlen.le, hcap, false_or]
    rw [← heap_alloc_words hok]
    generalize max (max (2 * t.cap) n) 4 * FdTable.slotSize = bytes
    by_cases hbig : n ≥ 2 ^ 64 ∨ bytes > isizeMax
    · -- the size overflows, and the heap is not that large
      rw [if_pos hbig, heap_alloc_words hok]
      refine ⟨?_, fun hle => ?_⟩
      · rintro ⟨cap, s', heq⟩
        cases heq
      · unfold isizeMax at hbig
        omega
    · rw [if_neg hbig, ← run_allocZeroed_iff]
      constructor
      · rintro ⟨cap, s', hrun⟩
        obtain ⟨a, u, halloc, -⟩ := (run_bind_ok _).mp hrun
        exact ⟨a, u, halloc⟩
      · rintro ⟨a, u, halloc⟩
        exact ⟨_, u, (run_bind_ok _).mpr ⟨a, u, halloc, rfl⟩⟩

variable (root) in
/-- Growing the table: it returns if there is room, and keeps all slots. -/
theorem run_resize_iff (hok : s.heap.Ok) {n : Nat} (hlen : t.files.length < n) (hn : n < 2 ^ 64) :
    (∃ t' s', run (machine root) (t.resize n : IoM FdTable) s = .ok t' s') ↔ t.Room s.heap n := by
  rw [← run_reserve_slots_iff root hok hlen hn]
  unfold FdTable.resize
  rw [if_neg (by omega)]
  constructor
  · rintro ⟨t', s', hrun⟩
    obtain ⟨cap, u, hres, -⟩ := (run_bind_ok _).mp hrun
    exact ⟨cap, u, hres⟩
  · rintro ⟨cap, u, hres⟩
    exact ⟨_, u, (run_bind_ok _).mpr ⟨cap, u, hres, rfl⟩⟩

variable (root) in
/-- When `dup2` returns. -/
theorem run_dup2_iff (hok : s.heap.Ok) (hnew : newfd < 2 ^ 64) :
    (∃ p s', run (machine root) (t.dup2 oldfd newfd : IoM (FdTable × Bool)) s = .ok p s') ↔
      t.get oldfd = none ∨ newfd < t.files.length ∨ newfd + 1 < 2 ^ 64 ∧ t.Room s.heap (newfd + 1) := by
  unfold FdTable.dup2
  cases hget : t.get oldfd with
  | none => exact ⟨fun _ => Or.inl rfl, fun _ => ⟨_, _, rfl⟩⟩
  | some file =>
    simp only [reduceCtorEq, false_or]
    by_cases hlt : newfd < t.files.length
    · rw [if_neg (by omega), run_bind_of_ok _ (run_pure _ t s), if_neg (by omega)]
      exact ⟨fun _ => Or.inl hlt, fun _ => ⟨_, _, rfl⟩⟩
    · rw [if_pos (by omega)]
      simp only [hlt, false_or]
      by_cases hwrap : newfd + 1 < 2 ^ 64
      · simp only [hwrap, true_and, wadd_of_lt hwrap]
        rw [← run_resize_iff root hok (by omega) hwrap]
        constructor
        · rintro ⟨p, s', hrun⟩
          obtain ⟨t', u, hres, -⟩ := (run_bind_ok _).mp hrun
          exact ⟨t', u, hres⟩
        · rintro ⟨t', u, hres⟩
          have hlen := ((post_fd_resized t (by omega)).ok hres).2.1
          refine ⟨(t'.put newfd file, true), u, (run_bind_ok _).mpr ⟨t', u, hres, ?_⟩⟩
          rw [if_neg (by omega)]
          rfl
      · -- the new length is 0, and the slot is outside
        have hzero : wadd newfd 1 = 0 := by
          rw [wadd]
          omega
        simp only [hwrap, false_and, iff_false]
        rintro ⟨p, s', hrun⟩
        obtain ⟨t', u, hres, hrun⟩ := (run_bind_ok _).mp hrun
        rw [hzero, FdTable.resize, if_pos (Nat.zero_le _)] at hres
        cases hres
        rw [if_pos (by simp)] at hrun
        cases hrun

/-- **Copying.**  `FdTable::dup2` is right just if the old descriptor is closed, or
    the table has the new slot, or it can grow to have it: the length does not
    wrap, and there is room for that many slots. -/
theorem dup2_right_iff (root : Nat) (s : St HeapAllocator Io) (t : FdTable) (oldfd newfd : Nat)
    (hok : s.heap.Ok) (hnew : newfd < 2 ^ 64) :
    t.CopyRight root s oldfd newfd ↔
      t.get oldfd = none ∨ newfd < t.files.length ∨ newfd + 1 < 2 ^ 64 ∧ t.Room s.heap (newfd + 1) := by
  rw [← run_dup2_iff root hok hnew]
  constructor
  · rintro ⟨t', ok, s', hrun, -⟩
    exact ⟨(t', ok), s', hrun⟩
  · rintro ⟨⟨t', ok⟩, s', hrun⟩
    refine ⟨t', ok, s', hrun, ?_⟩
    rcases ((post_fd_copied t hnew).ok hrun).2 with ⟨-, heq⟩ | ⟨file, hfile, hok', hget⟩
    · cases heq
      exact ⟨fun _ => rfl, fun h => by cases h⟩
    · dsimp only at hok'
      subst hok'
      refine ⟨fun h => absurd h (by decide), fun _ => ⟨?_, ?_, ?_⟩⟩
      · rw [hfile]
        exact Option.some_ne_none _
      · rw [hfile]
        exact (hget newfd).trans (if_pos rfl)
      · intro fd hne
        exact (hget fd).trans (if_neg hne)

end Growing

/-- At boot, standard input is copied to descriptor 3. -/
theorem dup2_right_three : FdTable.new.CopyRight 1 ⟨onePage, init_heap, .new⟩ 0 3 :=
  (dup2_right_iff 1 ⟨onePage, init_heap, .new⟩ FdTable.new 0 3 init_heap_ok (by decide)).mpr
    (Or.inr (Or.inr ⟨by decide, Or.inl (by decide)⟩))

/-- **Counterexample**: standard input copied to -1.  The length wraps to 0, all
    descriptors are dropped, and the copy panics. -/
theorem dup2_to_minus_one :
    Prog.value (run (machine 1) (FdTable.new.resize (wadd (ofIsize (-1)) 1) : IoM FdTable)
      ⟨onePage, init_heap, .new⟩) = some ⟨[], 64⟩ ∧
    (∃ s', run (machine 1) (FdTable.new.dup2 0 (ofIsize (-1)) : IoM _) ⟨onePage, init_heap, .new⟩ =
      .error (.panic "index out of bounds") s') ∧
    ¬ FdTable.new.CopyRight 1 ⟨onePage, init_heap, .new⟩ 0 (ofIsize (-1)) := by
  have hminus : ofIsize (-1) = 2 ^ 64 - 1 := by decide +kernel
  have hzero : wadd (2 ^ 64 - 1) 1 = 0 := by
    rw [wadd]
    decide
  rw [hminus, hzero]
  have hrun : run (machine 1) (FdTable.new.dup2 0 (2 ^ 64 - 1) : IoM _) ⟨onePage, init_heap, .new⟩ =
      .error (.panic "index out of bounds") ⟨onePage, init_heap, .new⟩ := by
    have hget : FdTable.new.get 0 = some FdTable.stdio := rfl
    simp only [FdTable.dup2, hget, hzero]
    rfl
  refine ⟨rfl, ⟨_, hrun⟩, ?_⟩
  rintro ⟨t', ok, s', heq, -⟩
  rw [hrun] at heq
  cases heq

end Rvos

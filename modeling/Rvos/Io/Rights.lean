import Rvos.Io.Slots

/-! # Access rights

    `OpenFile` has the fields `readable` and `writable`, and no handler looks at
    them.  The rights of a descriptor are therefore followed beside the run, by
    the flags it was opened with.

    * `Io.Kept` : bytes have been written through one descriptor only.  One lemma
      for each call (`kept_*`), and `io_call_kept` for the table.
    * `Grants` : the rights that `openat`, `pipe2` and `dup2` have given.
    * `access_right` : in every run whose calls keep to the rights of their
      descriptors, files and pipes change through writable descriptors only, and
      calls on closed descriptors fail; `write_to_read_end` is what happens
      otherwise. -/

namespace Rvos

open Access Access.Code ByteMem Usize

/-! ## Section 1: Through one descriptor -/

/-- The descriptor, if there is one, is open on the file. -/
def Io.Names (io : Io) (via : Option Nat) (path : Path) : Prop :=
  ∃ fd of, via = some fd ∧ io.fd_table.get fd = some of ∧ io.fs.inode_map[of.inode]? = some path

/-- The descriptor, if there is one, is an end of the pipe. -/
def Io.NamesPipe (io : Io) (via : Option Nat) (id : Nat) : Prop :=
  ∃ fd of, via = some fd ∧ io.fd_table.get fd = some of ∧ of.pipe_id = some id

/-- Since `io0`, bytes have been written through the descriptor `via` only: other
    files are the same, and nothing has been put into other pipes. -/
structure Io.Kept (via : Option Nat) (io0 io : Io) : Prop where
  files : ∀ path f, io0.fs.files[path]? = some f → io.fs.files[path]? = some f ∨ io0.Names via path
  pipes : ∀ (id : Nat) p, io0.pipes[id]? = some p →
    (∃ p', io.pipes[id]? = some p' ∧ p'.buf = p.buf ∧ p'.tail = p.tail) ∨ io0.NamesPipe via id
  absent : ∀ id : Nat, io0.pipes[id]? = none → io.pipes[id]? = none
  next : io.next_pipe_id = io0.next_pipe_id
  inodes : io.fs.inode_map = io0.fs.inode_map
  denotes : io.Denotes io0.fd_table.denotes

theorem Io.Kept.refl (via : Option Nat) (io : Io) : Io.Kept via io io where
  files := fun _ _ h => Or.inl h
  pipes := fun _ p h => Or.inl ⟨p, h, rfl, rfl⟩
  absent := fun _ h => h
  next := rfl
  inodes := rfl
  denotes := rfl

section Kept

variable {env : Env} {via : Option Nat} {io0 io : Io}

theorem Outer.kept {α : Type} {c : IoM α} (h : Outer c) : Keeps (Io.Kept via io0) c := by
  apply h.keeps
  intro io io' hstore hkept
  simp only [Io.store, Prod.mk.injEq] at hstore
  obtain ⟨htable, hfs, hpipes, hnext⟩ := hstore
  exact ⟨by rw [hfs]; exact hkept.files, by rw [hpipes]; exact hkept.pipes, by rw [hpipes]; exact hkept.absent,
    by rw [hnext]; exact hkept.next, by rw [hfs]; exact hkept.inodes, by
      unfold Io.Denotes
      rw [htable]
      exact hkept.denotes⟩

/-- A descriptor that is open has been so with the same inode and pipe. -/
theorem Io.Kept.source (h : Io.Kept via io0 io) {fd : Nat} {of : OpenFile} (hof : io.fd_table.get fd = some of) :
    ∃ of0, io0.fd_table.get fd = some of0 ∧ of0.inode = of.inode ∧ of0.pipe_id = of.pipe_id := by
  obtain ⟨of0, hget, heq⟩ := Option.map_eq_some_iff.mp (h.denotes.of_get hof)
  simp only [OpenFile.mk.injEq] at heq
  exact ⟨of0, hget, heq.1, heq.2.2.2.2⟩

theorem kept_fd_put (h : Io.Kept via io0 io) {fd : Nat} {of : OpenFile}
    (hd : io0.fd_table.denotes fd = some { of with offset := 0 }) : KeepsAt (Io.Kept via io0) (fd_put fd of) io := by
  have hdenotes := steady_fd_put h.denotes hd
  exact ⟨h.files, h.pipes, h.absent, h.next, h.inodes, hdenotes⟩

theorem kept_write_inode {inode : Nat} (hvia : ∀ path, io0.fs.inode_map[inode]? = some path → io0.Names via path)
    (buf : List UInt8) (offset : Nat) : Keeps (Io.Kept via io0) (write_inode inode buf offset) := by
  intro io h
  unfold KeepsAt write_inode
  rw [post_bind, post_get]
  cases hpath : io.fs.inode_map[inode]? with
  | none =>
    simp only [hpath]
    exact h
  | some path =>
    have hname : io0.Names via path := hvia path (h.inodes ▸ hpath)
    -- a file that is replaced is the one of the descriptor
    have hput : ∀ (io : Io) (f : File), Io.Kept via io0 io →
        Io.Kept via io0 { io with fs := { io.fs with files := io.fs.files.insert path f } } := by
      intro io f h
      refine ⟨?_, h.pipes, h.absent, h.next, h.inodes, h.denotes⟩
      intro q f' hf'
      by_cases hq : q = path
      · exact Or.inr (hq ▸ hname)
      · have hget : (io.fs.files.insert path f)[q]? = io.fs.files[q]? := by
          rw [Std.TreeMap.getElem?_insert, if_neg (fun he => hq (Std.LawfulEqCmp.eq_of_compare he).symm)]
        rcases h.files q f' hf' with hsame | hvia
        · exact Or.inl (hget.trans hsame)
        · exact Or.inr hvia
    cases hfile : io.fs.files[path]? with
    | none =>
      simp only [hpath, hfile]
      exact h
    | some f =>
      obtain ⟨data⟩ := f
      cases data with
      | Static s =>
        simp only [hpath, hfile]
        exact h
      | Dynamic v cap =>
        simp only [hpath, hfile]
        split
        · rw [post_bind]
          refine ((quiet_vec_reserve _ _ _ _ _).outer.kept io h).mono ?_ fun _ _ h => h
          intro cap' t _ ht
          split
          · trivial
          · exact hput t _ ht
        · split
          · trivial
          · exact hput io _ h

/-- A pipe that is replaced is the one of the descriptor, or nothing was put into it. -/
theorem Io.Kept.pipe (h : Io.Kept via io0 io) {id : Nat} {p p' : PipeInner} (hp : io.pipes[id]? = some p)
    (hput : p'.buf = p.buf ∧ p'.tail = p.tail ∨ io0.NamesPipe via id) :
    Io.Kept via io0 { io with pipes := io.pipes.insert id p' } := by
  refine ⟨h.files, ?_, ?_, h.next, h.inodes, h.denotes⟩
  · intro j q hq
    show (∃ p'', (io.pipes.insert id p')[j]? = some p'' ∧ _) ∨ _
    rw [Assoc.get_insert]
    by_cases hj : j = id
    · subst hj
      rcases hput with hsame | hname
      · rcases h.pipes j q hq with ⟨r, hr, hbuf, htail⟩ | hname
        · obtain rfl := Option.some.inj (hp.symm.trans hr)
          exact Or.inl ⟨p', if_pos rfl, hsame.1.trans hbuf, hsame.2.trans htail⟩
        · exact Or.inr hname
      · exact Or.inr hname
    · simpa only [hj, if_false] using h.pipes j q hq
  · intro j hj
    have hnone := h.absent j hj
    have hne : j ≠ id := by
      rintro rfl
      rw [hp] at hnone
      cases hnone
    exact (Assoc.get_insert _ _ _ _).trans ((if_neg hne).trans hnone)

/-- Reading moves the head only. -/
theorem read_keeps (n : Nat) : ∀ p : PipeInner, (p.read n).1.buf = p.buf ∧ (p.read n).1.tail = p.tail := by
  induction n with
  | zero => exact fun _ => ⟨rfl, rfl⟩
  | succ n ih =>
    intro p
    unfold PipeInner.read
    split
    · exact ⟨rfl, rfl⟩
    · exact ih _

theorem kept_read_pipe (pid : Nat) (buf : Ptr) (count : Nat) :
    Keeps (Io.Kept via io0) (read_pipe pid buf count) := by
  intro io h
  apply KeepsAt.get_bind
  cases hpipe : io.pipes[pid]? with
  | none => exact h
  | some p =>
    have hvec : post (vec_zeroed count : IoM Nat) (fun _ t _ => t = io) (fun _ _ => True) io :=
      (quiet_vec_zeroed count io).mono (fun _ _ _ h => h) fun _ _ _ => trivial
    apply KeepsAt.bind_of hvec
    intro _ t ht
    subst ht
    have hkept := h.pipe hpipe (Or.inl (read_keeps count p))
    refine KeepsAt.bind (KeepsAt.modify hkept) fun _ => ?_
    intro io h
    refine KeepsAt.bind ((Outer.storeBytes _ _).kept io h) fun _ => .pure _

theorem kept_write_pipe {pid : Nat} (hvia : io0.NamesPipe via pid) (buf : Ptr) (count : Nat) :
    Keeps (Io.Kept via io0) (write_pipe pid buf count) := by
  intro io h
  apply KeepsAt.get_bind
  cases hpipe : io.pipes[pid]? with
  | none => exact h
  | some p =>
    have hcopy : post (copy_in buf count) (fun _ t _ => t = io) (fun _ _ => True) io :=
      (quiet_copy_in buf count io).mono (fun _ _ _ h => h) fun _ _ _ => trivial
    apply KeepsAt.bind_of hcopy
    intro bs t ht
    subst ht
    exact KeepsAt.bind (KeepsAt.modify (h.pipe hpipe (Or.inr hvia))) fun _ => .pure _

theorem kept_write_open (fd : Nat) (buf : Ptr) (count : Nat) :
    Keeps (Io.Kept (some fd) io0) (write_open fd buf count) := by
  intro io h
  apply KeepsAt.get_bind
  cases hof : io.fd_table.get fd with
  | none => exact h
  | some of =>
    obtain ⟨of0, hof0, hinode, hpipe⟩ := h.source hof
    cases hpid : of.pipe_id with
    | some pid =>
      have hvia : io0.NamesPipe (some fd) pid := ⟨fd, of0, rfl, hof0, hpipe.trans hpid⟩
      simpa only [hpid] using kept_write_pipe hvia buf count io h
    | none =>
      simp only [hpid]
      have hvia : ∀ path, io0.fs.inode_map[of.inode]? = some path → io0.Names (some fd) path :=
        fun path hpath => ⟨fd, of0, rfl, hof0, hinode ▸ hpath⟩
      apply KeepsAt.bind ((quiet_copy_in _ _).outer.kept io h)
      intro tmp io1 h1
      apply KeepsAt.bind (kept_write_inode hvia _ _ io1 h1)
      intro n io2 h2
      refine (kept_fd_put h2 ?_).bind fun _ => .pure _
      rw [h.denotes.of_get hof, hpid]

theorem kept_read_open (fd : Nat) (buf : Ptr) (count : Nat) : Keeps (Io.Kept via io0) (read_open fd buf count) := by
  intro io h
  apply KeepsAt.get_bind
  cases hof : io.fd_table.get fd with
  | none => exact h
  | some of =>
    cases hpid : of.pipe_id with
    | some pid => simpa only [hpid] using kept_read_pipe pid buf count io h
    | none =>
      simp only [hpid]
      apply KeepsAt.bind ((quiet_read_file _ _ _).outer.kept io h)
      intro out io1 h1
      apply KeepsAt.bind ((Outer.storeBytes _ _).kept io1 h1)
      intro _ io2 h2
      refine (kept_fd_put h2 ?_).bind fun _ => .pure _
      rw [h.denotes.of_get hof, hpid]

theorem kept_sys_write (fd : Int) (buf : Ptr) (count : Nat) :
    Keeps (Io.Kept (some (ofIsize fd)) io0) (sys_write env fd buf count) := by
  intro io h
  unfold sys_write
  split
  · exact ((Outer.loadBytes _ _).bind fun _ => (Outer.print _).bind fun _ => .pure _).kept io h
  · apply KeepsAt.bind ((quiet_log_echo _ _ _).outer.kept io h)
    intro _ io h
    apply KeepsAt.bind ((outer_is_inet_socket _).kept io h)
    intro b io h
    split
    · exact (outer_send_to_fd _ _ _).kept io h
    · exact kept_write_open _ _ _ io h

theorem kept_sys_read (fd : Int) (buf : Ptr) (count : Nat) :
    Keeps (Io.Kept via io0) (sys_read env fd buf count) := by
  intro io h
  apply KeepsAt.get_bind
  split
  · exact ((outer_read_line _ _ _ _).bind fun _ => .pure _).kept io h
  · split
    · exact ((Outer.storeBytes _ _).bind fun _ => (outer_fake_fd_insert _ _).bind fun _ => .pure _).kept io h
    · exact (outer_recv_from_fd _ _ _).kept io h
    · exact kept_read_open _ _ _ io h

theorem kept_writev_loop (fd : Int) (left : Nat) :
    ∀ iov total, Keeps (Io.Kept (some (ofIsize fd)) io0) (writev_loop env fd iov left total) := by
  induction left with
  | zero => exact fun _ _ => .pure _
  | succ left ih =>
    intro iov total io h
    simp only [writev_loop, KeepsAt, post_bind, post_loadBytes]
    intro base _ len _
    split
    · exact ih _ _ io h
    · apply KeepsAt.bind (kept_sys_write fd ⟨leNat base, false⟩ (leNat len) io h)
      intro n io h
      split
      · exact h
      · split
        · exact h
        · exact ih _ _ io h

theorem kept_pwrite64 (fd : Int) (buf : Ptr) (count offset : Nat) :
    Keeps (Io.Kept (some (ofIsize fd)) io0) (sys_pwrite64 fd buf count offset) := by
  intro io h
  apply KeepsAt.get_bind
  cases hof : io.fd_table.get (ofIsize fd) with
  | none => exact h
  | some of =>
    obtain ⟨of0, hof0, hinode, -⟩ := h.source hof
    have hvia : ∀ path, io0.fs.inode_map[of.inode]? = some path → io0.Names (some (ofIsize fd)) path :=
      fun path hpath => ⟨_, of0, rfl, hof0, hinode ▸ hpath⟩
    apply KeepsAt.bind ((quiet_copy_in _ _).outer.kept io h)
    intro tmp io h
    apply KeepsAt.bind (kept_write_inode hvia _ _ io h)
    exact fun _ => .pure _

theorem kept_sendfile (out_fd in_fd : Int) (count : Nat) :
    Keeps (Io.Kept (some (ofIsize out_fd)) io0) (sys_sendfile env out_fd in_fd count) := by
  intro io h
  apply KeepsAt.bind ((quiet_vec_zeroed _).outer.kept io h)
  intro _ io h
  apply KeepsAt.bind (kept_sys_read _ _ _ io h)
  intro n io h
  split
  · exact h
  · exact kept_sys_write _ _ _ io h

theorem kept_getdents64 (fd : Int) (buf : Ptr) (count : Nat) :
    Keeps (Io.Kept via io0) (sys_getdents64 fd buf count) := by
  intro io h
  apply KeepsAt.get_bind
  cases hof : io.fd_table.get (ofIsize fd) with
  | none => exact h
  | some of =>
    apply KeepsAt.bind ((quiet_vec_zeroed _).outer.kept io h)
    intro _ io1 h1
    apply KeepsAt.get_bind
    dsimp only
    split
    · apply KeepsAt.bind ((Outer.storeBytes _ _).kept io1 h1)
      intro _ io2 h2
      have hd := h.denotes.of_get hof
      exact KeepsAt.bind (kept_fd_put h2 hd) fun _ => .pure _
    · exact h1

theorem kept_lseek (fd offset whence : Int) : Keeps (Io.Kept via io0) (sys_lseek fd offset whence) := by
  intro io h
  apply KeepsAt.get_bind
  cases hof : io.fd_table.get (ofIsize fd) with
  | none => exact h
  | some of =>
    have hseek : ∀ base : Int, KeepsAt (Io.Kept via io0) (do
        fd_put (ofIsize fd) { of with offset := ofIsize (base + offset) }
        return toIsize (ofIsize (base + offset)) : IoM Int) io := by
      intro base
      have hd := h.denotes.of_get hof
      exact KeepsAt.bind (kept_fd_put h hd) fun _ => .pure _
    dsimp only
    split
    · exact hseek 0
    · split
      · exact hseek _
      · split
        · exact .get_bind (hseek _)
        · exact h

end Kept

/-- The descriptor that a call of this number writes to. -/
def writesTo (num : Nat) (a : Args) : Option Nat :=
  if num ∈ [64, 66, 68, 71] then some (ofIsize (toIsize a.a0)) else none

/-- **The calls of the table**, but for those that open and close, and `mkdirat`. -/
theorem io_call_kept {env : Env} {num : Nat} {a : Args} {c : IoM Int} (hc : io_call env num a = some c)
    (hnum : num ∉ openingCalls) (hmkdir : num ≠ 34) (io0 : Io) : Keeps (Io.Kept (writesTo num a) io0) c := by
  by_cases hcall : num ∈ descriptorCalls
  · simp only [descriptorCalls, List.mem_cons, List.not_mem_nil, or_false] at hcall
    rcases hcall with rfl | rfl | rfl | rfl | rfl | rfl | rfl | rfl | rfl | rfl | rfl | rfl | rfl | rfl <;>
      cases hc
    · exact absurd (by decide) hnum
    · exact absurd (by decide) hnum
    · exact absurd rfl hmkdir
    · exact absurd (by decide) hnum
    · exact absurd (by decide) hnum
    · exact absurd (by decide) hnum
    · exact kept_getdents64 _ _ _
    · exact kept_lseek _ _ _
    · exact kept_sys_read _ _ _
    · exact kept_sys_write _ _ _
    · exact kept_writev_loop _ _ _ _
    · exact kept_pwrite64 _ _ _ _
    · exact kept_sendfile _ _ _
    · exact kept_sys_read _ _ _
  · exact (io_call_outer hc hcall).kept

/-! ## Section 2: Closed descriptors -/

section Closed

variable {env : Env} {io : Io} {fd : Int} {buf : Ptr} {count : Nat}

theorem post_write_closed (hfd : fd ≠ 1 ∧ fd ≠ 2) (hfake : io.fake_fds[ofIsize fd]? = none)
    (hget : io.fd_table.get (ofIsize fd) = none) :
    post (sys_write env fd buf count) (fun r t _ => r = -1 ∧ t = io) (fun _ _ => True) io := by
  unfold sys_write
  rw [if_neg (by omega), post_bind]
  refine (quiet_log_echo fd buf count io).mono ?_ fun _ _ _ => trivial
  intro _ t _ ht
  subst ht
  unfold is_inet_socket
  simp only [post_bind, post_get, post_pure, hfake]
  show post (write_open (ofIsize fd) buf count) _ _ t
  unfold write_open
  rw [post_bind, post_get, hget]
  exact ⟨rfl, rfl⟩

theorem post_pwrite_closed (hget : io.fd_table.get (ofIsize fd) = none) (offset : Nat) :
    post (sys_pwrite64 fd buf count offset) (fun r t _ => r = -1 ∧ t = io) (fun _ _ => True) io := by
  unfold sys_pwrite64
  rw [post_bind, post_get, hget]
  exact ⟨rfl, rfl⟩

theorem post_read_closed (hfake : io.fake_fds[ofIsize fd]? = none) (hget : io.fd_table.get (ofIsize fd) = none) :
    post (sys_read env fd buf count) (fun r t _ => r = -1 ∧ t = io) (fun _ _ => True) io := by
  have hstdin : io.is_stdin (ofIsize fd) = false := by
    unfold Io.is_stdin
    rw [hget]
  unfold sys_read
  rw [post_bind, post_get, if_neg (by simp [hstdin]), hfake]
  show post (read_open (ofIsize fd) buf count) _ _ io
  unfold read_open
  rw [post_bind, post_get, hget]
  exact ⟨rfl, rfl⟩

theorem post_pread_closed (hget : io.fd_table.get (ofIsize fd) = none) (offset : Nat) :
    post (sys_pread64 fd buf count offset) (fun r t _ => r = -1 ∧ t = io) (fun _ _ => True) io := by
  unfold sys_pread64
  rw [post_bind, post_get, hget]
  exact ⟨rfl, rfl⟩

end Closed

/-! ## Section 3: The rights that were given -/

/-- The rights of a descriptor. -/
structure Grant where
  read : Bool
  write : Bool
  deriving DecidableEq

/-- The rights of the open descriptors. -/
abbrev Grants := Nat → Option Grant

/-- What `openat` is asked for: `O_WRONLY` is 1 and `O_RDWR` is 2. -/
def Grant.opened (flags : Nat) : Grant :=
  ⟨flags &&& 3 != 1, flags &&& 1 != 0 || flags &&& 2 != 0⟩

/-- The ends of a pipe. -/
def Grant.pipe (writeEnd : Bool) : Grant := ⟨!writeEnd, writeEnd⟩

/-- The rights after a call: a descriptor that is not open has none, the first of the
    two descriptors of a pipe is the one to read from, and a copy has the rights of
    the descriptor it was copied from. -/
def Grants.next (g : Grants) (io : Io) (l : IoLabel) (io' : Io) : Grants := fun fd =>
  if io'.fd_table.get fd = none then none
  else if l.num = 56 ∧ l.ret = fd then some (.opened (ofIsize (toIsize l.args.a2)))
  else if l.num = 59 ∧ io.fd_table.get fd = none then
    some (.pipe !decide (∀ i, i < fd → (io.fd_table.get i).isSome))
  else if (l.num = 23 ∨ l.num = 24) ∧ fd = ofIsize (toIsize l.args.a1) then
    (g (ofIsize (toIsize l.args.a0))).or (g fd)
  else g fd

/-- The three descriptors of the console. -/
def bootGrants : Grants := fun fd => if fd < 3 then some ⟨true, true⟩ else none

/-- A call, with the rights followed beside it. -/
def RightsStep (env : Env) (x : Io × Grants) (l : IoLabel) (y : Io × Grants) : Prop :=
  IoStep env x.1 l y.1 ∧ y.2 = x.2.next x.1 l y.1

/-- The descriptor that a call of this number reads from. -/
def readsFrom (num : Nat) (a : Args) : Option Nat :=
  if num ∈ [63, 67] then some (ofIsize (toIsize a.a0)) else none

/-- Files and pipes change only through descriptors with write access.  Writing to
    any other descriptor fails and changes nothing, and so does reading from one
    without read access; sockets are not concerned. -/
structure AccessRight (g : Grants) (io : Io) (l : IoLabel) (io' : Io) : Prop where
  files : ∀ path f, io.fs.files[path]? = some f → io'.fs.files[path]? = some f ∨
    ∃ fd of grant, writesTo l.num l.args = some fd ∧ io.fd_table.get fd = some of ∧
      io.fs.inode_map[of.inode]? = some path ∧ g fd = some grant ∧ grant.write = true
  pipes : ∀ (id : Nat) p, io.pipes[id]? = some p →
    (∃ p', io'.pipes[id]? = some p' ∧ p'.buf = p.buf ∧ p'.tail = p.tail) ∨
    ∃ fd of grant, writesTo l.num l.args = some fd ∧ io.fd_table.get fd = some of ∧
      of.pipe_id = some id ∧ g fd = some grant ∧ grant.write = true
  write : ∀ fd, writesTo l.num l.args = some fd → io.fake_fds[fd]? = none →
    (∀ grant, g fd = some grant → grant.write = false) → l.ret < 0 ∧ io'.store = io.store
  read : ∀ fd, readsFrom l.num l.args = some fd → io.fake_fds[fd]? = none →
    (∀ grant, g fd = some grant → grant.read = false) → l.ret < 0 ∧ io' = io

/-- The call keeps to the rights of its descriptors; `writev` and `sendfile` go to a
    descriptor that is open, or to a socket. -/
structure AccessCond (x : Io × Grants) (l : IoLabel) : Prop where
  write : ∀ fd grant, writesTo l.num l.args = some fd → x.2 fd = some grant → grant.write = true
  opened : l.num = 66 ∨ l.num = 71 → ∀ fd, writesTo l.num l.args = some fd → x.2 fd = none →
    x.1.fake_fds[fd]? ≠ none
  read : ∀ fd grant, readsFrom l.num l.args = some fd → x.2 fd = some grant → grant.read = true

/-- What holds between the calls: the descriptors with rights are those that are
    open, the first three among them, and the next pipe is new. -/
structure AccessInv (x : Io × Grants) : Prop where
  lawful : x.1.fs.Lawful
  matched : ∀ fd, x.2 fd = none ↔ x.1.fd_table.get fd = none
  stdio : ∀ fd, fd < 3 → x.1.fd_table.get fd ≠ none
  pipes : ∀ id, x.1.next_pipe_id ≤ id → x.1.pipes[id]? = none

section Step

variable {env : Env} {io io' : Io} {g : Grants} {l : IoLabel}

theorem FdTable.Takes.stays {t t' : FdTable} {fd i : Nat} {file : OpenFile} (h : t.Takes fd file t')
    (hi : t.get i ≠ none) : t'.get i ≠ none := by
  rw [h.get]
  split
  · exact Option.some_ne_none _
  · exact hi

/-- The rights follow the table. -/
theorem AccessInv.matched_next (h : AccessInv (io, g)) (hstep : IoStep env io l io') (fd : Nat) :
    g.next io l io' fd = none ↔ io'.fd_table.get fd = none := by
  constructor
  · -- an open descriptor has rights: it had them, or it has just been opened
    intro hnone
    by_contra hopen
    rw [Grants.next, if_neg hopen] at hnone
    split at hnone
    · cases hnone
    next hnot56 =>
    split at hnone
    · cases hnone
    next hnot59 =>
    obtain ⟨c, t, hc, hrun, rfl⟩ := hstep
    have hold : io.fd_table.get fd ≠ none → g fd ≠ none := fun hfd => (not_congr (h.matched fd)).mpr hfd
    by_cases hnum : l.num ∈ openingCalls
    · have hopening : Opening io l.num l.args l.ret t.st := run_opening hc hnum hrun
      generalize t.st = io' at hopen hopening
      cases hopening with
      | failed _ hstore =>
        have htable : io'.fd_table = io.fd_table := congrArg Prod.fst hstore
        rw [htable] at hopen
        split at hnone
        · exact hold hopen (Option.or_eq_none_iff.mp hnone).2
        · exact hold hopen hnone
      | openat fd' inode t' hnum htakes hret =>
        rw [hnum] at hnone
        have hopen : t'.get fd ≠ none := hopen
        rw [htakes.get, if_neg (by rintro rfl; exact hnot56 ⟨hnum, hret⟩)] at hopen
        exact hold hopen (by simpa using hnone)
      | close hnum hstd =>
        rw [hnum] at hnone
        have hopen : (io.fd_table.close (ofIsize (toIsize l.args.a0))).get fd ≠ none := hopen
        rw [FdTable.get_close] at hopen
        split at hopen
        · exact hopen rfl
        · exact hold hopen (by simpa using hnone)
      | dup file t' hnum hfile hget =>
        have hopen : t'.get fd ≠ none := hopen
        rw [hget] at hopen
        by_cases hfd : fd = ofIsize (toIsize l.args.a1)
        · rw [if_pos ⟨hnum, hfd⟩] at hnone
          have hsome := (not_congr (h.matched (ofIsize (toIsize l.args.a0)))).mpr (by rw [hfile]; simp)
          exact hsome (Option.or_eq_none_iff.mp hnone).1
        · rw [if_neg fun h => hfd h.2] at hnone
          rw [if_neg hfd] at hopen
          exact hold hopen hnone
      | pipe rfd wfd t1 t2 hnum hread hwrite =>
        rw [if_neg (by omega)] at hnone
        exact hold (fun hfd => hnot59 ⟨hnum, hfd⟩) hnone
    · -- all other calls leave open what is open
      have hsame : t.st.fd_table.denotes = io.fd_table.denotes := (io_call_steady hc hnum).run hrun rfl
      rw [← FdTable.denotes_eq_none, hsame, FdTable.denotes_eq_none] at hopen
      split at hnone
      · exact hold hopen (Option.or_eq_none_iff.mp hnone).2
      · exact hold hopen hnone
  · intro hnone
    rw [Grants.next, if_pos hnone]

/-- The first three descriptors cannot be closed. -/
theorem stdio_step (hstep : IoStep env io l io') {fd : Nat} (hfd : fd < 3) (h : io.fd_table.get fd ≠ none) :
    io'.fd_table.get fd ≠ none := by
  obtain ⟨c, t, hc, hrun, rfl⟩ := hstep
  by_cases hnum : l.num ∈ openingCalls
  · have hopening : Opening io l.num l.args l.ret t.st := run_opening hc hnum hrun
    generalize t.st = io' at hopening
    cases hopening with
    | failed _ hstore =>
      have htable : io'.fd_table = io.fd_table := congrArg Prod.fst hstore
      rw [htable]
      exact h
    | openat fd' inode t' hnum htakes hret => exact htakes.stays h
    | close hnum hstd =>
      show (io.fd_table.close (ofIsize (toIsize l.args.a0))).get fd ≠ none
      rw [FdTable.get_close, if_neg]
      · exact h
      · rintro rfl
        have heq := toIsize_ofIsize l.args.a0
        rw [toIsize_eq (ofIsize_lt _), if_pos (by omega)] at heq
        omega
    | dup file t' hnum hfile hget =>
      show t'.get fd ≠ none
      rw [hget]
      split
      · exact Option.some_ne_none _
      · exact h
    | pipe rfd wfd t1 t2 hnum hread hwrite => exact hwrite.stays (hread.stays h)
  · have hsame : t.st.fd_table.denotes = io.fd_table.denotes := (io_call_steady hc hnum).run hrun rfl
    rw [ne_eq, ← FdTable.denotes_eq_none, hsame, FdTable.denotes_eq_none]
    exact h

theorem post_mkdirat (path : Ptr) :
    post (sys_mkdirat path) (fun _ t _ => t = io ∨ ∃ name, io.fs.lookup name = none ∧
      t = { io with fs := io.fs.mkdir name }) (fun _ _ => True) io := by
  unfold sys_mkdirat
  rw [post_bind]
  refine (quiet_cstr path io).mono ?_ fun _ _ _ => trivial
  intro name t _ ht
  subst ht
  rw [post_bind, post_get]
  split
  · next hnone => exact Or.inr ⟨name, Option.isNone_iff_eq_none.mp hnone, rfl⟩
  · exact Or.inl rfl

/-- What a call does to files and pipes that were there. -/
structure Io.Wrote (via : Option Nat) (io io' : Io) : Prop where
  files : ∀ path f, io.fs.files[path]? = some f → io'.fs.files[path]? = some f ∨ io.Names via path
  pipes : ∀ (id : Nat) p, io.pipes[id]? = some p →
    (∃ p', io'.pipes[id]? = some p' ∧ p'.buf = p.buf ∧ p'.tail = p.tail) ∨ io.NamesPipe via id
  next : ∀ id, io'.next_pipe_id ≤ id → io.next_pipe_id ≤ id ∧ (io.pipes[id]? = none → io'.pipes[id]? = none)

theorem Io.Wrote.of_store (hfs : io'.fs = io.fs) (hpipes : io'.pipes = io.pipes)
    (hnext : io'.next_pipe_id = io.next_pipe_id) (via : Option Nat) : io.Wrote via io' where
  files := fun _ _ h => Or.inl (by rw [hfs, h])
  pipes := fun _ p h => Or.inl ⟨p, by rw [hpipes, h], rfl, rfl⟩
  next := fun _ h => ⟨hnext ▸ h, fun hnone => by rw [hpipes, hnone]⟩

theorem Io.Wrote.table (via : Option Nat) (t' : FdTable) : io.Wrote via { io with fd_table := t' } := by
  apply Io.Wrote.of_store <;> rfl

/-- **Every call** writes through its descriptor only. -/
theorem AccessInv.wrote (h : AccessInv (io, g)) (hstep : IoStep env io l io') :
    io.Wrote (writesTo l.num l.args) io' := by
  obtain ⟨c, t, hc, hrun, rfl⟩ := hstep
  by_cases hnum : l.num ∈ openingCalls
  · have hopening : Opening io l.num l.args l.ret t.st := run_opening hc hnum hrun
    generalize t.st = io' at hopening
    cases hopening with
    | failed _ hstore =>
      simp only [Io.store, Prod.mk.injEq] at hstore
      exact .of_store hstore.2.1 hstore.2.2.1 hstore.2.2.2 _
    | openat fd' inode t' hnum htakes hret => exact .table _ _
    | close hnum hstd => exact .table _ _
    | dup file t' hnum hfile hget => exact .table _ _
    | pipe rfd wfd t1 t2 hnum hread hwrite =>
      have hnew : ∀ id, id ≠ io.next_pipe_id → (io.pipes.insert io.next_pipe_id .new)[id]? = io.pipes[id]? :=
        fun id hid => (Assoc.get_insert _ _ _ _).trans (if_neg hid)
      refine ⟨fun _ _ hf => Or.inl hf, ?_, ?_⟩
      · intro id p hp
        have hid : id ≠ io.next_pipe_id := by
          rintro rfl
          have hnone := h.pipes _ (Nat.le_refl _)
          rw [hp] at hnone
          cases hnone
        exact Or.inl ⟨p, (hnew id hid).trans hp, rfl, rfl⟩
      · intro id hid
        have hid : io.next_pipe_id + 1 ≤ id := hid
        exact ⟨by omega, fun hnone => (hnew id (by omega)).trans hnone⟩
  · by_cases hmkdir : l.num = 34
    · -- the directory is new, so no file is replaced
      have hcall : c = sys_mkdirat (user l.args.a1) := by
        rw [hmkdir] at hc
        exact (Option.some.inj hc).symm
      rw [hcall] at hrun
      rcases (post_mkdirat (user l.args.a1)).ok hrun with ht | ⟨name, hname, ht⟩
      · rw [ht]
        exact .of_store rfl rfl rfl _
      · rw [ht]
        refine ⟨fun path f hf => Or.inl ?_, fun _ p hp => Or.inl ⟨p, hp, rfl, rfl⟩, fun _ hid => ⟨hid, fun h => h⟩⟩
        have hmem : path ∈ io.fs.files := Std.TreeMap.mem_iff_isSome_getElem?.mpr (by simp [hf])
        have hne : path ≠ name := by
          rintro rfl
          exact h.lawful.lookup_none.mp hname hmem
        exact (Fs.get_create _ _ _ _).trans ((if_neg hne).trans hf)
    · have hkept : Io.Kept (writesTo l.num l.args) io t.st :=
        (io_call_kept hc hnum hmkdir io).run hrun (Io.Kept.refl _ io)
      exact ⟨hkept.files, hkept.pipes, fun id hid => ⟨hkept.next ▸ hid, hkept.absent id⟩⟩

/-- One call keeps the invariant. -/
theorem AccessInv.step (h : AccessInv (io, g)) {y : Io × Grants} (hstep : RightsStep env (io, g) l y) :
    AccessInv y := by
  obtain ⟨io', g'⟩ := y
  obtain ⟨hstep, hg⟩ := hstep
  refine ⟨?_, ?_, ?_, ?_⟩
  · exact hstep.reach.invariant (fun _ _ => lawful_change) h.lawful
  · intro fd
    show g' fd = none ↔ _
    rw [show g' = _ from hg]
    exact h.matched_next hstep fd
  · intro fd hfd
    exact stdio_step hstep hfd (h.stdio fd hfd)
  · intro id hid
    obtain ⟨hle, hnone⟩ := (h.wrote hstep).next id hid
    exact hnone (h.pipes id hle)

/-- One call that meets the condition. -/
theorem AccessInv.right (h : AccessInv (io, g)) (hcond : AccessCond (io, g) l) (hstep : IoStep env io l io') :
    AccessRight g io l io' := by
  have hwrote := h.wrote hstep
  -- an open descriptor that is written to has write access
  have hgrant : ∀ fd of, writesTo l.num l.args = some fd → io.fd_table.get fd = some of →
      ∃ grant, g fd = some grant ∧ grant.write = true := by
    intro fd of hfd hof
    have hsome : g fd ≠ none := (not_congr (h.matched fd)).mpr (by rw [hof]; exact Option.some_ne_none _)
    obtain ⟨grant, hg⟩ := Option.ne_none_iff_exists'.mp hsome
    exact ⟨grant, hg, hcond.write fd grant hfd hg⟩
  obtain ⟨c, t, hc, hrun, rfl⟩ := hstep
  refine ⟨?_, ?_, ?_, ?_⟩
  · intro path f hf
    rcases hwrote.files path f hf with hsame | ⟨fd, of, hfd, hof, hpath⟩
    · exact Or.inl hsame
    · obtain ⟨grant, hg, hw⟩ := hgrant fd of hfd hof
      exact Or.inr ⟨fd, of, grant, hfd, hof, hpath, hg, hw⟩
  · intro id p hp
    rcases hwrote.pipes id p hp with hsame | ⟨fd, of, hfd, hof, hpid⟩
    · exact Or.inl hsame
    · obtain ⟨grant, hg, hw⟩ := hgrant fd of hfd hof
      exact Or.inr ⟨fd, of, grant, hfd, hof, hpid, hg, hw⟩
  · intro fd hfd hfake hno
    have hnone : g fd = none := by
      cases hg : g fd with
      | none => rfl
      | some grant =>
        have hw := hcond.write fd grant hfd hg
        rw [hno grant hg] at hw
        cases hw
    have hget := (h.matched fd).mp hnone
    have hopen : ¬ (l.num = 66 ∨ l.num = 71) := fun hnum => hcond.opened hnum fd hfd hnone hfake
    unfold writesTo at hfd
    split at hfd
    · next hnum =>
      obtain rfl := Option.some.inj hfd
      simp only [List.mem_cons, List.not_mem_nil, or_false] at hnum
      have hcases : l.num = 64 ∨ l.num = 68 := by omega
      rcases hcases with hnum | hnum <;> rw [hnum] at hc <;> obtain rfl := Option.some.inj hc
      · -- the console is open
        have hstd : ∀ n : Nat, n < 3 → toIsize l.args.a0 ≠ n := by
          intro n hn heq
          rw [heq, ofIsize_natCast (by omega)] at hget
          exact h.stdio n hn hget
        obtain ⟨hret, ht⟩ := (post_write_closed ⟨hstd 1 (by decide), hstd 2 (by decide)⟩ hfake hget).ok hrun
        exact ⟨by omega, congrArg Io.store ht⟩
      · obtain ⟨hret, ht⟩ := (post_pwrite_closed hget l.args.a3).ok hrun
        exact ⟨by omega, congrArg Io.store ht⟩
    · cases hfd
  · intro fd hfd hfake hno
    have hnone : g fd = none := by
      cases hg : g fd with
      | none => rfl
      | some grant =>
        have hr := hcond.read fd grant hfd hg
        rw [hno grant hg] at hr
        cases hr
    have hget := (h.matched fd).mp hnone
    unfold readsFrom at hfd
    split at hfd
    · next hnum =>
      obtain rfl := Option.some.inj hfd
      simp only [List.mem_cons, List.not_mem_nil, or_false] at hnum
      rcases hnum with hnum | hnum <;> rw [hnum] at hc <;> obtain rfl := Option.some.inj hc
      · obtain ⟨hret, ht⟩ := (post_read_closed hfake hget).ok hrun
        exact ⟨by omega, ht⟩
      · obtain ⟨hret, ht⟩ := (post_pread_closed hget l.args.a3).ok hrun
        exact ⟨by omega, ht⟩
    · cases hfd

end Step

/-! ## Section 4: Runs -/

theorem AccessInv.boot (b : Fs.Blobs) : AccessInv (Io.boot b, bootGrants) where
  lawful := Fs.init_lawful b
  matched := by
    intro fd
    have hget : (Io.boot b).fd_table.get fd = FdTable.new.files[fd]?.join := rfl
    show bootGrants fd = none ↔ _
    rw [hget]
    unfold bootGrants
    by_cases hfd : fd < 3
    · have hcases : fd = 0 ∨ fd = 1 ∨ fd = 2 := by omega
      rcases hcases with rfl | rfl | rfl <;> simp [FdTable.new]
    · rw [if_neg hfd, List.getElem?_eq_none (by simp [FdTable.new]; omega)]
      simp
  stdio := by
    intro fd hfd
    have hcases : fd = 0 ∨ fd = 1 ∨ fd = 2 := by omega
    rcases hcases with rfl | rfl | rfl <;> exact Option.some_ne_none _
  pipes := by
    intro id _
    simp [Io.boot, Io.new]

/-- **Access rights.**  In every run from boot whose calls all keep to the rights of
    their descriptors, every call is right: files and pipes change only through
    descriptors that were opened with write access, and all other writes and reads
    fail and change nothing. -/
theorem access_right (env : Env) (b : Fs.Blobs) {x y : Io × Grants} {ls : List IoLabel} {l : IoLabel}
    (hrun : LTS.Steps (LTS.guarded AccessCond (RightsStep env)) (Io.boot b, bootGrants) ls x)
    (hstep : LTS.guarded AccessCond (RightsStep env) x l y) : AccessRight x.2 x.1 l y.1 := by
  have hinv : AccessInv x := hrun.invariant (fun _ _ _ h hst => h.step hst.2) (AccessInv.boot b)
  exact hinv.right hstep.1 hstep.2.1

/-- A pipe, and one byte written to one of its ends. -/
def pipeCall : Args := ⟨0, 0, 0, 0, 0, 0⟩

def writeCall (fd : Nat) : Args := ⟨fd, 0, 1, 0, 0, 0⟩

/-- The first pipe after boot has the descriptors 3 and 4, and both can be written to. -/
theorem pipe_then_write {fd : Nat} (hfd : fd = 3 ∨ fd = 4) : ∃ io io' : Io,
    IoStep .idle (Io.boot Fs.noBlobs) ⟨1, onePage, init_heap, 59, pipeCall, 0⟩ io ∧
      IoStep .idle io ⟨1, onePage, init_heap, 64, writeCall fd, 1⟩ io' ∧
      io.fd_table.get 3 ≠ none ∧ io.fd_table.get 4 ≠ none ∧ io.fake_fds[fd]? = none ∧
      (io.pipes[1]?.map PipeInner.tail) = some 0 ∧ (io'.pipes[1]?.map PipeInner.tail) = some 1 := by
  have hscript : ∀ fd, fd = 3 ∨ fd = 4 → ((Io.boot Fs.noBlobs).exec .idle 59 pipeCall).bind (fun p =>
      (p.2.exec .idle 64 (writeCall fd)).map fun q => (p.1, q.1,
        (p.2.fd_table.get 3).isSome && (p.2.fd_table.get 4).isSome && (p.2.fake_fds[fd]?).isNone,
        p.2.pipes[1]?.map PipeInner.tail, q.2.pipes[1]?.map PipeInner.tail)) =
      some (0, 1, true, some 0, some 1) := by
    intro fd hfd
    rcases hfd with rfl | rfl <;> decide +kernel
  obtain ⟨⟨r, io⟩, hpipe, hscript⟩ := Option.bind_eq_some_iff.mp (hscript fd hfd)
  obtain ⟨⟨r', io'⟩, hwrite, hvals⟩ := Option.map_eq_some_iff.mp hscript
  simp only [Prod.mk.injEq, Bool.and_eq_true] at hvals
  obtain ⟨rfl, rfl, ⟨⟨h3, h4⟩, hfake⟩, hold, hnew⟩ := hvals
  exact ⟨io, io', Io.exec_step hpipe, Io.exec_step hwrite, Option.isSome_iff_ne_none.mp h3,
    Option.isSome_iff_ne_none.mp h4, Option.isNone_iff_eq_none.mp hfake, hold, hnew⟩

/-- The first descriptor is to be read from, the second to be written to. -/
theorem pipe_grants {io : Io} (h3 : io.fd_table.get 3 ≠ none) (h4 : io.fd_table.get 4 ≠ none) :
    bootGrants.next (Io.boot Fs.noBlobs) ⟨1, onePage, init_heap, 59, pipeCall, 0⟩ io 3 = some ⟨true, false⟩ ∧
      bootGrants.next (Io.boot Fs.noBlobs) ⟨1, onePage, init_heap, 59, pipeCall, 0⟩ io 4 = some ⟨false, true⟩ := by
  unfold Grants.next
  rw [if_neg h3, if_neg h4]
  have hfirst : ∀ i, i < 3 → ((Io.boot Fs.noBlobs).fd_table.get i).isSome := by decide +kernel
  have hsecond : ¬ ∀ i, i < 4 → ((Io.boot Fs.noBlobs).fd_table.get i).isSome := by decide +kernel
  have hnone : (Io.boot Fs.noBlobs).fd_table.get 3 = none ∧ (Io.boot Fs.noBlobs).fd_table.get 4 = none :=
    ⟨rfl, rfl⟩
  constructor
  · rw [if_neg (by decide), if_pos ⟨rfl, hnone.1⟩, decide_eq_true hfirst]
    rfl
  · rw [if_neg (by decide), if_pos ⟨rfl, hnone.2⟩, decide_eq_false hsecond]
    rfl

/-- A byte is written to the end of a pipe that is for writing. -/
theorem access_right_pipe : ∃ x y : Io × Grants,
    LTS.Steps (LTS.guarded AccessCond (RightsStep .idle)) (Io.boot Fs.noBlobs, bootGrants)
      [⟨1, onePage, init_heap, 59, pipeCall, 0⟩] x ∧
    LTS.guarded AccessCond (RightsStep .idle) x ⟨1, onePage, init_heap, 64, writeCall 4, 1⟩ y ∧
    AccessRight x.2 x.1 ⟨1, onePage, init_heap, 64, writeCall 4, 1⟩ y.1 := by
  obtain ⟨io, io', hpipe, hwrite, h3, h4, -⟩ := pipe_then_write (Or.inr rfl : 4 = 3 ∨ 4 = 4)
  have hgrant := (pipe_grants h3 h4).2
  have hcond : AccessCond (Io.boot Fs.noBlobs, bootGrants) ⟨1, onePage, init_heap, 59, pipeCall, 0⟩ := by
    refine ⟨?_, fun h => absurd h (by decide), ?_⟩
    · intro fd grant hfd
      cases hfd
    · intro fd grant hfd
      cases hfd
  have hfirst : LTS.guarded AccessCond (RightsStep .idle) (Io.boot Fs.noBlobs, bootGrants)
      ⟨1, onePage, init_heap, 59, pipeCall, 0⟩ (io, bootGrants.next _ _ io) := ⟨hcond, hpipe, rfl⟩
  generalize bootGrants.next (Io.boot Fs.noBlobs) ⟨1, onePage, init_heap, 59, pipeCall, 0⟩ io = g at hgrant hfirst
  have hcond' : AccessCond (io, g) ⟨1, onePage, init_heap, 64, writeCall 4, 1⟩ := by
    refine ⟨?_, fun h => absurd h (by decide), ?_⟩
    · intro fd grant hfd hg
      obtain rfl : 4 = fd := Option.some.inj (Eq.trans (by decide) hfd)
      obtain rfl := Option.some.inj (hgrant.symm.trans hg)
      rfl
    · intro fd grant hfd
      cases hfd
  have hsecond : LTS.guarded AccessCond (RightsStep .idle) (io, g)
      ⟨1, onePage, init_heap, 64, writeCall 4, 1⟩ (io', g.next io _ io') := ⟨hcond', hwrite, rfl⟩
  exact ⟨(io, g), _, .single hfirst, hsecond, access_right .idle Fs.noBlobs (.single hfirst) hsecond⟩

/-- **Counterexample**: after `pipe2` a byte is written to the descriptor that is for
    reading only.  The call returns 1, and the byte is in the pipe. -/
theorem write_to_read_end : ∃ (io io' : Io) (g : Grants),
    RightsStep .idle (Io.boot Fs.noBlobs, bootGrants) ⟨1, onePage, init_heap, 59, pipeCall, 0⟩ (io, g) ∧
      g 3 = some ⟨true, false⟩ ∧ IoStep .idle io ⟨1, onePage, init_heap, 64, writeCall 3, 1⟩ io' ∧
      io.pipes[1]?.map PipeInner.tail = some 0 ∧ io'.pipes[1]?.map PipeInner.tail = some 1 ∧
      ¬ AccessRight g io ⟨1, onePage, init_heap, 64, writeCall 3, 1⟩ io' := by
  obtain ⟨io, io', hpipe, hwrite, h3, h4, hfake, hold, hnew⟩ := pipe_then_write (Or.inl rfl : 3 = 3 ∨ 3 = 4)
  have hgrant := (pipe_grants h3 h4).1
  refine ⟨io, io', _, ⟨hpipe, rfl⟩, hgrant, hwrite, hold, hnew, ?_⟩
  intro hright
  have hneg : (1 : Int) < 0 := by
    refine (hright.write 3 (by decide) hfake ?_).1
    intro grant hg
    obtain rfl := Option.some.inj (hgrant.symm.trans hg)
    rfl
  omega

end Rvos

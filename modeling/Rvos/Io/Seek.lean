import Rvos.Io.Descriptors
import Rvos.Io.Offsets

/-! # Positions of descriptors

    `sys_lseek` adds with wrapping, stores the sum whatever it is, and returns it
    as a signed number.

    * `seek_right_iff` : a seek is what its caller expects exactly if the sum is a
      position, that is between 0 and `2 ^ 63`.
    * `Io.Bounded` : every stored offset is a position, and every file fits a
      vector.  Every other call keeps this by itself: a read stops at the end of
      the file, a write ends inside the vector it has grown, a listing stops at
      the last entry.
    * `lseek_positions` : so every offset is a position in every run whose seeks
      are to positions; `lseek_stores_negative` is what happens otherwise. -/

namespace Rvos

open Access Access.Code ByteMem Usize

/-! ## Section 1: One seek -/

/-- Where a seek counts from; `none` for an invalid `whence`. -/
def seek_base (io : Io) (of : OpenFile) (whence : Int) : Option Nat :=
  if whence = 0 then some 0
  else if whence = 1 then some of.offset
  else if whence = 2 then some (io.fs.file_size of.inode)
  else none

/-- `sys_lseek` returns the sum of base and offset, a non-negative number, and the
    descriptor has this offset; or it returns an error and leaves the descriptor. -/
def SeekRight (M : Machine HeapAllocator Halt) (s : St HeapAllocator Io) (fd offset whence : Int) : Prop :=
  ∃ r t, run M (sys_lseek fd offset whence) s = .ok r t ∧
    ((∃ of base, s.st.fd_table.get (ofIsize fd) = some of ∧ seek_base s.st of whence = some base ∧
        0 ≤ r ∧ r = base + offset ∧
        t.st.fd_table.get (ofIsize fd) = some { of with offset := r.toNat }) ∨
      r < 0 ∧ t.st.fd_table.get (ofIsize fd) = s.st.fd_table.get (ofIsize fd))

/-- The sum is a position, unless the descriptor is closed or `whence` invalid; or
    the descriptor keeps an offset that is none. -/
def SeekCond (io : Io) (fd offset whence : Int) : Prop :=
  ∀ of base, io.fd_table.get (ofIsize fd) = some of → seek_base io of whence = some base →
    0 ≤ base + offset ∧ base + offset < 2 ^ 63 ∨
      2 ^ 63 ≤ of.offset ∧ ofIsize (base + offset) = of.offset

section Seek

variable {M : Machine HeapAllocator Halt} {s : St HeapAllocator Io} {fd offset whence : Int}
  {of : OpenFile} {base : Nat}

/-- The statics with another offset of a descriptor. -/
def Io.seeked (io : Io) (fd : Nat) (of : OpenFile) (o : Nat) : Io :=
  { io with fd_table := io.fd_table.put fd { of with offset := o } }

theorem get_seeked {io : Io} {fd : Nat} (hof : io.fd_table.get fd = some of) (o : Nat) :
    (io.seeked fd of o).fd_table.get fd = some { of with offset := o } := by
  have hlt : fd < io.fd_table.files.length := by
    by_contra hge
    have hnone : io.fd_table.files[fd]? = none := List.getElem?_eq_none (by omega)
    simp [FdTable.get, hnone] at hof
  simp only [Io.seeked, FdTable.get_put, hlt, and_self, if_true]

/-- A seek from a base. -/
theorem run_lseek (hof : s.st.fd_table.get (ofIsize fd) = some of)
    (hbase : seek_base s.st of whence = some base) :
    run M (sys_lseek fd offset whence) s = .ok (toIsize (ofIsize (base + offset)))
      { s with st := s.st.seeked (ofIsize fd) of (ofIsize (base + offset)) } := by
  unfold seek_base at hbase
  unfold sys_lseek
  simp only [run_get_bind, hof]
  by_cases h0 : whence = 0
  · simp only [h0, if_true, Option.some.injEq] at hbase ⊢
    subst hbase
    rfl
  · by_cases h1 : whence = 1
    · simp only [h1, if_true, if_neg (show ¬ (1 : Int) = 0 by decide), Option.some.injEq] at hbase ⊢
      subst hbase
      rw [← ofIsize_toIsize_add]
      rfl
    · by_cases h2 : whence = 2
      · simp only [h2, if_true, if_neg (show ¬ (2 : Int) = 0 by decide),
          if_neg (show ¬ (2 : Int) = 1 by decide), Option.some.injEq] at hbase ⊢
        subst hbase
        rw [← ofIsize_toIsize_add]
        rfl
      · simp [h0, h1, h2] at hbase

/-- Without a descriptor or a base it is an error. -/
theorem run_lseek_error (h : ∀ of base, s.st.fd_table.get (ofIsize fd) = some of →
    seek_base s.st of whence ≠ some base) : run M (sys_lseek fd offset whence) s = .ok (-1) s := by
  unfold sys_lseek
  cases hof : s.st.fd_table.get (ofIsize fd) with
  | none => simp only [run_get_bind, hof, run_pure]
  | some of =>
    have hnone : ∀ base, seek_base s.st of whence ≠ some base := fun base => h of base hof
    have h0 : whence ≠ 0 := by
      rintro rfl
      exact hnone 0 rfl
    have h1 : whence ≠ 1 := by
      rintro rfl
      exact hnone _ rfl
    have h2 : whence ≠ 2 := by
      rintro rfl
      exact hnone _ rfl
    simp only [run_get_bind, hof, h0, h1, h2, if_false, run_pure]

theorem seek_right_iff : SeekRight M s fd offset whence ↔ SeekCond s.st fd offset whence := by
  by_cases hbase : ∃ of base, s.st.fd_table.get (ofIsize fd) = some of ∧
      seek_base s.st of whence = some base
  · obtain ⟨of, base, hof, hbase⟩ := hbase
    have hrun : run M (sys_lseek fd offset whence) s = _ := run_lseek hof hbase
    have hget := get_seeked hof (ofIsize (base + offset))
    have hlt := ofIsize_lt (base + offset)
    have hmod := ofIsize_eq (base + offset)
    have hsign := toIsize_eq hlt
    generalize ho : ofIsize (base + offset) = o at hrun hget hlt hmod hsign
    constructor
    · intro h of' base' hof' hbase'
      obtain rfl : of' = of := Option.some.inj (hof'.symm.trans hof)
      obtain rfl : base' = base := Option.some.inj (hbase'.symm.trans hbase)
      obtain ⟨r, t, hrun', hres⟩ := h
      rw [hrun] at hrun'
      cases hrun'
      rcases hres with ⟨of2, base2, hof2, hbase2, hpos, hsum, -⟩ | ⟨hneg, hsame⟩
      · obtain rfl : of2 = of' := Option.some.inj (hof2.symm.trans hof)
        obtain rfl : base2 = base' := Option.some.inj (hbase2.symm.trans hbase)
        left
        split at hsign <;> omega
      · -- the descriptor is as it was: it had the negative offset already
        right
        simp only [hget, hof, Option.some.injEq] at hsame
        have hoff : o = of'.offset := congrArg OpenFile.offset hsame
        refine ⟨?_, ho.trans hoff⟩
        split at hsign <;> omega
    · intro h
      refine ⟨_, _, hrun, ?_⟩
      rcases h of base hof hbase with ⟨hpos, hsmall⟩ | ⟨hbig, hsame⟩
      · left
        have hval : (o : Int) = base + offset := by rw [hmod]; omega
        have hret : toIsize o = base + offset := by
          rw [hsign, if_pos (by omega), hval]
        refine ⟨of, base, hof, hbase, by omega, hret, ?_⟩
        have hnat : (toIsize o).toNat = o := by omega
        rw [hnat]
        exact hget
      · right
        have hoff : o = of.offset := ho.symm.trans hsame
        refine ⟨?_, ?_⟩
        · rw [hsign, if_neg (by omega)]
          omega
        · show (s.st.seeked (ofIsize fd) of o).fd_table.get (ofIsize fd) = _
          rw [hget, hof, hoff]
  · have hnone : ∀ of base, s.st.fd_table.get (ofIsize fd) = some of →
        seek_base s.st of whence ≠ some base := fun of base hof hb => hbase ⟨of, base, hof, hb⟩
    refine ⟨fun _ of base hof hb => absurd hb (hnone of base hof), fun _ => ?_⟩
    exact ⟨-1, s, run_lseek_error hnone, Or.inr ⟨by decide, rfl⟩⟩

end Seek

/-! ## Section 2: Positions and sizes -/

/-- The length fits a vector, and so does the capacity. -/
def FileContents.Fits : FileContents → Prop
  | .Static d => d.length < 2 ^ 63
  | .Dynamic v cap => v.length < 2 ^ 63 ∧ cap < 2 ^ 63

/-- Every offset is a position, every file fits a vector. -/
structure Io.Bounded (io : Io) : Prop where
  offset : ∀ fd of, io.fd_table.get fd = some of → of.offset < 2 ^ 63
  fits : ∀ (path : Path) (f : File), io.fs.files[path]? = some f → f.data.Fits

/-- The embedded binaries fit vectors. -/
def Fs.Blobs.Fit (b : Fs.Blobs) : Prop :=
  b.nginx_bin.length < 2 ^ 63 ∧ b.test_bin.length < 2 ^ 63 ∧ b.busybox.length < 2 ^ 63 ∧
    b.nss_so.length < 2 ^ 63

theorem FileContents.Fits.len {f : File} (h : f.data.Fits) : f.len < 2 ^ 63 := by
  obtain ⟨d⟩ := f
  cases d with
  | Static d => exact h
  | Dynamic v cap => exact h.1

section Bounded

variable {env : Env} {io : Io}

theorem Io.Bounded.size (h : io.Bounded) (inode : Nat) : io.fs.file_size inode < 2 ^ 63 := by
  unfold Fs.file_size Fs.file
  cases hpath : io.fs.inode_map[inode]? with
  | none => simp
  | some path =>
    cases hfile : io.fs.files[path]? with
    | none => simp [hfile]
    | some f => simpa [hfile] using (h.fits path f hfile).len

/-- Another table all of whose offsets are positions. -/
theorem Io.Bounded.table (h : io.Bounded) {t : FdTable}
    (ht : ∀ fd of, t.get fd = some of → of.offset < 2 ^ 63) : Io.Bounded { io with fd_table := t } :=
  ⟨ht, h.fits⟩

theorem Io.Bounded.put (h : io.Bounded) (fd : Nat) {of : OpenFile} (hoff : of.offset < 2 ^ 63) :
    Io.Bounded { io with fd_table := io.fd_table.put fd of } := by
  apply h.table
  intro fd' of' hget
  rw [FdTable.get_put] at hget
  split at hget
  · cases hget
    exact hoff
  · exact h.offset fd' of' hget

theorem Io.Bounded.file (h : io.Bounded) {path : Path} {f : File} (hf : f.data.Fits) :
    Io.Bounded { io with fs := { io.fs with files := io.fs.files.insert path f } } := by
  refine ⟨h.offset, fun p g hg => ?_⟩
  simp only [Std.TreeMap.getElem?_insert] at hg
  split at hg
  · cases hg
    exact hf
  · exact h.fits p g hg

theorem Apart.bounded {α : Type} {c : IoM α} (h : Apart c) : Keeps Io.Bounded c :=
  h.keeps fun io io' htable hfs hio => ⟨by rw [htable]; exact hio.offset, by rw [hfs]; exact hio.fits⟩

/-! ## Section 3: Files -/

/-- A read ends inside the file. -/
theorem Fs.read_inode_end {fs : Fs} {inode len offset : Nat} {bs : List UInt8}
    (h : fs.read_inode inode len offset = .ok bs) : bs = [] ∨ offset + bs.length ≤ fs.file_size inode := by
  unfold Fs.read_inode at h
  cases hf : fs.file inode with
  | none =>
    simp only [hf] at h
    cases h
    exact Or.inl rfl
  | some f =>
    have hsize : fs.file_size inode = f.as_slice.length := by simp [Fs.file_size, hf, File.len]
    simp only [hf] at h
    split at h
    · cases h
    · cases h
      rw [hsize]
      by_cases hpast : f.as_slice.length ≤ offset
      · left
        simp [List.drop_eq_nil_of_le hpast]
      · right
        simp only [List.length_take, List.length_drop]
        omega

theorem post_read_file (inode count offset : Nat) :
    post (read_file inode count offset)
      (fun bs t _ => t = io ∧ io.fs.read_inode inode count offset = .ok bs) (fun _ _ => True) io := by
  unfold read_file
  rw [post_bind]
  refine (quiet_vec_zeroed count io).mono ?_ fun _ _ _ => trivial
  rintro a t l rfl
  rw [post_bind, post_get]
  cases hread : t.fs.read_inode inode count offset with
  | ok bs => exact ⟨rfl, rfl⟩
  | error e => trivial

theorem post_copy_in (buf : Ptr) (count : Nat) :
    post (copy_in buf count) (fun bs t _ => t = io ∧ bs.length ≤ isizeMax) (fun _ _ => True) io := by
  unfold copy_in vec_zeroed
  rw [post_bind]
  split
  · next hzero =>
    simp [hzero]
  · split
    · trivial
    · next hmax =>
      simp only [post_allocZeroed, post_loadBytes, true_and]
      intro a bs hbs
      omega

/-- A new vector moves nothing through pointers. -/
theorem post_vec_zeroed (n : Nat) (io : Io) :
    post (vec_zeroed n : IoM Nat) (fun _ u l => u = io ∧ l = .nil) (fun _ _ => True) io := by
  unfold vec_zeroed
  split
  · exact ⟨rfl, rfl⟩
  · split
    · trivial
    · exact fun _ => ⟨rfl, rfl⟩

theorem post_vec_reserve (len cap additional : Nat) :
    post (vec_reserve 1 0 len cap additional : IoM Nat)
      (fun cap' t _ => t = io ∧ (additional ≤ cap - len ∧ cap' = cap ∨
        len + additional ≤ cap' ∧ cap' ≤ isizeMax)) (fun _ _ => True) io := by
  unfold vec_reserve
  split
  · next hroom => exact ⟨rfl, Or.inl ⟨hroom, rfl⟩⟩
  · simp only [if_pos, Nat.mul_one]
    split
    · trivial
    · next hsmall =>
      simp only [post_bind, post_allocZeroed, post_pure, true_and]
      intro a
      right
      omega

/-- A write of a buffer ends inside the vector, which fits; descriptors stay. -/
theorem post_write_inode (h : io.Bounded) {inode offset : Nat} {buf : List UInt8}
    (hbuf : buf.length ≤ isizeMax) :
    post (write_inode inode buf offset)
      (fun n t _ => t.Bounded ∧ t.fd_table = io.fd_table ∧ (n = 0 ∨ offset + n < 2 ^ 63))
      (fun _ _ => True) io := by
  unfold isizeMax at hbuf
  unfold write_inode
  rw [post_bind, post_get]
  cases hpath : io.fs.inode_map[inode]? with
  | none =>
    simp only [hpath]
    exact ⟨h, rfl, Or.inl rfl⟩
  | some path =>
    cases hfile : io.fs.files[path]? with
    | none =>
      simp only [hpath, hfile]
      exact ⟨h, rfl, Or.inl rfl⟩
    | some f =>
      obtain ⟨d⟩ := f
      cases d with
      | Static d =>
        simp only [hpath, hfile]
        exact ⟨h, rfl, Or.inl rfl⟩
      | Dynamic v cap =>
        obtain ⟨hlen, hcap⟩ := h.fits path _ hfile
        simp only [hpath, hfile]
        -- what follows the reservation, for a capacity that the end of the write is below
        have hstore : ∀ cap', cap' < 2 ^ 63 → wadd offset buf.length < 2 ^ 63 →
            post (do
              if wadd offset buf.length < offset then
                throw (.panic "slice index starts after its end")
              modify fun io : Io => { io with fs := { io.fs with files := (io.fs.files.insert path
                ⟨.Dynamic ((v ++ List.replicate (wadd offset buf.length - v.length) 0).take offset ++ buf ++
                  (v ++ List.replicate (wadd offset buf.length - v.length) 0).drop
                    (wadd offset buf.length)) cap'⟩) } }
              return buf.length : IoM Nat)
              (fun n t _ => t.Bounded ∧ t.fd_table = io.fd_table ∧ (n = 0 ∨ offset + n < 2 ^ 63))
              (fun _ _ => True) io := by
          intro cap' hcap' hend
          split
          · trivial
          · next horder =>
            have hsum : wadd offset buf.length = offset + buf.length := by
              rw [wadd] at horder ⊢
              omega
            refine ⟨h.file ⟨?_, hcap'⟩, rfl, Or.inr (by omega)⟩
            simp only [hsum, List.length_append, List.length_take, List.length_drop, List.length_replicate] at hend ⊢
            omega
        split
        · next hlong =>
          rw [post_bind]
          refine (post_vec_reserve _ _ _).mono ?_ fun _ _ h => h
          rintro cap' t l ⟨rfl, ⟨hroom, rfl⟩ | ⟨hle, hmax⟩⟩
          · exact hstore cap' hcap (by omega)
          · unfold isizeMax at hmax
            exact hstore cap' (by omega) (by omega)
        · exact hstore cap hcap (by omega)

/-- Moving a descriptor forward to a position. -/
theorem keeps_fd_put (h : io.Bounded) (fd : Nat) {of : OpenFile} (hoff : of.offset < 2 ^ 63) :
    KeepsAt Io.Bounded (fd_put fd of) io := h.put fd hoff

theorem keeps_write_open (fd : Nat) (buf : Ptr) (count : Nat) : Keeps Io.Bounded (write_open fd buf count) := by
  intro io h
  apply KeepsAt.get_bind
  cases hof : io.fd_table.get fd with
  | none => exact h
  | some of =>
    cases hpid : of.pipe_id with
    | some pid => simpa only [hpid] using (apart_write_pipe pid buf count).bounded io h
    | none =>
      simp only [hpid]
      apply KeepsAt.bind_of (Q := fun bs t => t = io ∧ bs.length ≤ isizeMax) (post_copy_in _ _)
      rintro tmp t ⟨rfl, htmp⟩
      apply KeepsAt.bind_of (Q := fun n u => u.Bounded ∧ u.fd_table = t.fd_table ∧
        (n = 0 ∨ of.offset + n < 2 ^ 63)) (post_write_inode h htmp)
      rintro n u ⟨hu, -, hn⟩
      have hoff := h.offset fd of hof
      refine (keeps_fd_put hu fd ?_).bind fun _ => .pure _
      show wadd of.offset n < 2 ^ 63
      rw [wadd_of_lt (by omega)]
      omega

theorem keeps_read_open (fd : Nat) (buf : Ptr) (count : Nat) : Keeps Io.Bounded (read_open fd buf count) := by
  intro io h
  apply KeepsAt.get_bind
  cases hof : io.fd_table.get fd with
  | none => exact h
  | some of =>
    cases hpid : of.pipe_id with
    | some pid => simpa only [hpid] using (apart_read_pipe pid buf count).bounded io h
    | none =>
      simp only [hpid]
      apply KeepsAt.bind_of (Q := fun bs t => t = io ∧ io.fs.read_inode of.inode count of.offset = .ok bs)
        (post_read_file _ _ _)
      rintro out t ⟨rfl, hread⟩
      have hoff := h.offset fd of hof
      have hsize := h.size of.inode
      have hend : of.offset + out.length < 2 ^ 63 := by
        rcases Fs.read_inode_end hread with hnil | hle
        · simpa [hnil] using hoff
        · omega
      refine KeepsAt.bind ((Apart.storeBytes _ _).bounded t h) fun _ u hu => ?_
      refine (keeps_fd_put hu fd ?_).bind fun _ => .pure _
      show wadd of.offset out.length < 2 ^ 63
      rw [wadd_of_lt (by omega)]
      exact hend

/-! ## Section 4: Calls -/

theorem keeps_sys_write (fd : Int) (buf : Ptr) (count : Nat) : Keeps Io.Bounded (sys_write env fd buf count) := by
  intro io h
  unfold sys_write
  split
  · exact ((Outer.loadBytes _ _).apart.bind fun _ => (Outer.print _).apart.bind fun _ => .pure _).bounded io h
  · refine KeepsAt.bind ((quiet_log_echo _ _ _).apart.bounded io h) fun _ io h => ?_
    refine KeepsAt.bind ((outer_is_inet_socket _).apart.bounded io h) fun b io h => ?_
    split
    · exact (outer_send_to_fd _ _ _).apart.bounded io h
    · exact keeps_write_open _ _ _ io h

theorem keeps_writev_loop (fd : Int) (left : Nat) :
    ∀ iov total, Keeps Io.Bounded (writev_loop env fd iov left total) := by
  induction left with
  | zero => exact fun _ _ => .pure _
  | succ left ih =>
    intro iov total io h
    simp only [writev_loop, KeepsAt, post_bind, post_loadBytes]
    intro base _ len _
    split
    · exact ih _ _ io h
    · refine KeepsAt.bind (keeps_sys_write fd ⟨leNat base, false⟩ (leNat len) io h) fun n io h => ?_
      split
      · exact h
      · split
        · exact h
        · exact ih _ _ io h

theorem keeps_pwrite64 (fd : Int) (buf : Ptr) (count offset : Nat) :
    Keeps Io.Bounded (sys_pwrite64 fd buf count offset) := by
  intro io h
  apply KeepsAt.get_bind
  cases io.fd_table.get (ofIsize fd) with
  | none => exact h
  | some of =>
    apply KeepsAt.bind_of (Q := fun bs t => t = io ∧ bs.length ≤ isizeMax) (post_copy_in _ _)
    rintro tmp t ⟨rfl, htmp⟩
    apply KeepsAt.bind_of (Q := fun _ u => u.Bounded)
      ((post_write_inode h htmp).mono (fun _ _ _ hu => hu.1) fun _ _ h => h)
    exact fun n u hu => hu

theorem keeps_sys_read (fd : Int) (buf : Ptr) (count : Nat) : Keeps Io.Bounded (sys_read env fd buf count) := by
  intro io h
  apply KeepsAt.get_bind
  split
  · exact ((outer_read_line _ _ _ _).apart.bind fun _ => .pure _).bounded io h
  · split
    · exact ((Apart.storeBytes _ _).bind fun _ => (outer_fake_fd_insert _ _).apart.bind fun _ =>
        .pure _).bounded io h
    · exact (outer_recv_from_fd _ _ _).apart.bounded io h
    · exact keeps_read_open _ _ _ io h

theorem keeps_sendfile (out_fd in_fd : Int) (count : Nat) :
    Keeps Io.Bounded (sys_sendfile env out_fd in_fd count) := by
  intro io h
  refine KeepsAt.bind ((quiet_vec_zeroed _).apart.bounded io h) fun _ io h => ?_
  refine KeepsAt.bind (keeps_sys_read _ _ _ io h) fun n io h => ?_
  split
  · exact h
  · exact keeps_sys_write _ _ _ io h

/-- A listing writes at most all entries. -/
theorem fill_records_count (es : List Fs.DirEntry) : ∀ idx room, (Fs.fill_records es idx room).2 ≤ es.length := by
  induction es with
  | nil => exact fun _ _ => Nat.le_refl _
  | cons e es ih =>
    intro idx room
    have hrest := ih (idx + 1) (room - (e.record idx).length)
    unfold Fs.fill_records
    dsimp only
    split
    · exact Nat.zero_le _
    · rw [List.length_cons]
      omega

theorem read_dir_next {fs : Fs} {inode len offset : Nat} (hbytes : 0 < (fs.read_dir inode len offset).1.length) :
    ∃ es, fs.entries inode = some es ∧ (fs.read_dir inode len offset).2 ≤ es.length := by
  unfold Fs.read_dir at hbytes ⊢
  cases hes : fs.entries inode with
  | none => simp [hes] at hbytes
  | some es =>
    refine ⟨es, rfl, ?_⟩
    simp only [hes] at hbytes ⊢
    by_cases hge : offset ≥ es.length
    · simp [hge] at hbytes
    · rw [if_neg hge]
      have hcount := fill_records_count (es.drop offset) offset len
      rw [List.length_drop] at hcount
      show offset + (Fs.fill_records (es.drop offset) offset len).2 ≤ es.length
      omega

theorem keeps_getdents64 {fd : Int} {buf : Ptr} {count : Nat} (h : io.Bounded)
    (hsmall : ∀ of es, io.fd_table.get (ofIsize fd) = some of → io.fs.entries of.inode = some es →
      es.length < 2 ^ 63) : KeepsAt Io.Bounded (sys_getdents64 fd buf count) io := by
  apply KeepsAt.get_bind
  cases hof : io.fd_table.get (ofIsize fd) with
  | none => exact h
  | some of =>
    apply KeepsAt.bind_of (Q := fun _ t => t = io)
      ((quiet_vec_zeroed count io).mono (fun _ _ _ ht => ht) fun _ _ _ => trivial)
    rintro a t rfl
    apply KeepsAt.get_bind
    dsimp only
    split
    · next hpos =>
      obtain ⟨es, hes, hle⟩ := read_dir_next hpos
      have hlt := hsmall of es hof hes
      refine KeepsAt.bind ((Apart.storeBytes _ _).bounded t h) fun _ u hu => ?_
      refine (keeps_fd_put hu _ ?_).bind fun _ => .pure _
      show (t.fs.read_dir of.inode count of.offset).2 < 2 ^ 63
      omega
    · exact h

theorem keeps_lseek {fd offset whence : Int} (h : io.Bounded) (hcond : SeekCond io fd offset whence) :
    KeepsAt Io.Bounded (sys_lseek fd offset whence) io := by
  apply KeepsAt.get_bind
  cases hof : io.fd_table.get (ofIsize fd) with
  | none => exact h
  | some of =>
    -- the sum is a position: the other case would need an offset that is none
    have hseek : ∀ base, seek_base io of whence = some base →
        KeepsAt Io.Bounded (do
          fd_put (ofIsize fd) { of with offset := ofIsize (toIsize base + offset) }
          return toIsize (ofIsize (toIsize base + offset)) : IoM Int) io := by
      intro base hbase
      have hoff := h.offset _ of hof
      have hmod := ofIsize_eq (base + offset)
      refine (keeps_fd_put h _ ?_).bind fun _ => .pure _
      show ofIsize (toIsize base + offset) < 2 ^ 63
      rw [ofIsize_toIsize_add]
      rcases hcond of base hof hbase with ⟨hpos, hlt⟩ | ⟨hbig, -⟩
      · omega
      · omega
    dsimp only
    split
    · next h0 => exact hseek 0 (by simp [seek_base, h0])
    · next h0 =>
      split
      · next h1 => exact hseek of.offset (by simp [seek_base, h1])
      · next h1 =>
        split
        · next h2 => exact .get_bind (hseek (io.fs.file_size of.inode) (by simp [seek_base, h2]))
        · exact h

/-- Every open file of the table is one of the list. -/
theorem Io.Bounded.of_mem (h : io.Bounded) {of : OpenFile} (hof : some of ∈ io.fd_table.files) :
    of.offset < 2 ^ 63 := by
  obtain ⟨fd, hfd⟩ := List.mem_iff_getElem?.mp hof
  exact h.offset fd of (by rw [FdTable.get, hfd]; rfl)

theorem post_fd_alloc (t : FdTable) (file : OpenFile) :
    post (t.alloc file : IoM (FdTable × Nat))
      (fun p u _ => u = io ∧ ∀ of, some of ∈ p.1.files → of = file ∨ some of ∈ t.files)
      (fun _ _ => True) io := by
  unfold FdTable.alloc
  split
  · refine ⟨rfl, fun of hof => ?_⟩
    rcases List.mem_or_eq_of_mem_set hof with hold | hnew
    · exact Or.inr hold
    · exact Or.inl (Option.some.inj hnew)
  · rw [post_bind]
    refine (quiet_vec_reserve _ _ _ _ _ io).mono ?_ fun _ _ _ => trivial
    rintro cap u l rfl
    refine ⟨rfl, fun of hof => ?_⟩
    rcases List.mem_append.mp hof with hold | hnew
    · exact Or.inr hold
    · exact Or.inl (Option.some.inj (List.mem_singleton.mp hnew))

theorem Io.Bounded.files (h : io.Bounded) {t : FdTable}
    (ht : ∀ of, some of ∈ t.files → of.offset < 2 ^ 63) : Io.Bounded { io with fd_table := t } :=
  h.table fun _ of hget => ht of (FdTable.mem_of_get hget)

/-- The table with a new descriptor at the beginning of its file. -/
theorem Io.Bounded.allocated (h : io.Bounded) {file : OpenFile} (hfile : file.offset = 0) {t : FdTable}
    (ht : ∀ of, some of ∈ t.files → of = file ∨ some of ∈ io.fd_table.files) :
    Io.Bounded { io with fd_table := t } := by
  apply h.files
  intro of hof
  rcases ht of hof with rfl | hold
  · omega
  · exact h.of_mem hold

theorem keeps_openat (path : Ptr) (flags : Int) : Keeps Io.Bounded (sys_openat path flags) := by
  intro io h
  apply KeepsAt.bind_of (Q := fun _ t => t = io)
    ((quiet_cstr path io).mono (fun _ _ _ ht => ht) fun _ _ _ => trivial)
  rintro path t rfl
  apply KeepsAt.get_bind
  cases t.fs.lookup path with
  | none => exact h
  | some inode =>
    apply KeepsAt.get_bind
    apply KeepsAt.bind_of (post_fd_alloc _ _)
    rintro ⟨t', fd⟩ u ⟨rfl, hmem⟩
    exact KeepsAt.bind (KeepsAt.modify (h.allocated rfl hmem)) fun _ => .pure _

theorem keeps_pipe2 (pipefd : Ptr) : Keeps Io.Bounded (sys_pipe2 pipefd) := by
  intro io h
  apply KeepsAt.get_bind
  refine KeepsAt.bind ((quiet_vec_zeroed _).apart.bounded io h) fun _ io h => ?_
  refine KeepsAt.bind (KeepsAt.modify ⟨h.offset, h.fits⟩) fun _ io h => ?_
  apply KeepsAt.get_bind
  apply KeepsAt.bind_of (post_fd_alloc _ _)
  rintro ⟨t1, rfd⟩ u ⟨rfl, hmem1⟩
  refine KeepsAt.bind (KeepsAt.modify (h.allocated rfl hmem1)) fun _ io h => ?_
  apply KeepsAt.get_bind
  apply KeepsAt.bind_of (post_fd_alloc _ _)
  rintro ⟨t2, wfd⟩ u ⟨rfl, hmem2⟩
  refine KeepsAt.bind (KeepsAt.modify (h.allocated rfl hmem2)) fun _ io h => ?_
  exact ((Apart.storeBytes _ _).bind fun _ => (Apart.storeBytes _ _).bind fun _ =>
    .pure _).bounded io h

theorem keeps_close (fd : Int) : Keeps Io.Bounded (sys_close fd) := by
  intro io h
  unfold sys_close
  split
  · exact h
  · refine KeepsAt.bind ((outer_is_inet_socket _).apart.bounded io h) fun _ io h => ?_
    split
    · refine KeepsAt.bind ((outer_close_fd _).apart.bounded io h) fun _ io h => ?_
      exact KeepsAt.bind (KeepsAt.modify ⟨h.offset, h.fits⟩) fun _ => .pure _
    · refine KeepsAt.bind ((outer_is_fake_fd _).apart.bounded io h) fun _ io h => ?_
      split
      · exact KeepsAt.bind (KeepsAt.modify ⟨h.offset, h.fits⟩) fun _ => .pure _
      · refine KeepsAt.bind (KeepsAt.modify (h.table fun fd' of hof => ?_)) fun _ => .pure _
        rw [FdTable.get_close] at hof
        split at hof
        · cases hof
        · exact h.offset fd' of hof

theorem post_fd_resize (t : FdTable) (n : Nat) :
    post (t.resize n : IoM FdTable) (fun t' u _ => u = io ∧ ∀ of, some of ∈ t'.files → some of ∈ t.files)
      (fun _ _ => True) io := by
  unfold FdTable.resize
  split
  · exact ⟨rfl, fun of hof => List.mem_of_mem_take hof⟩
  · rw [post_bind]
    refine (quiet_vec_reserve _ _ _ _ _ io).mono ?_ fun _ _ _ => trivial
    rintro cap u l rfl
    refine ⟨rfl, fun of hof => ?_⟩
    rcases List.mem_append.mp hof with hold | hnew
    · exact hold
    · cases List.eq_of_mem_replicate hnew

theorem post_fd_dup2 (t : FdTable) (oldfd newfd : Nat) :
    post (t.dup2 oldfd newfd : IoM (FdTable × Bool))
      (fun p u _ => u = io ∧ ∀ of, some of ∈ p.1.files → some of ∈ t.files) (fun _ _ => True) io := by
  unfold FdTable.dup2
  cases hget : t.get oldfd with
  | none => exact ⟨rfl, fun of hof => hof⟩
  | some file =>
    have hmem := FdTable.mem_of_get hget
    -- the table after growing has no new open file
    have hput : ∀ t' : FdTable, (∀ of, some of ∈ t'.files → some of ∈ t.files) →
        post (do
          if newfd ≥ t'.files.length then
            throw (.panic "index out of bounds")
          return (t'.put newfd file, true) : IoM (FdTable × Bool))
          (fun p u _ => u = io ∧ ∀ of, some of ∈ p.1.files → some of ∈ t.files) (fun _ _ => True) io := by
      intro t' ht'
      split
      · trivial
      · refine ⟨rfl, fun of hof => ?_⟩
        rcases List.mem_or_eq_of_mem_set hof with hold | hnew
        · exact ht' of hold
        · exact hnew ▸ hmem
    dsimp only
    split
    · rw [post_bind]
      refine (post_fd_resize t _).mono ?_ fun _ _ h => h
      rintro t' u l ⟨rfl, ht'⟩
      exact hput t' ht'
    · exact hput t fun of hof => hof

theorem keeps_dup2 (oldfd newfd : Int) : Keeps Io.Bounded (sys_dup2 oldfd newfd) := by
  intro io h
  apply KeepsAt.get_bind
  apply KeepsAt.bind_of (Q := fun p u => u = io ∧
    ∀ of, some of ∈ p.1.files → some of ∈ io.fd_table.files) (post_fd_dup2 _ _ _)
  rintro ⟨t, ok⟩ u ⟨rfl, hmem⟩
  exact KeepsAt.bind (KeepsAt.modify (h.files fun of hof => h.of_mem (hmem of hof))) fun _ => .pure _

theorem keeps_mkdirat (path : Ptr) : Keeps Io.Bounded (sys_mkdirat path) := by
  intro io h
  apply KeepsAt.bind_of (Q := fun _ t => t = io)
    ((quiet_cstr path io).mono (fun _ _ _ ht => ht) fun _ _ _ => trivial)
  rintro path t rfl
  apply KeepsAt.get_bind
  split
  · refine KeepsAt.bind (KeepsAt.modify ⟨h.offset, fun p f hf => ?_⟩) fun _ => .pure _
    rw [Fs.mkdir, Fs.get_create] at hf
    split at hf
    · cases hf
      exact Nat.two_pow_pos 63
    · exact h.fits p f hf
  · exact h

end Bounded

/-! ## Section 5: Runs -/

theorem Fs.init_calls_fit {b : Fs.Blobs} (hb : b.Fit) : ∀ c ∈ Fs.init_calls b, c.contents.Fits := by
  obtain ⟨hnginx, htest, hbusybox, hnss⟩ := hb
  intro c hc
  simp only [Fs.init_calls, List.mem_cons, List.not_mem_nil, or_false] at hc
  repeat' (rcases hc with rfl | hc)
  all_goals first
    | exact Nat.two_pow_pos 63
    | exact ⟨Nat.two_pow_pos 63, Nat.two_pow_pos 63⟩
    | exact hnginx
    | exact htest
    | exact hbusybox
    | exact hnss
    | (show List.length _ < 2 ^ 63; decide +kernel)

theorem Io.boot_bounded {b : Fs.Blobs} (hb : b.Fit) : (Io.boot b).Bounded where
  offset := by
    intro fd of hof
    have hmem := FdTable.mem_of_get hof
    obtain rfl : of = FdTable.stdio := by simpa [Io.boot, Io.new, FdTable.new] using hmem
    exact Nat.two_pow_pos 63
  fits := by
    intro path f hf
    have hf : (Fs.init b).files[path]? = some f := hf
    have hmem : path ∈ (Fs.init b).files := by
      rw [Std.TreeMap.mem_iff_isSome_getElem?, hf]
      rfl
    rw [Fs.mem_init, ← Fs.init_calls_paths b, List.mem_map] at hmem
    obtain ⟨c, hc, rfl⟩ := hmem
    rw [Fs.init_get b hc] at hf
    cases hf
    exact Fs.init_calls_fit hb c hc

/-- The condition: every seek is to a position, and a directory that is listed has
    no more entries than a vector can hold. -/
def PositionCond (io : Io) (l : IoLabel) : Prop :=
  (l.num = 62 → SeekCond io (toIsize l.args.a0) (toIsize l.args.a1) (toIsize l.args.a2)) ∧
  (l.num = 61 → ∀ of es, io.fd_table.get (ofIsize (toIsize l.args.a0)) = some of →
    io.fs.entries of.inode = some es → es.length < 2 ^ 63)

/-- One call keeps all offsets positions. -/
theorem Io.Bounded.step {env : Env} {io io' : Io} {l : IoLabel} (h : io.Bounded)
    (hst : LTS.guarded PositionCond (IoStep env) io l io') : io'.Bounded := by
  obtain ⟨⟨hseek, hlist⟩, c, t, hc, hrun, rfl⟩ := hst
  by_cases hnum : l.num ∈ descriptorCalls
  · obtain ⟨root, mem, heap, num, a, ret⟩ := l
    simp only [descriptorCalls, List.mem_cons, List.not_mem_nil, or_false] at hnum
    rcases hnum with rfl | rfl | rfl | rfl | rfl | rfl | rfl | rfl | rfl | rfl | rfl | rfl | rfl | rfl <;>
      cases hc
    · exact (keeps_dup2 _ _).run hrun h
    · exact (keeps_dup2 _ _).run hrun h
    · exact (keeps_mkdirat _).run hrun h
    · exact (keeps_openat _ _).run hrun h
    · exact (keeps_close _).run hrun h
    · exact (keeps_pipe2 _).run hrun h
    · exact post.ok (keeps_getdents64 h (hlist rfl)) hrun
    · exact post.ok (keeps_lseek h (hseek rfl)) hrun
    · exact (keeps_sys_read _ _ _).run hrun h
    · exact (keeps_sys_write _ _ _).run hrun h
    · exact (keeps_writev_loop _ _ _ _).run hrun h
    · exact (keeps_pwrite64 _ _ _ _).run hrun h
    · exact (keeps_sendfile _ _ _).run hrun h
    · exact (keeps_sys_read _ _ _).run hrun h
  · exact (io_call_apart hc hnum).bounded.run hrun h

/-- **Seeking.**  A seek returns the sum of base and offset and stores it, or
    fails and leaves the descriptor, if and only if it meets `SeekCond`; and in
    every run from boot whose seeks meet it, every stored offset is below `2 ^ 63`. -/
theorem lseek_positions (env : Env) (b : Fs.Blobs) (hb : b.Fit) :
    (∀ M s fd offset whence, SeekRight M s fd offset whence ↔ SeekCond s.st fd offset whence) ∧
    ∀ io ls, LTS.Steps (LTS.guarded PositionCond (IoStep env)) (Io.boot b) ls io →
      ∀ fd of, io.fd_table.get fd = some of → of.offset < 2 ^ 63 := by
  refine ⟨fun _ _ _ _ _ => seek_right_iff, fun io ls hrun => ?_⟩
  have hbounded : io.Bounded :=
    LTS.Steps.invariant (fun _ _ _ h hst => h.step hst) hrun (Io.boot_bounded hb)
  exact hbounded.offset

/-- The open file of descriptor 3 after the first `openat`. -/
def firstFile (inode : Nat) : OpenFile :=
  { inode := inode, offset := 0, readable := true, writable := true, pipe_id := none }

/-- The log is opened at boot; a seek to its byte 5 is then as expected. -/
theorem lseek_positions_log : ∃ inode,
    LTS.Steps (LTS.guarded PositionCond (IoStep .idle)) (Io.boot Fs.noBlobs) [.openat errorLog 3]
        ((Io.boot Fs.noBlobs).opened inode) ∧
      SeekRight (machine 1) ⟨onePage, init_heap, (Io.boot Fs.noBlobs).opened inode⟩ 3 5 0 ∧
      ∀ fd of, ((Io.boot Fs.noBlobs).opened inode).fd_table.get fd = some of → of.offset < 2 ^ 63 := by
  obtain ⟨inode, hlook, -⟩ := boot_log
  have hfit : Fs.noBlobs.Fit := ⟨by decide, by decide, by decide, by decide⟩
  obtain ⟨hseek, hruns⟩ := lseek_positions .idle Fs.noBlobs hfit
  have hstep : LTS.guarded PositionCond (IoStep .idle) (Io.boot Fs.noBlobs) (.openat errorLog 3)
      ((Io.boot Fs.noBlobs).opened inode) :=
    ⟨⟨fun h => absurd h (by decide), fun h => absurd h (by decide)⟩,
      openat_boot _ (by decide +kernel) (by decide +kernel) hlook⟩
  refine ⟨inode, .single hstep, (hseek _ _ _ _ _).mpr ?_, hruns _ _ (.single hstep)⟩
  intro of base _ hbase
  cases hbase
  left
  decide

/-- **Counterexample**: the log is opened at boot, and a seek to -1 returns -1
    but stores the offset `2 ^ 64 - 1`. -/
theorem lseek_stores_negative : ∃ inode io,
    IoStep .idle (Io.boot Fs.noBlobs) (.openat errorLog 3) ((Io.boot Fs.noBlobs).opened inode) ∧
      IoStep .idle ((Io.boot Fs.noBlobs).opened inode)
        ⟨1, onePage, init_heap, 62, ⟨3, 2 ^ 64 - 1, 0, 0, 0, 0⟩, -1⟩ io ∧
      io.fd_table.get 3 = some { firstFile inode with offset := 2 ^ 64 - 1 } ∧
      ¬ SeekRight (machine 1) ⟨onePage, init_heap, (Io.boot Fs.noBlobs).opened inode⟩ 3 (-1) 0 := by
  obtain ⟨inode, hlook, -⟩ := boot_log
  have hof : ((Io.boot Fs.noBlobs).opened inode).fd_table.get 3 = some (firstFile inode) :=
    Io.opened_get Fs.noBlobs inode
  have hthree : ofIsize 3 = 3 := ofIsize_natCast (by decide)
  have hof' : ((Io.boot Fs.noBlobs).opened inode).fd_table.get (ofIsize 3) = some (firstFile inode) := by
    rw [hthree]
    exact hof
  have hbase : seek_base ((Io.boot Fs.noBlobs).opened inode) (firstFile inode) 0 = some 0 := rfl
  have hminus : ofIsize ((0 : Nat) + (-1)) = 2 ^ 64 - 1 := by decide +kernel
  have hrun : run (machine 1) (sys_lseek 3 (-1) 0)
      ⟨onePage, init_heap, (Io.boot Fs.noBlobs).opened inode⟩ = .ok (-1)
        ⟨onePage, init_heap, ((Io.boot Fs.noBlobs).opened inode).seeked 3 (firstFile inode) (2 ^ 64 - 1)⟩ := by
    rw [run_lseek hof' hbase, hminus, hthree]
    rfl
  refine ⟨inode, ((Io.boot Fs.noBlobs).opened inode).seeked 3 (firstFile inode) (2 ^ 64 - 1),
    openat_boot _ (by decide +kernel) (by decide +kernel) hlook, ⟨_, ⟨onePage, init_heap, _⟩, rfl, ?_, rfl⟩,
    get_seeked hof _, ?_⟩
  · show run (machine 1) (sys_lseek (toIsize 3) (toIsize (2 ^ 64 - 1)) (toIsize 0)) _ = _
    rw [show toIsize 3 = 3 by decide +kernel, show toIsize (2 ^ 64 - 1) = -1 by decide +kernel,
      show toIsize 0 = 0 by decide +kernel]
    exact hrun
  · intro h
    rcases seek_right_iff.mp h (firstFile inode) 0 hof' hbase with ⟨hpos, -⟩ | ⟨hbig, -⟩
    · exact absurd hpos (by decide)
    · exact absurd hbig (show ¬ 2 ^ 63 ≤ 0 by decide)

end Rvos

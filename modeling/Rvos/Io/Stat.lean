import Rvos.Io.Offsets

/-! # The status of a file

    `fill_stat` and `fill_stat_chr` write a `struct stat` of 128 bytes at
    literal offsets.  The comment of `fill_stat` gives the layout; `Stat.decode`
    reads the buffer by it.  The link count is stored at the offset of the
    owner, so that every status has no links and belongs to user 1.

    * `run_fill_stat`, `run_fill_stat_chr` : the status that a caller decodes.
    * `stat_fields` : the status is right only where the call fails; the other
      fields are right, and `fstat` and `fstatat` agree. -/

namespace Rvos

open Access ByteMem Usize

/-! ## Section 1: The layout -/

/-- The fields of a `struct stat`. -/
structure Stat where
  st_mode : Nat
  st_nlink : Nat
  st_uid : Nat
  st_gid : Nat
  st_rdev : Nat
  st_size : Nat
  st_blksize : Nat
  st_blocks : Nat
  deriving DecidableEq, Repr

/-- The layout for riscv64, as the comment of `fill_stat` has it. -/
def Stat.decode (v : List UInt8) : Stat where
  st_mode := leNat (part v 16 4)
  st_nlink := leNat (part v 20 4)
  st_uid := leNat (part v 24 4)
  st_gid := leNat (part v 28 4)
  st_rdev := leNat (part v 32 8)
  st_size := leNat (part v 48 8)
  st_blksize := leNat (part v 56 4)
  st_blocks := leNat (part v 64 8)

/-- The group, and the size in bytes and in blocks. -/
structure Stat.Sized (st : Stat) (size : Nat) : Prop where
  st_gid : st.st_gid = 0
  st_size : st.st_size = size
  st_blksize : st.st_blksize = 4096
  st_blocks : st.st_blocks = (size + 511) / 512

/-- The status of a file: one link, owned by user 0. -/
structure Stat.Right (st : Stat) (size : Nat) : Prop extends st.Sized size where
  st_nlink : st.st_nlink = 1
  st_uid : st.st_uid = 0

/-- What is stored instead: the link count is where the owner belongs. -/
structure Stat.Shifted (st : Stat) (size : Nat) : Prop extends st.Sized size where
  st_nlink : st.st_nlink = 0
  st_uid : st.st_uid = 1

/-- The status that `fill_stat` stores. -/
def Stat.filled (size : Nat) : Stat where
  st_mode := if size = 0 then 0o40755 else 0o100644
  st_nlink := 0
  st_uid := 1
  st_gid := 0
  st_rdev := 0
  st_size := size % 2 ^ 64
  st_blksize := 4096
  st_blocks := wadd size 511 / 512

/-- The status that `fill_stat_chr` stores. -/
def Stat.console : Stat where
  st_mode := 0o20620
  st_nlink := 0
  st_uid := 1
  st_gid := 0
  st_rdev := 0
  st_size := 0
  st_blksize := 4096
  st_blocks := 0

theorem Stat.filled_shifted {size : Nat} (h : size + 511 < 2 ^ 64) : (Stat.filled size).Shifted size where
  st_nlink := rfl
  st_uid := rfl
  st_gid := rfl
  st_size := Nat.mod_eq_of_lt (by omega)
  st_blksize := rfl
  st_blocks := by rw [Stat.filled, wadd_of_lt h]

theorem Stat.console_shifted : Stat.console.Shifted 0 := ⟨⟨rfl, rfl, rfl, rfl⟩, rfl, rfl⟩

/-! ## Section 2: The encoders -/

/-- What the stores of `fill_stat` do to the fields. -/
theorem decode_overlays {v : List UInt8} (h0 : v.length = 128) (mode nlink len blksize blocks : Nat) :
    Stat.decode (overlay (overlay (overlay (overlay (overlay v 16 (leBytes 4 mode)) 24 (leBytes 4 nlink)) 48
      (leBytes 8 len)) 56 (leBytes 4 blksize)) 64 (leBytes 8 blocks)) =
    { Stat.decode v with
      st_mode := mode % 256 ^ 4, st_uid := nlink % 256 ^ 4, st_size := len % 256 ^ 8,
      st_blksize := blksize % 256 ^ 4, st_blocks := blocks % 256 ^ 8 } := by
  -- no store leaves the buffer, so every field is the last one stored there
  have h1 : (overlay v 16 (leBytes 4 mode)).length = 128 := length_overlay h0 (by simp)
  have h2 : (overlay (overlay v 16 (leBytes 4 mode)) 24 (leBytes 4 nlink)).length = 128 :=
    length_overlay h1 (by simp)
  have h3 : (overlay (overlay (overlay v 16 (leBytes 4 mode)) 24 (leBytes 4 nlink)) 48
      (leBytes 8 len)).length = 128 := length_overlay h2 (by simp)
  have h4 : (overlay (overlay (overlay (overlay v 16 (leBytes 4 mode)) 24 (leBytes 4 nlink)) 48
      (leBytes 8 len)) 56 (leBytes 4 blksize)).length = 128 := length_overlay h3 (by simp)
  simp (disch := simp [h0, h1, h2, h3, h4]) only [Stat.decode, part_overlay, part_overlay_apart, leNat_leBytes]

section Encode

variable {M : Machine HeapAllocator Halt} {s : St HeapAllocator Io} {buf : Ptr} {f : Nat → Nat}

/-- The zeros that both encoders start with. -/
theorem run_zeros_bind {α : Type} {k : Unit → IoM α} (h : Block M s.mem buf 128 f) :
    run M (Code.storeBytes buf (List.replicate 128 0) >>= k) s =
      run M (k ()) { s with mem := put f 0 (List.replicate 128 0) s.mem } := by
  have hstore : run M (Code.storeBytes (buf.add 0) (List.replicate 128 0) >>= k) s =
      run M (k ()) { s with mem := put f 0 (List.replicate 128 0) s.mem } :=
    h.run_store_bind (by simp)
  rwa [Ptr.add_zero h.addr_lt] at hstore

/-- The buffer after the zeros, whatever it held before. -/
theorem contents_zeros (h : Block M s.mem buf 128 f) :
    contents f 128 (put f 0 (List.replicate 128 0) s.mem) = List.replicate 128 0 := by
  rw [contents_put h.inj (by simp), overlay, List.drop_of_length_le (by simp)]
  simp

/-- **`fill_stat`** on a buffer: it returns, and this is the status it stores. -/
theorem run_fill_stat (size : Nat) (h : Block M s.mem buf 128 f) :
    ∃ m, run M (fill_stat buf size) s = .ok () { s with mem := m } ∧
      Stat.decode (contents f 128 m) = Stat.filled size := by
  -- the memories after each store; the buffer stays where it is
  let m0 := put f 0 (List.replicate 128 0) s.mem
  let m1 := put f 16 (leBytes 4 (if size = 0 then 0o40755 else 0o100644)) m0
  let m2 := put f 24 (leBytes 4 1) m1
  let m3 := put f 48 (leBytes 8 size) m2
  let m4 := put f 56 (leBytes 4 4096) m3
  have h0 : Block M m0 buf 128 f := h.put (by simp)
  have h1 : Block M m1 buf 128 f := h0.put (by simp)
  have h2 : Block M m2 buf 128 f := h1.put (by simp)
  have h3 : Block M m3 buf 128 f := h2.put (by simp)
  have h4 : Block M m4 buf 128 f := h3.put (by simp)
  refine ⟨put f 64 (leBytes 8 (wadd size 511 / 512)) m4, ?_, ?_⟩
  · rw [fill_stat, run_zeros_bind h, h0.run_store_bind (by simp), h1.run_store_bind (by simp),
      h2.run_store_bind (by simp), h3.run_store_bind (by simp)]
    exact h4.run_storeBytes (by simp)
  · rw [contents_put h.inj (by simp), contents_put h.inj (by simp), contents_put h.inj (by simp),
      contents_put h.inj (by simp), contents_put h.inj (by simp), contents_zeros h]
    rw [decode_overlays (by simp), show Stat.decode (List.replicate 128 0) = ⟨0, 0, 0, 0, 0, 0, 0, 0⟩ by decide]
    simp only [Stat.filled, Stat.mk.injEq, true_and]
    have hblocks : wadd size 511 / 512 < 256 ^ 8 :=
      lt_of_le_of_lt (Nat.div_le_self _ _) (wadd_lt _ _)
    refine ⟨?_, by decide, by norm_num, by decide, Nat.mod_eq_of_lt hblocks⟩
    split <;> decide

/-- **`fill_stat_chr`** on a buffer. -/
theorem run_fill_stat_chr (h : Block M s.mem buf 128 f) :
    ∃ m, run M (fill_stat_chr buf) s = .ok () { s with mem := m } ∧
      Stat.decode (contents f 128 m) = Stat.console := by
  let m0 := put f 0 (List.replicate 128 0) s.mem
  let m1 := put f 16 (leBytes 4 0o20620) m0
  let m2 := put f 24 (leBytes 4 1) m1
  let m3 := put f 32 (leBytes 4 0) m2
  let m4 := put f 36 (leBytes 4 0) m3
  let m5 := put f 40 (leBytes 8 0x102) m4
  let m6 := put f 48 (leBytes 8 0) m5
  let m7 := put f 56 (leBytes 4 4096) m6
  have h0 : Block M m0 buf 128 f := h.put (by simp)
  have h1 : Block M m1 buf 128 f := h0.put (by simp)
  have h2 : Block M m2 buf 128 f := h1.put (by simp)
  have h3 : Block M m3 buf 128 f := h2.put (by simp)
  have h4 : Block M m4 buf 128 f := h3.put (by simp)
  have h5 : Block M m5 buf 128 f := h4.put (by simp)
  have h6 : Block M m6 buf 128 f := h5.put (by simp)
  have h7 : Block M m7 buf 128 f := h6.put (by simp)
  refine ⟨put f 64 (leBytes 8 0) m7, ?_, ?_⟩
  · rw [fill_stat_chr, run_zeros_bind h, h0.run_store_bind (by simp), h1.run_store_bind (by simp),
      h2.run_store_bind (by simp), h3.run_store_bind (by simp), h4.run_store_bind (by simp),
      h5.run_store_bind (by simp), h6.run_store_bind (by simp)]
    exact h7.run_storeBytes (by simp)
  · rw [contents_put h.inj (by simp), contents_put h.inj (by simp), contents_put h.inj (by simp),
      contents_put h.inj (by simp), contents_put h.inj (by simp), contents_put h.inj (by simp),
      contents_put h.inj (by simp), contents_put h.inj (by simp), contents_zeros h]
    decide

end Encode

/-! ## Section 3: The calls -/

/-- The size that `fstat` is to report; 0 for the console and for a pipe. -/
def Io.fd_size (io : Io) (fd : Int) : Nat :=
  match io.fd_table.get (ofIsize fd) with
  | some of => if of.inode = 0 then 0 else io.fs.file_size of.inode
  | none => 0

/-- The size that `fstatat` is to report. -/
def Io.path_size (io : Io) (path : Path) : Nat :=
  match io.fs.lookup path with
  | some inode => io.fs.file_size inode
  | none => 0

/-- If the call succeeds, the status that it leaves in the buffer is that of a
    file of `size` bytes. -/
def StatRight (M : Machine HeapAllocator Halt) (s : St HeapAllocator Io) (call : IoM Int) (f : Nat → Nat)
    (size : Nat) : Prop :=
  ∀ t, run M call s = .ok 0 t → (Stat.decode (contents f 128 t.mem)).Right size

/-- The call succeeds and leaves a status with the link count misplaced. -/
def StatShifted (M : Machine HeapAllocator Halt) (s : St HeapAllocator Io) (call : IoM Int) (f : Nat → Nat)
    (size : Nat) : Prop :=
  ∃ t, run M call s = .ok 0 t ∧ (Stat.decode (contents f 128 t.mem)).Shifted size

section Calls

variable {M : Machine HeapAllocator Halt} {s : St HeapAllocator Io} {buf : Ptr} {f : Nat → Nat}

/-- `fstat` of an open descriptor: no links, and user 1. -/
theorem run_fstat {fd : Int} {of : OpenFile} (h : Block M s.mem buf 128 f)
    (hfd : s.st.fd_table.get (ofIsize fd) = some of) :
    ∃ t, run M (sys_fstat fd buf) s = .ok 0 t ∧ (Stat.decode (contents f 128 t.mem)).st_nlink = 0 ∧
      (s.st.fd_size fd + 511 < 2 ^ 64 → (Stat.decode (contents f 128 t.mem)).Shifted (s.st.fd_size fd)) := by
  unfold sys_fstat Io.fd_size
  simp only [run_get_bind, hfd]
  by_cases hino : of.inode = 0
  · obtain ⟨m, hrun, hdecode⟩ := run_fill_stat_chr h
    simp only [hino, if_true, run_bind, hrun, run_pure]
    exact ⟨_, rfl, by rw [hdecode]; rfl, fun _ => by rw [hdecode]; exact Stat.console_shifted⟩
  · obtain ⟨m, hrun, hdecode⟩ := run_fill_stat (s.st.fs.file_size of.inode) h
    simp only [hino, if_false, run_bind, hrun, run_pure]
    exact ⟨_, rfl, by rw [hdecode]; rfl, fun hfit => by rw [hdecode]; exact Stat.filled_shifted hfit⟩

/-- `fstatat` of a path that exists. -/
theorem run_fstatat {path : Ptr} {name : Path} {inode : Nat} (h : Block M s.mem buf 128 f)
    (hname : run M (cstr path) s = .ok name s) (hlook : s.st.fs.lookup name = some inode) :
    ∃ t, run M (sys_fstatat path buf) s = .ok 0 t ∧ (Stat.decode (contents f 128 t.mem)).st_nlink = 0 ∧
      (s.st.path_size name + 511 < 2 ^ 64 →
        (Stat.decode (contents f 128 t.mem)).Shifted (s.st.path_size name)) := by
  obtain ⟨m, hrun, hdecode⟩ := run_fill_stat (s.st.fs.file_size inode) h
  unfold sys_fstatat stat_path Io.path_size
  simp only [run_bind_of_ok _ hname, run_get_bind, hlook]
  simp only [run_bind, hrun, run_pure]
  exact ⟨_, rfl, by rw [hdecode]; rfl, fun hfit => by rw [hdecode]; exact Stat.filled_shifted hfit⟩

/-- A call that succeeds and reports no links is not right. -/
theorem not_statRight {call : IoM Int} {size : Nat}
    (h : ∃ t, run M call s = .ok 0 t ∧ (Stat.decode (contents f 128 t.mem)).st_nlink = 0) :
    ¬ StatRight M s call f size := by
  obtain ⟨t, hrun, hnlink⟩ := h
  intro hright
  have hone := (hright t hrun).st_nlink
  omega

theorem fstat_right_iff (fd : Int) (h : Block M s.mem buf 128 f) :
    StatRight M s (sys_fstat fd buf) f (s.st.fd_size fd) ↔ s.st.fd_table.get (ofIsize fd) = none := by
  constructor
  · intro hright
    by_contra hopen
    obtain ⟨of, hfd⟩ := Option.ne_none_iff_exists'.mp hopen
    obtain ⟨t, hrun, hnlink, -⟩ := run_fstat h hfd
    exact not_statRight ⟨t, hrun, hnlink⟩ hright
  · intro hclosed t hrun
    -- a closed descriptor is refused with -1
    unfold sys_fstat at hrun
    simp only [run_get_bind, hclosed, run_pure, EStateM.Result.ok.injEq] at hrun
    exact absurd hrun.1 (by decide)

theorem fstatat_right_iff {path : Ptr} {name : Path} (h : Block M s.mem buf 128 f)
    (hname : run M (cstr path) s = .ok name s) :
    StatRight M s (sys_fstatat path buf) f (s.st.path_size name) ↔ s.st.fs.lookup name = none := by
  constructor
  · intro hright
    by_contra hexists
    obtain ⟨inode, hlook⟩ := Option.ne_none_iff_exists'.mp hexists
    obtain ⟨t, hrun, hnlink, -⟩ := run_fstatat h hname hlook
    exact not_statRight ⟨t, hrun, hnlink⟩ hright
  · intro hnone t hrun
    -- a path that does not exist is refused with -2
    unfold sys_fstatat stat_path at hrun
    simp only [run_bind_of_ok _ hname, run_get_bind, hnone, run_pure, EStateM.Result.ok.injEq] at hrun
    exact absurd hrun.1 (by decide)

/-- `fstat` of an open file and `fstatat` of its path are the same run. -/
theorem fstat_eq_fstatat (hlaw : s.st.fs.Lawful) {fd : Int} {of : OpenFile} {path : Ptr} {name : Path}
    (hfd : s.st.fd_table.get (ofIsize fd) = some of) (hpath : s.st.fs.inode_map[of.inode]? = some name)
    (hname : run M (cstr path) s = .ok name s) :
    run M (sys_fstat fd buf) s = run M (sys_fstatat path buf) s := by
  have hino : of.inode ≠ 0 := by
    have hpos := ((hlaw.numbered of.inode).mp (Std.TreeMap.mem_iff_isSome_getElem?.mpr (by simp [hpath]))).1
    omega
  have hlook : s.st.fs.lookup name = some of.inode := hlaw.lookup_iff.mpr hpath
  unfold sys_fstat sys_fstatat stat_path
  simp only [run_get_bind, hfd, hino, if_false, run_bind_of_ok _ hname, hlook]

end Calls

/-- **The status of a file.**  On a buffer of 128 bytes, `fstat` is right only
    for a descriptor that is not open and `fstatat` only for a path that does not
    exist: every status they do store has `st_nlink = 0` and `st_uid = 1`.  Its
    group and its sizes are right, and both calls agree on an open file. -/
theorem stat_fields (M : Machine HeapAllocator Halt) (s : St HeapAllocator Io) (buf : Ptr) (f : Nat → Nat)
    (hblock : Block M s.mem buf 128 f) :
    (∀ fd, StatRight M s (sys_fstat fd buf) f (s.st.fd_size fd) ↔ s.st.fd_table.get (ofIsize fd) = none) ∧
    (∀ path name, run M (cstr path) s = .ok name s →
      (StatRight M s (sys_fstatat path buf) f (s.st.path_size name) ↔ s.st.fs.lookup name = none)) ∧
    (∀ fd, s.st.fd_table.get (ofIsize fd) ≠ none → s.st.fd_size fd + 511 < 2 ^ 64 →
      StatShifted M s (sys_fstat fd buf) f (s.st.fd_size fd)) ∧
    (∀ path name, run M (cstr path) s = .ok name s → s.st.fs.lookup name ≠ none →
      s.st.path_size name + 511 < 2 ^ 64 → StatShifted M s (sys_fstatat path buf) f (s.st.path_size name)) ∧
    (s.st.fs.Lawful → ∀ fd of path name, s.st.fd_table.get (ofIsize fd) = some of →
      s.st.fs.inode_map[of.inode]? = some name → run M (cstr path) s = .ok name s →
      run M (sys_fstat fd buf) s = run M (sys_fstatat path buf) s) := by
  refine ⟨fun fd => fstat_right_iff fd hblock, fun path name hname => fstatat_right_iff hblock hname, ?_, ?_, ?_⟩
  · intro fd hopen hfit
    obtain ⟨of, hfd⟩ := Option.ne_none_iff_exists'.mp hopen
    obtain ⟨t, hrun, -, hshifted⟩ := run_fstat hblock hfd
    exact ⟨t, hrun, hshifted hfit⟩
  · intro path name hname hexists hfit
    obtain ⟨inode, hlook⟩ := Option.ne_none_iff_exists'.mp hexists
    obtain ⟨t, hrun, -, hshifted⟩ := run_fstatat hblock hname hlook
    exact ⟨t, hrun, hshifted hfit⟩
  · intro hlaw fd of path name hfd hpath hname
    exact fstat_eq_fstatat hlaw hfd hpath hname

/-- At boot, descriptor 7 is refused, and the sizes of standard input are right. -/
theorem stat_fields_boot :
    StatRight (machine 1) ⟨onePage, init_heap, Io.boot Fs.noBlobs⟩ (sys_fstat 7 (user 0))
      (fun i => 16384 + (0 + i)) ((Io.boot Fs.noBlobs).fd_size 7) ∧
    StatShifted (machine 1) ⟨onePage, init_heap, Io.boot Fs.noBlobs⟩ (sys_fstat 0 (user 0))
      (fun i => 16384 + (0 + i)) ((Io.boot Fs.noBlobs).fd_size 0) := by
  have hblock : Block (machine 1) onePage (user 0) 128 (fun i => 16384 + (0 + i)) :=
    page_block (fun _ _ => rfl) (by decide)
  obtain ⟨hright, -, hshifted, -⟩ :=
    stat_fields (machine 1) ⟨onePage, init_heap, Io.boot Fs.noBlobs⟩ (user 0) _ hblock
  exact ⟨(hright 7).mpr (by decide), hshifted 0 (by decide) (by decide)⟩

/-- **Counterexample**: the status of standard output says no links and user 1. -/
theorem stat_console_shifted :
    StatShifted (machine 1) ⟨onePage, init_heap, Io.boot Fs.noBlobs⟩ (sys_fstat 1 (user 0))
      (fun i => 16384 + (0 + i)) 0 ∧
    ¬ StatRight (machine 1) ⟨onePage, init_heap, Io.boot Fs.noBlobs⟩ (sys_fstat 1 (user 0))
      (fun i => 16384 + (0 + i)) ((Io.boot Fs.noBlobs).fd_size 1) := by
  have hblock : Block (machine 1) onePage (user 0) 128 (fun i => 16384 + (0 + i)) :=
    page_block (fun _ _ => rfl) (by decide)
  have hfd : (Io.boot Fs.noBlobs).fd_table.get (ofIsize 1) = some FdTable.stdio := by decide
  have hsize : (Io.boot Fs.noBlobs).fd_size 1 = 0 := by decide
  obtain ⟨t, hrun, hnlink, hshifted⟩ := run_fstat (s := ⟨onePage, init_heap, Io.boot Fs.noBlobs⟩) hblock hfd
  rw [hsize] at hshifted
  exact ⟨⟨t, hrun, hshifted (by decide)⟩, not_statRight ⟨t, hrun, hnlink⟩⟩

end Rvos

import Rvos.Io.Inodes
import Rvos.Lib.Block

/-! # Reading and writing at an offset

    `fs::read_inode` and `fs::write_inode` take whatever offset a descriptor, a
    `pread64`, a `pwrite64` or an `mmap` hands them.

    * `read_inode_iff` : reading is what its callers expect exactly if the offset
      is not past the end of the file.  The length is clamped, the slice is not,
      so an offset past the end panics although nothing is to be read.
    * `write_inode_iff` : writing is what its callers expect exactly if the end
      of the write is below `2 ^ 64` and the heap can hold the grown vector. -/

namespace Rvos

open Access Access.Code ByteMem Usize

/-! ## Section 1: Vectors on the heap -/

/-- The capacity of a vector of bytes that has grown to hold `required` ones. -/
def grown (cap required : Nat) : Nat := max (max (2 * cap) required) 8

section Heap

variable {root : Nat} {s : St HeapAllocator Io} {n len cap additional : Nat}

/-- The state with the next `n` bytes of the heap taken and zero-filled. -/
def took (s : St HeapAllocator Io) (n : Nat) : St HeapAllocator Io :=
  { s with mem := fill s.mem s.heap.current n 0, heap := { s.heap with current := s.heap.current + n } }

theorem run_allocZeroed_room (hok : s.heap.Ok) (hroom : s.heap.current + n ≤ s.heap.end_) :
    run (machine root) (Code.allocZeroed n 0) s = .ok s.heap.current (took s n) := by
  have hend := hok.end_eq
  have halloc : (machine root).alloc s.heap n 0 =
      (some s.heap.current, { s.heap with current := s.heap.current + n }) := by
    show heap_alloc s.heap n 0 = _
    rw [heap_alloc_bytes hok (by omega), if_pos hroom]
  simp only [Code.allocZeroed, run, halloc, took]

theorem run_allocZeroed_full (hok : s.heap.Ok) (hn : n < 2 ^ 63)
    (hfull : s.heap.end_ < s.heap.current + n) :
    run (machine root) (Code.allocZeroed n 0 : IoM Nat) s = .error (.panic "memory allocation failed") s := by
  have halloc : (machine root).alloc s.heap n 0 = (none, s.heap) := by
    show heap_alloc s.heap n 0 = _
    rw [heap_alloc_bytes hok hn, if_neg (by omega)]
  simp only [Code.allocZeroed, run, halloc]
  rfl

theorem vec_zeroed_pos (hpos : 0 < n) (hlt : n < 2 ^ 63) : (vec_zeroed n : IoM Nat) = Code.allocZeroed n 0 := by
  unfold vec_zeroed isizeMax
  rw [if_neg (by omega), if_neg (by omega)]

theorem vec_zeroed_one : (vec_zeroed 1 : IoM Nat) = Code.allocZeroed 1 0 := vec_zeroed_pos (by decide) (by decide)

theorem init_heap_ok : init_heap.Ok := ⟨by decide, by decide, rfl⟩

/-- A vector of bytes grows, if the heap has room for it. -/
theorem run_vec_reserve_room (hok : s.heap.Ok) (hgrow : cap - len < additional)
    (hroom : s.heap.current + grown cap (len + additional) ≤ s.heap.end_) :
    run (machine root) (vec_reserve 1 0 len cap additional) s =
      .ok (grown cap (len + additional)) (took s (grown cap (len + additional))) := by
  have hend := hok.end_eq
  have hle : len + additional ≤ grown cap (len + additional) := by
    unfold grown
    omega
  unfold vec_reserve
  rw [if_neg (by omega)]
  simp only [if_pos, Nat.mul_one]
  rw [show max (max (2 * cap) (len + additional)) 8 = grown cap (len + additional) from rfl,
    if_neg (by unfold isizeMax; omega), run_bind, run_allocZeroed_room hok hroom]
  rfl

/-- Otherwise the kernel panics. -/
theorem run_vec_reserve_full (hok : s.heap.Ok) (hgrow : cap - len < additional)
    (hfull : s.heap.end_ < s.heap.current + grown cap (len + additional)) :
    ∃ msg, run (machine root) (vec_reserve 1 0 len cap additional) s = .error (.panic msg) s := by
  unfold vec_reserve
  rw [if_neg (by omega)]
  simp only [if_pos, Nat.mul_one]
  rw [show max (max (2 * cap) (len + additional)) 8 = grown cap (len + additional) from rfl]
  split
  · exact ⟨_, rfl⟩
  · next hsmall =>
    have hlt : grown cap (len + additional) < 2 ^ 63 := by
      unfold isizeMax at hsmall
      omega
    rw [run_bind, run_allocZeroed_full hok hlt hfull]
    exact ⟨_, rfl⟩

end Heap

/-! ## Section 2: A file opened at boot -/

/-- The call that opens `path`, from memory that holds it. -/
def IoLabel.openat (path : Path) (fd : Nat) : IoLabel :=
  ⟨1, pathMem path, init_heap, 56, ⟨0, 0, 2, 0, 0, 0⟩, fd⟩

/-- The tables after the first `openat`, of the file with this inode. -/
def Io.opened (io : Io) (inode : Nat) : Io :=
  { io with fd_table := { io.fd_table with files := io.fd_table.files ++
      [some { inode := inode, offset := 0, readable := true, writable := true, pipe_id := none }] } }

/-- The first `openat` after boot gets descriptor 3. -/
theorem openat_boot (b : Fs.Blobs) {path : Path} {inode : Nat} (hlen : path.length < 2 ^ 64)
    (hstr : str_at (machine 1) (pathMem path) (user 0) path = true)
    (hpath : (Fs.init b).lookup path = some inode) :
    IoStep .idle (Io.boot b) (.openat path 3) ((Io.boot b).opened inode) := by
  have hcstr : run (machine 1) (cstr (user 0)) ((IoLabel.openat path 3).start (Io.boot b)) =
      .ok path ((IoLabel.openat path 3).start (Io.boot b)) := run_cstr hlen hstr
  have hlook : ((IoLabel.openat path 3).start (Io.boot b)).st.fs.lookup path = some inode := hpath
  refine ⟨_, ⟨pathMem path, init_heap, (Io.boot b).opened inode⟩, rfl, ?_, rfl⟩
  show run (machine 1) (sys_openat (user 0) (toIsize 2)) _ = _
  unfold sys_openat
  rw [run_bind, hcstr]
  simp only [run_get_bind, hlook]
  rfl

/-- A file of boot, with its inode. -/
theorem boot_file (b : Fs.Blobs) {c : Fs.Creation} (hc : c ∈ Fs.init_calls b) :
    ∃ inode, (Fs.init b).lookup c.path = some inode ∧ (Fs.init b).inode_map[inode]? = some c.path ∧
      (Fs.init b).files[c.path]? = some ⟨c.contents⟩ := by
  have hfile := Fs.init_get b hc
  have hmem : c.path ∈ (Fs.init b).files := by
    rw [Std.TreeMap.mem_iff_isSome_getElem?, hfile]
    rfl
  obtain ⟨inode, hinode⟩ := (Fs.init_lawful b).inode c.path hmem
  exact ⟨inode, (Fs.init_lawful b).lookup_iff.mpr hinode, hinode, hfile⟩

theorem Io.opened_get (b : Fs.Blobs) (inode : Nat) :
    ((Io.boot b).opened inode).fd_table.get 3 =
      some { inode := inode, offset := 0, readable := true, writable := true, pipe_id := none } := rfl

/-- The bytes of a page that is mapped at address 0 are a block. -/
theorem page_block {m : Mem} (hm : ∀ a, a < 16384 → m a = onePage a) {va n : Nat} (hfit : va + n ≤ 4096) :
    Block (machine 1) m (user va) n (fun i => 16384 + (va + i)) where
  addr_lt := by
    show va < 2 ^ 64
    omega
  inj := by
    intro i j _ _ h
    omega
  fixed := by
    intro m' hm' w i hi
    -- the tables lie below the page, so no store into the page changes them
    have htables : ∀ a, a < 16384 → m' a = onePage a := by
      intro a ha
      rw [hm' a _, hm a ha]
      rintro ⟨j, -, rfl⟩
      omega
    have hwadd : wadd va i = va + i := wadd_of_lt (by omega)
    show hw_translate m' 1 w (wadd va i) = _
    rw [hwadd]
    exact onePage_translate htables (by omega) w

/-! ## Section 3: Reading -/

/-- The bytes of an inode's file; none if there is no such file. -/
def Fs.bytes (fs : Fs) (inode : Nat) : List UInt8 :=
  match fs.file inode with
  | some f => f.as_slice
  | none => []

/-- `read_inode` into a buffer of `len` bytes returns, with as many bytes as lie
    between the offset and the end of the file, at most `len`; and the front of
    the buffer gets the bytes of the file from the offset on. -/
def Fs.ReadsRight (fs : Fs) (inode len offset : Nat) : Prop :=
  ∃ bs, fs.read_inode inode len offset = .ok bs ∧
    bs.length = min len (fs.file_size inode - min offset (fs.file_size inode)) ∧
    bs = ((fs.bytes inode).drop offset).take bs.length

section Read

variable {fs : Fs} {inode len offset : Nat} {f : File}

/-- Up to the end of the file the slice is in bounds. -/
theorem Fs.read_inode_inside (hf : fs.file inode = some f) (hle : offset ≤ f.len) :
    fs.read_inode inode len offset = .ok ((f.as_slice.drop offset).take (min (f.len - offset) len)) := by
  have hlen : f.as_slice.length = f.len := rfl
  have hend : wadd offset (min (f.len - offset) len) ≤ f.len := by
    rw [wadd]
    have hmod := Nat.mod_le (offset + min (f.len - offset) len) (2 ^ 64)
    omega
  unfold Fs.read_inode
  simp only [hf, hlen, Nat.min_eq_left hle]
  rw [if_neg (by omega)]

/-- Past the end it is out of bounds, although it is empty. -/
theorem Fs.read_inode_past (hoff : offset < 2 ^ 64) (hf : fs.file inode = some f) (hpast : f.len < offset) :
    fs.read_inode inode len offset = .error (.panic "range end index out of range for slice") := by
  have hlen : f.as_slice.length = f.len := rfl
  unfold Fs.read_inode
  simp only [hf, hlen, Nat.min_eq_right hpast.le, Nat.sub_self, Nat.zero_min]
  rw [if_pos (by rw [wadd_of_lt (by omega)]; omega)]

/-- **Reading at an offset.**  `read_inode` returns, with the right bytes, if and
    only if there is no file or the offset is not past its end. -/
theorem read_inode_iff (fs : Fs) (inode len offset : Nat) (hoff : offset < 2 ^ 64) :
    fs.ReadsRight inode len offset ↔ fs.file inode = none ∨ offset ≤ fs.file_size inode := by
  cases hf : fs.file inode with
  | none =>
    have hsize : fs.file_size inode = 0 := by simp [Fs.file_size, hf]
    refine ⟨fun _ => Or.inl rfl, fun _ => ⟨[], by simp [Fs.read_inode, hf], ?_, by simp⟩⟩
    simp [hsize]
  | some f =>
    have hsize : fs.file_size inode = f.len := by simp [Fs.file_size, hf]
    have hbytes : fs.bytes inode = f.as_slice := by simp [Fs.bytes, hf]
    rw [hsize]
    constructor
    · intro h
      obtain ⟨bs, hread, -⟩ := h
      by_contra hpast
      have hpast : f.len < offset := by simpa using hpast
      rw [Fs.read_inode_past hoff hf hpast] at hread
      cases hread
    · intro h
      have hle : offset ≤ f.len := h.resolve_left (by simp)
      have hlen : f.as_slice.length = f.len := rfl
      refine ⟨_, Fs.read_inode_inside hf hle, ?_, ?_⟩
      · rw [List.length_take, List.length_drop, hlen, hsize]
        omega
      · rw [hbytes, List.length_take, List.length_drop, hlen]
        congr 1
        omega

end Read

/-- The text of `/proc/stat`. -/
def procStat : List UInt8 := utf8 "cpu  0 0 0 0 0 0 0 0 0 0\n"

theorem boot_stat : ∃ inode, (Fs.init Fs.noBlobs).lookup (utf8 "/proc/stat") = some inode ∧
    (Fs.init Fs.noBlobs).file inode = some ⟨.Static procStat⟩ := by
  obtain ⟨inode, hlook, hinode, hfile⟩ := boot_file Fs.noBlobs
    (c := .create_file_static (utf8 "/proc/stat") procStat) (by simp [Fs.init_calls, procStat])
  refine ⟨inode, hlook, ?_⟩
  rw [Fs.file, hinode]
  exact hfile

/-- The beginning of `/proc/stat` can be read. -/
theorem read_inode_stat : ∃ inode, (Fs.init Fs.noBlobs).lookup (utf8 "/proc/stat") = some inode ∧
    (Fs.init Fs.noBlobs).ReadsRight inode 10 4 := by
  obtain ⟨inode, hlook, hfile⟩ := boot_stat
  refine ⟨inode, hlook, (read_inode_iff _ inode 10 4 (by decide)).mpr (Or.inr ?_)⟩
  rw [Fs.file_size, hfile]
  decide +kernel

/-- **Counterexample**: `/proc/stat` is opened at boot, and a `pread64` of one
    byte at offset 4096 panics. -/
theorem read_past_end_panics :
    ∃ inode t, IoStep .idle (Io.boot Fs.noBlobs) (.openat (utf8 "/proc/stat") 3)
        ((Io.boot Fs.noBlobs).opened inode) ∧
      run (machine 1) (sys_pread64 3 (user 0) 1 4096) ⟨onePage, init_heap, (Io.boot Fs.noBlobs).opened inode⟩ =
        .error (.panic "range end index out of range for slice") t ∧
      ¬ (Fs.init Fs.noBlobs).ReadsRight inode 1 4096 := by
  obtain ⟨inode, hlook, hfile⟩ := boot_stat
  have hpast : ∀ len, (Fs.init Fs.noBlobs).read_inode inode len 4096 =
      .error (.panic "range end index out of range for slice") := by
    intro len
    apply Fs.read_inode_past (by decide) hfile
    decide +kernel
  have hof := Io.opened_get Fs.noBlobs inode
  refine ⟨inode, took ⟨onePage, init_heap, (Io.boot Fs.noBlobs).opened inode⟩ 1,
    openat_boot _ (by decide +kernel) (by decide +kernel) hlook, ?_, ?_⟩
  · unfold sys_pread64 read_file
    simp only [run_get_bind, show ofIsize 3 = 3 from ofIsize_natCast (by decide), hof, vec_zeroed_one]
    rw [run_bind, run_bind, run_allocZeroed_room init_heap_ok (show init_heap.current + 1 ≤ init_heap.end_ by decide)]
    simp only [run_get_bind, took]
    rw [show ((Io.boot Fs.noBlobs).opened inode).fs = Fs.init Fs.noBlobs from rfl, hpast]
    rfl
  · intro h
    obtain ⟨bs, hread, -⟩ := h
    rw [hpast] at hread
    cases hread

/-! ## Section 4: Writing -/

/-- The bytes `buf` put into `v` at `offset`; a gap before them is filled with zeros. -/
def splice (v : List UInt8) (offset : Nat) (buf : List UInt8) : List UInt8 :=
  (v ++ List.replicate (offset - v.length) 0).take offset ++ buf ++ v.drop (offset + buf.length)

/-- `write_inode` returns, and either the whole buffer is in the file at the
    offset and its length is returned, or 0 is returned and the bytes of the
    file are the same. -/
def WritesRight (root : Nat) (s : St HeapAllocator Io) (inode : Nat) (path : Path) (v buf : List UInt8)
    (offset : Nat) : Prop :=
  ∃ r t v' cap', run (machine root) (write_inode inode buf offset) s = .ok r t ∧
    t.st.fs.files[path]? = some ⟨.Dynamic v' cap'⟩ ∧
    (r = buf.length ∧ v' = splice v offset buf ∨ r = 0 ∧ v' = v)

section Write

variable {root : Nat} {s : St HeapAllocator Io} {inode cap : Nat} {path : Path} {v buf : List UInt8}
  {offset : Nat}

/-- The statics after a write has made the file `v'`. -/
def Io.wrote (io : Io) (path : Path) (v' : List UInt8) (cap' : Nat) : Io :=
  { io with fs := { io.fs with files := io.fs.files.insert path ⟨.Dynamic v' cap'⟩ } }

/-- Padding up to the end of the write and storing there is `splice`. -/
theorem splice_eq (v : List UInt8) (offset : Nat) (buf : List UInt8) :
    (v ++ List.replicate (offset + buf.length - v.length) 0).take offset ++ buf ++
        (v ++ List.replicate (offset + buf.length - v.length) 0).drop (offset + buf.length) =
      splice v offset buf := by
  unfold splice
  congr 1
  · congr 1
    -- both are cut at the offset, where the longer padding does not matter
    rw [List.take_append, List.take_append, List.take_replicate, List.take_replicate]
    congr 2
    omega
  · rw [List.drop_append, List.drop_replicate]
    have hzero : offset + buf.length - v.length - (offset + buf.length - v.length) = 0 := by omega
    simp

/-- The vector has, or gets, room for bytes up to `last`. -/
def Reserves (root : Nat) (s : St HeapAllocator Io) (len cap last cap' : Nat) (u : St HeapAllocator Io) : Prop :=
  last ≤ len ∧ cap' = cap ∧ u = s ∨
    len < last ∧ run (machine root) (vec_reserve 1 0 len cap (last - len)) s = .ok cap' u

theorem Reserves.st {len last cap' : Nat} {u : St HeapAllocator Io} (h : Reserves root s len cap last cap' u) :
    u.st = s.st := by
  obtain ⟨-, -, rfl⟩ | ⟨-, hrun⟩ := h
  · rfl
  · exact run_vec_reserve hrun

/-- There is room already. -/
theorem Reserves.of_le (root : Nat) {len last : Nat} (h : last ≤ max len cap) :
    Reserves root s len cap last cap s := by
  by_cases hshort : last ≤ len
  · exact Or.inl ⟨hshort, rfl, rfl⟩
  · refine Or.inr ⟨by omega, ?_⟩
    unfold vec_reserve
    rw [if_pos (by omega)]
    rfl

/-- The heap has room for a new vector. -/
theorem Reserves.of_room (root : Nat) (hok : s.heap.Ok) {len last : Nat} (h : ¬ last ≤ max len cap)
    (hroom : s.heap.current + grown cap last ≤ s.heap.end_) :
    Reserves root s len cap last (grown cap last) (took s (grown cap last)) := by
  have hsum : len + (last - len) = last := by omega
  have hrun : run (machine root) (vec_reserve 1 0 len cap (last - len)) s = _ :=
    run_vec_reserve_room hok (by omega) (by rw [hsum]; exact hroom)
  rw [hsum] at hrun
  exact Or.inr ⟨by omega, hrun⟩

/-- When the vector gets its room. -/
theorem reserves_iff (root : Nat) (hok : s.heap.Ok) {len last : Nat} :
    (∃ cap' u, Reserves root s len cap last cap' u) ↔
      last ≤ max len cap ∨ s.heap.current + grown cap last ≤ s.heap.end_ := by
  by_cases hle : last ≤ max len cap
  · exact ⟨fun _ => Or.inl hle, fun _ => ⟨cap, s, .of_le root hle⟩⟩
  constructor
  · intro h
    obtain ⟨cap', u, ⟨hshort, -⟩ | ⟨-, hrun⟩⟩ := h
    · omega
    · right
      by_contra hfull
      obtain ⟨msg, herr⟩ : ∃ msg, run (machine root) (vec_reserve 1 0 len cap (last - len)) s =
          .error (.panic msg) s :=
        run_vec_reserve_full hok (by omega) (by rw [show len + (last - len) = last by omega]; omega)
      rw [herr] at hrun
      cases hrun
  · intro h
    exact ⟨_, _, .of_room root hok hle (h.resolve_left hle)⟩

/-- A write that ends below `2 ^ 64`, once the vector has its room. -/
theorem run_write_inode {u : St HeapAllocator Io} {cap' : Nat} (hpath : s.st.fs.inode_map[inode]? = some path)
    (hfile : s.st.fs.files[path]? = some ⟨.Dynamic v cap⟩) (hend : offset + buf.length < 2 ^ 64)
    (hroom : Reserves root s v.length cap (offset + buf.length) cap' u) :
    run (machine root) (write_inode inode buf offset) s =
      .ok buf.length { u with st := s.st.wrote path (splice v offset buf) cap' } := by
  have hst := hroom.st
  have horder : ¬ offset + buf.length < offset := by omega
  unfold write_inode
  simp only [run_get_bind, hpath, hfile, wadd_of_lt hend]
  obtain ⟨hshort, rfl, rfl⟩ | ⟨hlong, hrun⟩ := hroom
  · rw [if_neg (by omega)]
    simp only [if_neg horder, splice_eq]
    rfl
  · rw [if_pos hlong, run_bind, hrun]
    simp only [if_neg horder, splice_eq, run_modify_bind, hst]
    rfl

/-- A write does not return if its end wraps or there is no room. -/
theorem run_write_inode_ok {r : Nat} {t : St HeapAllocator Io} (hlen : buf.length < 2 ^ 64)
    (hoff : offset < 2 ^ 64) (hpath : s.st.fs.inode_map[inode]? = some path)
    (hfile : s.st.fs.files[path]? = some ⟨.Dynamic v cap⟩)
    (h : run (machine root) (write_inode inode buf offset) s = .ok r t) :
    offset + buf.length < 2 ^ 64 ∧ ∃ cap' u, Reserves root s v.length cap (offset + buf.length) cap' u := by
  unfold write_inode at h
  simp only [run_get_bind, hpath, hfile] at h
  by_cases hend : offset + buf.length < 2 ^ 64
  · refine ⟨hend, ?_⟩
    rw [wadd_of_lt hend] at h
    by_cases hshort : offset + buf.length ≤ v.length
    · exact ⟨cap, s, Or.inl ⟨hshort, rfl, rfl⟩⟩
    · rw [if_pos (by omega)] at h
      obtain ⟨cap', u, hrun, -⟩ := (run_bind_ok _).mp h
      exact ⟨cap', u, Or.inr ⟨by omega, hrun⟩⟩
  · -- the end wrapped, and lies before the start
    exfalso
    have hwrap : wadd offset buf.length < offset := by
      rw [wadd]
      omega
    simp only [if_pos hwrap] at h
    by_cases hlong : wadd offset buf.length > v.length
    · rw [if_pos hlong] at h
      obtain ⟨cap', u, -, hrest⟩ := (run_bind_ok _).mp h
      cases hrest
    · rw [if_neg hlong] at h
      cases h

/-- **Writing at an offset.**  For a growable file, `write_inode` puts the whole
    buffer into the file and returns its length, or returns 0 and leaves the
    file, if and only if the end of the write is below `2 ^ 64` and the vector is
    long enough, or has the capacity, or the heap has room for the new one. -/
theorem write_inode_iff (root : Nat) {s : St HeapAllocator Io} (hok : s.heap.Ok) {inode cap : Nat}
    {path : Path} {v : List UInt8} (hpath : s.st.fs.inode_map[inode]? = some path)
    (hfile : s.st.fs.files[path]? = some ⟨.Dynamic v cap⟩) (buf : List UInt8) (offset : Nat)
    (hlen : buf.length < 2 ^ 64) (hoff : offset < 2 ^ 64) :
    WritesRight root s inode path v buf offset ↔
      offset + buf.length < 2 ^ 64 ∧ (offset + buf.length ≤ max v.length cap ∨
        s.heap.current + grown cap (offset + buf.length) ≤ s.heap.end_) := by
  constructor
  · intro h
    obtain ⟨r, t, v', cap', hrun, -⟩ := h
    obtain ⟨hend, hroom⟩ := run_write_inode_ok hlen hoff hpath hfile hrun
    exact ⟨hend, (reserves_iff root hok).mp hroom⟩
  · intro h
    obtain ⟨hend, hroom⟩ := h
    obtain ⟨cap', u, hres⟩ := (reserves_iff root hok).mpr hroom
    refine ⟨buf.length, _, splice v offset buf, cap', run_write_inode hpath hfile hend hres, ?_, Or.inl ⟨rfl, rfl⟩⟩
    simp [Io.wrote]

/-- One byte from the page of user memory. -/
theorem run_copy_in_page (io : Io) :
    run (machine 1) (copy_in (user 0) 1) ⟨onePage, init_heap, io⟩ =
      .ok [0] (took ⟨onePage, init_heap, io⟩ 1) := by
  have hat : (machine 1).at (fill onePage init_heap.current 1 0) ⟨false, user 0⟩ = some 16384 := by
    decide +kernel
  have hzero : fill onePage init_heap.current 1 0 16384 = 0 := by decide +kernel
  unfold copy_in
  rw [vec_zeroed_one, run_bind, run_allocZeroed_room init_heap_ok (show init_heap.current + 1 ≤ init_heap.end_ by decide)]
  simp only [Code.loadBytes, Code.loadByte, run_bind, run, took, hat, hzero, run_pure]

end Write

/-- The error log of the web server, which is empty at boot. -/
def errorLog : Path := utf8 "/var/log/nginx/error.log"

theorem boot_log : ∃ inode, (Fs.init Fs.noBlobs).lookup errorLog = some inode ∧
    (Fs.init Fs.noBlobs).inode_map[inode]? = some errorLog ∧
    (Fs.init Fs.noBlobs).files[errorLog]? = some ⟨.Dynamic [] 0⟩ :=
  boot_file Fs.noBlobs (c := .create_file_dynamic errorLog []) (by simp [Fs.init_calls, errorLog])

/-- At boot two bytes can be written at the beginning of the log. -/
theorem write_inode_log : ∃ inode, (Fs.init Fs.noBlobs).lookup errorLog = some inode ∧
    WritesRight 1 ⟨onePage, init_heap, Io.boot Fs.noBlobs⟩ inode errorLog [] [104, 105] 0 := by
  obtain ⟨inode, hlook, hinode, hfile⟩ := boot_log
  exact ⟨inode, hlook, (write_inode_iff 1 init_heap_ok hinode hfile [104, 105] 0 (by decide)
    (by decide)).mpr ⟨by decide, Or.inr (by decide)⟩⟩

/-- **Counterexample**: the log is opened at boot, and a `pwrite64` of one byte
    at offset -1 panics. -/
theorem write_at_minus_one_panics :
    ∃ inode t, IoStep .idle (Io.boot Fs.noBlobs) (.openat errorLog 3) ((Io.boot Fs.noBlobs).opened inode) ∧
      run (machine 1) (sys_pwrite64 3 (user 0) 1 (ofIsize (-1)))
        ⟨onePage, init_heap, (Io.boot Fs.noBlobs).opened inode⟩ =
          .error (.panic "slice index starts after its end") t ∧
      ¬ WritesRight 1 ⟨onePage, init_heap, (Io.boot Fs.noBlobs).opened inode⟩ inode errorLog [] [0]
        (ofIsize (-1)) := by
  obtain ⟨inode, hlook, hinode, hfile⟩ := boot_log
  have hof := Io.opened_get Fs.noBlobs inode
  have hinode' : ((Io.boot Fs.noBlobs).opened inode).fs.inode_map[inode]? = some errorLog := hinode
  have hfile' : ((Io.boot Fs.noBlobs).opened inode).fs.files[errorLog]? = some ⟨.Dynamic [] 0⟩ := hfile
  have hlast : wadd (ofIsize (-1)) 1 = 0 := by decide +kernel
  -- the end of the write is 0, which lies before its start
  have hwrite : ∀ s : St HeapAllocator Io, s.st = (Io.boot Fs.noBlobs).opened inode →
      run (machine 1) (write_inode inode [0] (ofIsize (-1))) s =
        .error (.panic "slice index starts after its end") s := by
    intro s hs
    unfold write_inode
    simp only [run_get_bind, hs, hinode', hfile', List.length_singleton, hlast]
    rfl
  refine ⟨inode, took ⟨onePage, init_heap, (Io.boot Fs.noBlobs).opened inode⟩ 1,
    openat_boot _ (by decide +kernel) (by decide +kernel) hlook, ?_, ?_⟩
  · unfold sys_pwrite64
    simp only [run_get_bind, show ofIsize 3 = 3 from ofIsize_natCast (by decide), hof]
    rw [run_bind_of_ok _ (run_copy_in_page _), run_bind_of_error _ (hwrite _ rfl)]
  · intro h
    obtain ⟨r, t, v', cap', hrun, -⟩ := h
    rw [hwrite _ rfl] at hrun
    cases hrun

end Rvos

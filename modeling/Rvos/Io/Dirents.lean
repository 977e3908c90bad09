import Rvos.Io.Listing
import Rvos.Io.Seek

/-! # Listings record by record

    `sys_getdents64` hands out `linux_dirent64` records.  Here the other side of
    the interface is written down, a reader of such records, and a listing is
    followed over any number of calls.

    * `parse_dirents` : the reader; `parse_encode` : it gets back what the kernel
      has encoded.
    * `ListStep` : one call, from any memory and with any buffer.
      `ListStep.inv` : what it stores and where it leaves the descriptor.
    * `listing_complete` : calls with buffers that have room for the next record,
      until one returns 0, list every name below the directory exactly once, and
      the offset of a record is where the listing resumes after it.
    * `getdents_end_iff` : without room for the next record the call returns 0 as
      well, as if nothing were left. -/

namespace Rvos

open Access Access.Code ByteMem Usize

/-! ## Section 1: The reader of records -/

/-- A `linux_dirent64` as a program sees it. -/
structure Dirent where
  d_ino : Nat
  d_off : Nat
  d_reclen : Nat
  d_type : UInt8
  d_name : Path
  deriving DecidableEq, Repr

/-- The first record of a buffer, and what follows it. -/
def parse_dirent (bs : List UInt8) : Option (Dirent × List UInt8) :=
  let reclen := leNat ((bs.drop 16).take 2)
  let name := ((bs.take reclen).drop 19).takeWhile (· != 0)
  -- the name ends with a zero inside the record
  if 19 + name.length < reclen ∧ reclen ≤ bs.length then
    some (⟨leNat (bs.take 8), leNat ((bs.drop 8).take 8), reclen, bs.getD 18 0, name⟩, bs.drop reclen)
  else
    none

/-- At most `fuel` records in a row, up to the end of the buffer. -/
def parse_dirents : (fuel : Nat) → List UInt8 → Option (List Dirent)
  | _, [] => some []
  | 0, _ :: _ => none
  | fuel + 1, b :: bs =>
    (parse_dirent (b :: bs)).bind fun p => (parse_dirents fuel p.2).map (p.1 :: ·)

namespace Fs

/-- The length of an entry's record. -/
def DirEntry.reclen (e : DirEntry) : Nat := (19 + (e.name.length + 1) + 7) / 8 * 8

theorem DirEntry.length_record (e : DirEntry) (idx : Nat) : (e.record idx).length = e.reclen := by
  simp only [record, reclen, List.length_append, length_leBytes, List.length_singleton, List.length_replicate]
  omega

/-- What a program sees of an entry. -/
def DirEntry.dirent (e : DirEntry) (idx : Nat) : Dirent :=
  ⟨e.inode % 2 ^ 64, idx + 1, e.reclen, e.d_type, e.name⟩

/-- What a program sees of entries, the first of which has index `idx`. -/
def dirents : List DirEntry → (idx : Nat) → List Dirent
  | [], _ => []
  | e :: es, idx => e.dirent idx :: dirents es (idx + 1)

end Fs

open Fs

/-- The name up to its zero. -/
theorem takeWhile_name {name pad : List UInt8} (h : 0 ∉ name) :
    (name ++ 0 :: pad).takeWhile (· != 0) = name := by
  rw [List.takeWhile_append_of_pos]
  · simp
  · intro c hc
    have hne : c ≠ 0 := fun h0 => h (h0 ▸ hc)
    simpa using hne

/-- The reader gets a record back, whatever follows. -/
theorem parse_record (e : DirEntry) {idx : Nat} (rest : List UInt8) (hname : 0 ∉ e.name)
    (hlen : e.reclen < 2 ^ 16) (hidx : idx + 1 < 2 ^ 64) :
    parse_dirent (e.record idx ++ rest) = some (e.dirent idx, rest) := by
  -- the fields of the record, one after the other
  have hrec : e.record idx ++ rest = leBytes 8 e.inode ++ (leBytes 8 (idx + 1) ++ (leBytes 2 e.reclen ++
      (e.d_type :: (e.name ++ 0 :: (List.replicate (e.reclen - (19 + (e.name.length + 1))) 0 ++ rest))))) := by
    simp only [DirEntry.record, DirEntry.reclen, List.append_assoc, List.cons_append, List.nil_append]
  have hreclen : leNat ((e.record idx ++ rest).drop 16 |>.take 2) = e.reclen := by
    rw [hrec, List.drop_append, List.drop_eq_nil_of_le (by simp), List.nil_append, length_leBytes,
      List.drop_append, List.drop_eq_nil_of_le (by simp), List.nil_append, length_leBytes]
    simp only [Nat.reduceSub, List.drop_zero]
    rw [List.take_left' (length_leBytes 2 _), leNat_leBytes]
    omega
  have hino : leNat ((e.record idx ++ rest).take 8) = e.inode % 2 ^ 64 := by
    rw [hrec, List.take_left' (length_leBytes 8 _), leNat_leBytes, show 256 ^ 8 = 2 ^ 64 from rfl]
  have hoff : leNat ((e.record idx ++ rest).drop 8 |>.take 8) = idx + 1 := by
    rw [hrec, List.drop_left' (length_leBytes 8 _), List.take_left' (length_leBytes 8 _), leNat_leBytes]
    omega
  have hrest : (e.record idx ++ rest).drop e.reclen = rest := List.drop_left' (e.length_record idx)
  have htake : (e.record idx ++ rest).take e.reclen = e.record idx := List.take_left' (e.length_record idx)
  have htail : (e.record idx).drop 19 =
      e.name ++ 0 :: List.replicate (e.reclen - (19 + (e.name.length + 1))) 0 := by
    have hsplit : e.record idx = (leBytes 8 e.inode ++ leBytes 8 (idx + 1) ++ leBytes 2 e.reclen ++
        [e.d_type]) ++ (e.name ++ 0 :: List.replicate (e.reclen - (19 + (e.name.length + 1))) 0) := by
      simp only [DirEntry.record, DirEntry.reclen, List.append_assoc, List.cons_append, List.nil_append]
    rw [hsplit, List.drop_left' (by simp)]
  have htype : (e.record idx ++ rest).getD 18 0 = e.d_type := by
    rw [hrec]
    simp [List.getD_eq_getElem?_getD, List.getElem?_append]
  have hfit : 19 + e.name.length < e.reclen := by
    unfold DirEntry.reclen
    omega
  have hle : e.reclen ≤ (e.record idx ++ rest).length := by
    rw [List.length_append, e.length_record]
    omega
  unfold parse_dirent
  simp only [hreclen, htake, htail, takeWhile_name hname, hfit, hle, and_self, if_true, hino, hoff, htype,
    hrest, DirEntry.dirent]

/-- **Round trip.**  The reader gets back what the kernel has encoded. -/
theorem parse_encode (es : List DirEntry) : ∀ idx fuel, es.length ≤ fuel → idx + es.length < 2 ^ 64 →
    (∀ e ∈ es, 0 ∉ e.name ∧ e.reclen < 2 ^ 16) → parse_dirents fuel (encode es idx) = some (dirents es idx) := by
  induction es with
  | nil =>
    intro idx fuel _ _ _
    cases fuel <;> rfl
  | cons e es ih =>
    intro idx fuel hfuel hidx hes
    obtain ⟨hname, hlen⟩ := hes e List.mem_cons_self
    rw [List.length_cons] at hfuel hidx
    obtain ⟨fuel, rfl⟩ : ∃ n, fuel = n + 1 := ⟨fuel - 1, by omega⟩
    have hpos : 0 < (e.record idx).length := by
      rw [e.length_record, DirEntry.reclen]
      omega
    have hone := parse_record e (encode es (idx + 1)) hname hlen (show idx + 1 < 2 ^ 64 by omega)
    have hrest := ih (idx + 1) fuel (by omega) (by omega) fun e' he' => hes e' (List.mem_cons_of_mem _ he')
    rw [encode]
    -- the buffer is not empty, so the reader takes a record from it
    cases hbuf : e.record idx ++ encode es (idx + 1) with
    | nil =>
      have := congrArg List.length hbuf
      simp only [List.length_append, List.length_nil] at this
      omega
    | cons b bs =>
      rw [hbuf] at hone
      simp only [parse_dirents, hone, Option.bind_some, hrest, Option.map_some, dirents]

/-! ## Section 2: One call -/

section Call

variable {M : Machine HeapAllocator Halt} {s t : St HeapAllocator Io} {fd r : Int} {buf : Ptr}
  {count : Nat} {of : OpenFile} {es : List DirEntry}

/-- What a returning `sys_getdents64` returns, stores and leaves behind. -/
theorem getdents_inv (hof : s.st.fd_table.get (ofIsize fd) = some of)
    (hrun : run M (sys_getdents64 fd buf count) s = .ok r t) :
    r = (s.st.fs.read_dir of.inode count of.offset).1.length ∧
      moved M true (sys_getdents64 fd buf count) s = (s.st.fs.read_dir of.inode count of.offset).1 ∧
      t.st = if (s.st.fs.read_dir of.inode count of.offset).1 = [] then s.st
        else s.st.seeked (ofIsize fd) of (s.st.fs.read_dir of.inode count of.offset).2 := by
  have hpost : post (sys_getdents64 fd buf count) (fun r u l =>
      r = (s.st.fs.read_dir of.inode count of.offset).1.length ∧
        l true = (s.st.fs.read_dir of.inode count of.offset).1 ∧
        u = if (s.st.fs.read_dir of.inode count of.offset).1 = [] then s.st
          else s.st.seeked (ofIsize fd) of (s.st.fs.read_dir of.inode count of.offset).2)
      (fun _ _ => True) s.st := by
    unfold sys_getdents64
    simp only [post_bind, post_get, hof]
    apply (post_vec_zeroed count s.st).mono _ fun _ _ _ => trivial
    rintro _ _ _ ⟨rfl, rfl⟩
    by_cases hnil : (s.st.fs.read_dir of.inode count of.offset).1 = []
    · simp [hnil]
    · have hpos := List.length_pos_iff.mpr hnil
      simp [hnil, hpos, fd_put, Io.seeked]
  exact hpost.ok hrun

/-- The records written fit into the room. -/
theorem fill_records_room (es : List DirEntry) : ∀ idx room, (fill_records es idx room).1.length ≤ room := by
  induction es with
  | nil => exact fun _ _ => Nat.zero_le _
  | cons e es ih =>
    intro idx room
    have hrest := ih (idx + 1) (room - (e.record idx).length)
    unfold fill_records
    dsimp only
    split
    · exact Nat.zero_le _
    · rw [List.length_append]
      omega

/-- Nothing is written only if there is no entry or no room for the first. -/
theorem fill_records_none {es : List DirEntry} {idx room : Nat} (h : (fill_records es idx room).2 = 0)
    {e : DirEntry} (he : es[0]? = some e) : room < e.reclen := by
  cases es with
  | nil => cases he
  | cons e' es =>
    cases he
    unfold fill_records at h
    rw [← e.length_record idx]
    dsimp only at h
    split at h
    · next hroom => exact hroom
    · cases h

/-- What `read_dir` writes for a directory: the records of some entries from the
    offset on, none only if none is left or the next does not fit. -/
theorem read_dir_dir {fs : Fs} {inode : Nat} (hes : fs.entries inode = some es) (len offset : Nat) :
    ∃ n ≤ es.length - offset, fs.read_dir inode len offset =
        (encode ((es.drop offset).take n) offset, offset + n) ∧
      (encode ((es.drop offset).take n) offset).length ≤ len ∧
      (n = 0 → ∀ e, es[offset]? = some e → len < e.reclen) := by
  unfold read_dir
  simp only [hes]
  by_cases hge : offset ≥ es.length
  · rw [if_pos hge]
    refine ⟨0, Nat.zero_le _, rfl, Nat.zero_le _, ?_⟩
    intro _ e he
    rw [List.getElem?_eq_none hge] at he
    cases he
  · rw [if_neg hge]
    have hcount := fill_records_count (es.drop offset) offset len
    have hbytes := fill_records_eq (es.drop offset) offset len
    have hroom := fill_records_room (es.drop offset) offset len
    rw [List.length_drop] at hcount
    rw [hbytes] at hroom
    refine ⟨_, hcount, ?_, hroom, ?_⟩
    · rw [← hbytes]
    · intro hzero e he
      apply fill_records_none hzero
      rw [List.getElem?_drop, Nat.add_zero]
      exact he

/-- **End of a directory.**  For a descriptor of a directory: a call returns 0 only
    if no entry is left, and an error, with the offset as it was, if the next
    record does not fit, exactly if there is room for the next record, should one
    be left. -/
theorem getdents_end_iff (hof : s.st.fd_table.get (ofIsize fd) = some of)
    (hes : s.st.fs.entries of.inode = some es) :
    ((∀ r t, run M (sys_getdents64 fd buf count) s = .ok r t → r = 0 → es.length ≤ of.offset) ∧
        ∀ e, es[of.offset]? = some e → count < e.reclen →
          ∃ r t, run M (sys_getdents64 fd buf count) s = .ok r t ∧ r < 0 ∧
            t.st.fd_table.get (ofIsize fd) = some of) ↔
      ∀ e, es[of.offset]? = some e → e.reclen ≤ count := by
  constructor
  · rintro ⟨-, herror⟩ e he
    by_contra hsmall
    obtain ⟨r, t, hrun, hneg, -⟩ := herror e he (by omega)
    -- the result is a number of bytes
    obtain ⟨hr, -⟩ := getdents_inv hof hrun
    omega
  · intro hroom
    refine ⟨?_, fun e he hsmall => absurd (hroom e he) (by omega)⟩
    intro r t hrun hzero
    obtain ⟨n, hn, hread, -, hnone⟩ := read_dir_dir hes count of.offset
    obtain ⟨hr, -⟩ := getdents_inv hof hrun
    rw [hread, hzero] at hr
    by_contra hlt
    have hlt : of.offset < es.length := by omega
    have he : es[of.offset]? = some es[of.offset] := List.getElem?_eq_getElem hlt
    cases n with
    | zero =>
      have := hroom _ he
      have := hnone rfl _ he
      omega
    | succ n =>
      -- a record has been written, and records are not empty
      rw [List.drop_eq_getElem_cons hlt, List.take_succ_cons, encode, List.length_append,
        DirEntry.length_record, DirEntry.reclen] at hr
      omega

/-- A call with nothing to write. -/
theorem run_getdents_nil {a : Nat} {u : St HeapAllocator Io} (hof : s.st.fd_table.get (ofIsize fd) = some of)
    (hvec : run M (vec_zeroed count) s = .ok a u) (hst : u.st = s.st)
    (hnil : (s.st.fs.read_dir of.inode count of.offset).1 = []) :
    run M (sys_getdents64 fd buf count) s = .ok 0 u := by
  unfold sys_getdents64
  simp only [run_get_bind, hof]
  rw [run_bind_of_ok _ hvec, run_get_bind, hst]
  simp only [hnil, List.length_nil, Nat.lt_irrefl, if_false, gt_iff_lt]
  rfl

/-- A call that stores records. -/
theorem run_getdents_some {a : Nat} {u v : St HeapAllocator Io} {bytes : List UInt8} {next : Nat}
    (hof : s.st.fd_table.get (ofIsize fd) = some of) (hvec : run M (vec_zeroed count) s = .ok a u)
    (hst : u.st = s.st) (hread : s.st.fs.read_dir of.inode count of.offset = (bytes, next))
    (hpos : 0 < bytes.length) (hstore : run M (Code.storeBytes buf bytes) u = .ok () v) :
    run M (sys_getdents64 fd buf count) s =
      .ok bytes.length { v with st := v.st.seeked (ofIsize fd) of next } := by
  unfold sys_getdents64
  simp only [run_get_bind, hof]
  rw [run_bind_of_ok _ hvec, run_get_bind, hst]
  simp only [hread, gt_iff_lt, hpos, if_true]
  rw [run_bind_of_ok _ hstore]
  rfl

end Call

theorem opened_descriptor (inode : Nat) :
    ((Io.boot Fs.noBlobs).opened inode).fd_table.get (ofIsize 3) = some
      { inode := inode, offset := 0, readable := true, writable := true, pipe_id := none } := by
  rw [show ofIsize 3 = 3 by decide]
  exact Io.opened_get Fs.noBlobs inode

/-- A directory of boot, opened: its descriptor and its entries. -/
theorem boot_directory (dir : Path) (hdir : Fs.Creation.mkdir dir ∈ Fs.init_calls Fs.noBlobs)
    (hlen : dir.length < 2 ^ 64) (hstr : str_at (machine 1) (pathMem dir) (user 0) dir = true) :
    ∃ inode, IoStep .idle (Io.boot Fs.noBlobs) (.openat dir 3) ((Io.boot Fs.noBlobs).opened inode) ∧
      (Fs.init Fs.noBlobs).inode_map[inode]? = some dir ∧
      (Fs.init Fs.noBlobs).entries inode = some ([utf8 ".", utf8 ".."].map (⟨·, inode, 4⟩) ++
        (Fs.init Fs.noBlobs).scan ( dir_prefix dir) (Fs.init Fs.noBlobs).files.toList [utf8 ".", utf8 ".."]) := by
  obtain ⟨inode, hlook, hinode, hfile⟩ := boot_file Fs.noBlobs hdir
  refine ⟨inode, openat_boot Fs.noBlobs hlen hstr hlook, hinode, ?_⟩
  have hinode : (Fs.init Fs.noBlobs).inode_map[inode]? = some dir := hinode
  have hfile : (Fs.init Fs.noBlobs).files[dir]? = some ⟨.Static []⟩ := hfile
  unfold entries
  simp only [hinode, hfile]
  rfl

theorem boot_root : ∃ inode es,
    IoStep .idle (Io.boot Fs.noBlobs) (.openat (utf8 "/") 3) ((Io.boot Fs.noBlobs).opened inode) ∧
      (Fs.init Fs.noBlobs).entries inode = some (⟨utf8 ".", inode, 4⟩ :: es) := by
  obtain ⟨inode, hstep, -, hes⟩ := boot_directory (utf8 "/") (by simp [Fs.init_calls])
    (by decide +kernel) (by decide +kernel)
  exact ⟨inode, _, hstep, hes⟩

/-- With room for one record the listing of the root goes on as it should. -/
theorem getdents_end_root : ∃ inode es,
    IoStep .idle (Io.boot Fs.noBlobs) (.openat (utf8 "/") 3) ((Io.boot Fs.noBlobs).opened inode) ∧
      (Fs.init Fs.noBlobs).entries inode = some es ∧
      (∀ r t, run (machine 1) (sys_getdents64 3 (user 0) 24)
        ⟨onePage, init_heap, (Io.boot Fs.noBlobs).opened inode⟩ = .ok r t → r = 0 → es.length ≤ 0) ∧
      ∀ e, es[0]? = some e → 24 < e.reclen →
        ∃ r t, run (machine 1) (sys_getdents64 3 (user 0) 24)
            ⟨onePage, init_heap, (Io.boot Fs.noBlobs).opened inode⟩ = .ok r t ∧ r < 0 ∧
          t.st.fd_table.get (ofIsize 3) = some
            { inode := inode, offset := 0, readable := true, writable := true, pipe_id := none } := by
  obtain ⟨inode, es, hstep, hes⟩ := boot_root
  refine ⟨inode, _, hstep, hes, ?_⟩
  refine (getdents_end_iff (s := ⟨onePage, init_heap, (Io.boot Fs.noBlobs).opened inode⟩)
    (opened_descriptor inode) hes).mpr ?_
  intro e he
  cases he
  have hdot : (utf8 ".").length = 1 := by decide +kernel
  simp only [DirEntry.reclen, hdot]
  decide

/-- **Counterexample**: the root is opened at boot, and `getdents64` into 8 bytes
    returns 0 as at the end of a directory. -/
theorem small_buffer_ends_listing : ∃ inode es,
    IoStep .idle (Io.boot Fs.noBlobs) (.openat (utf8 "/") 3) ((Io.boot Fs.noBlobs).opened inode) ∧
      (Fs.init Fs.noBlobs).entries inode = some es ∧ 0 < es.length ∧
      IoStep .idle ((Io.boot Fs.noBlobs).opened inode) ⟨1, onePage, init_heap, 61, ⟨3, 0, 8, 0, 0, 0⟩, 0⟩
        ((Io.boot Fs.noBlobs).opened inode) := by
  obtain ⟨inode, es, hstep, hes⟩ := boot_root
  refine ⟨inode, _, hstep, hes, Nat.succ_pos _, _, took ⟨onePage, init_heap, _⟩ 8, rfl, ?_, rfl⟩
  show run (machine 1) (sys_getdents64 (toIsize 3) (user 0) 8) ⟨onePage, init_heap, _⟩ = _
  rw [show toIsize 3 = 3 by decide]
  have hvec : run (machine 1) (vec_zeroed 8) ⟨onePage, init_heap, (Io.boot Fs.noBlobs).opened inode⟩ =
      .ok init_heap.current (took ⟨onePage, init_heap, _⟩ 8) :=
    run_allocZeroed_room init_heap_ok (show init_heap.current + 8 ≤ init_heap.end_ by decide)
  refine run_getdents_nil (opened_descriptor inode) hvec rfl ?_
  have hdot : (utf8 ".").length = 1 := by decide +kernel
  show ((Fs.init Fs.noBlobs).read_dir inode 8 0).1 = []
  unfold read_dir
  simp only [hes, List.length_cons, List.drop_zero, fill_records, DirEntry.length_record, DirEntry.reclen, hdot]
  rfl

/-! ## Section 3: Names -/

namespace Fs

/-- No path contains a zero: each comes from a string that ends at the first. -/
def ZeroFree (fs : Fs) : Prop := ∀ path ∈ fs.files, 0 ∉ path

theorem init_zeroFree (b : Blobs) : (init b).ZeroFree := by
  have hpaths : ∀ p ∈ init_paths, 0 ∉ p := by decide +kernel
  exact fun p hp => hpaths p ((mem_init b).mp hp)

variable {fs : Fs} {pre : Path} {l : List (Path × File)}

/-- No name is listed twice. -/
theorem scan_nodup : ∀ {seen : List Path}, ((fs.scan pre l seen).map DirEntry.name).Nodup := by
  induction l with
  | nil => exact fun {_} => List.nodup_nil
  | cons p rest ih =>
    intro seen
    obtain ⟨q, f⟩ := p
    rw [scan_cons]
    split
    · rw [List.map_cons, List.nodup_cons]
      refine ⟨?_, ih⟩
      intro hmem
      obtain ⟨e, he, hname⟩ := List.mem_map.mp hmem
      -- the name has been seen when the rest is scanned
      exact (scan_inv he).1 (hname ▸ List.mem_cons_self)
    · exact ih

/-- The entries of a directory: the dots, then what the scan finds. -/
theorem entries_eq {inode : Nat} {dir : Path} {es : List DirEntry} (hdir : fs.inode_map[inode]? = some dir)
    (hes : fs.entries inode = some es) : es = [utf8 ".", utf8 ".."].map (⟨·, inode, 4⟩) ++
      fs.scan ( dir_prefix dir) fs.files.toList [utf8 ".", utf8 ".."] := by
  unfold entries at hes
  simp only [hdir] at hes
  cases hf : fs.files[dir]? with
  | none => simp [hf] at hes
  | some f =>
    simp only [hf] at hes
    split at hes
    · cases hes
    · exact (Option.some.inj hes).symm

/-- The names of a directory's entries, each once. -/
theorem entries_names {inode : Nat} {dir : Path} {es : List DirEntry}
    (hdir : fs.inode_map[inode]? = some dir) (hes : fs.entries inode = some es) :
    (es.map DirEntry.name).Nodup ∧
      ∀ name, name ∈ es.map DirEntry.name ↔ name = utf8 "." ∨ name = utf8 ".." ∨
        ∃ path ∈ fs.files, Inside ( dir_prefix dir) path ∧ nameIn ( dir_prefix dir) path = name := by
  have hnames : es.map DirEntry.name = utf8 "." :: utf8 ".." ::
      (fs.scan ( dir_prefix dir) fs.files.toList [utf8 ".", utf8 ".."]).map DirEntry.name := by
    rw [entries_eq hdir hes]
    rfl
  have hmem : ∀ name, name ∈ (fs.scan ( dir_prefix dir) fs.files.toList [utf8 ".", utf8 ".."]).map DirEntry.name →
      name ∉ [utf8 ".", utf8 ".."] ∧
        ∃ path ∈ fs.files, Inside ( dir_prefix dir) path ∧ nameIn ( dir_prefix dir) path = name := by
    intro name hname
    obtain ⟨e, he, rfl⟩ := List.mem_map.mp hname
    obtain ⟨hnew, l1, q, f, l2, hl, hin, heq, -⟩ := scan_inv he
    have hfile : fs.files[q]? = some f := Std.TreeMap.mem_toList_iff_getElem?_eq_some.mp (by simp [hl])
    refine ⟨hnew, q, ?_, hin, ?_⟩
    · rw [Std.TreeMap.mem_iff_isSome_getElem?, hfile]
      rfl
    · rw [heq]
      rfl
  rw [hnames]
  constructor
  · have hdots : utf8 "." ≠ utf8 ".." := by decide +kernel
    rw [List.nodup_cons, List.nodup_cons, List.mem_cons, not_or]
    exact ⟨⟨hdots, fun h => (hmem _ h).1 (by simp)⟩, fun h => (hmem _ h).1 (by simp), scan_nodup⟩
  · intro name
    rw [List.mem_cons, List.mem_cons]
    constructor
    · intro h
      exact h.imp id (Or.imp id fun hname => (hmem _ hname).2)
    · rintro (hdot | hdotdot | ⟨path, hpath, hin, rfl⟩)
      · exact Or.inl hdot
      · exact Or.inr (Or.inl hdotdot)
      · -- a name that is one of the dots is listed as such
        by_cases hseen : nameIn ( dir_prefix dir) path ∈ [utf8 ".", utf8 ".."]
        · simp only [List.mem_cons, List.not_mem_nil, or_false] at hseen
          exact hseen.imp id Or.inl
        · obtain ⟨f, hf⟩ := Option.isSome_iff_exists.mp (Std.TreeMap.mem_iff_isSome_getElem?.mp hpath)
          obtain ⟨e, he, hname⟩ := scan_complete
            (Std.TreeMap.mem_toList_iff_getElem?_eq_some.mpr hf) hin hseen
          exact Or.inr (Or.inr (List.mem_map.mpr ⟨e, he, hname⟩))

/-- A name is a piece of a path. -/
theorem ZeroFree.name (h : fs.ZeroFree) {inode : Nat} {dir : Path} {es : List DirEntry}
    (hdir : fs.inode_map[inode]? = some dir) (hes : fs.entries inode = some es) {e : DirEntry}
    (he : e ∈ es) : 0 ∉ e.name := by
  rcases ((entries_names hdir hes).2 e.name).mp (List.mem_map_of_mem he) with hdot | hdotdot | ⟨path, hpath, -, hname⟩
  · rw [hdot]
    decide +kernel
  · rw [hdotdot]
    decide +kernel
  · intro hzero
    rw [← hname] at hzero
    exact h path hpath (List.mem_of_mem_drop (List.takeWhile_subset _ hzero))

end Fs

/-- A string ends before its zero. -/
theorem post_cstr_zeroFree (p : Ptr) (io : Io) :
    post (cstr p) (fun bs _ _ => 0 ∉ bs) (fun _ _ => True) io := by
  have hgo : ∀ fuel p io, post (cstr_go p fuel) (fun bs _ _ => 0 ∉ bs) (fun _ _ => True) io := by
    intro fuel
    induction fuel with
    | zero => exact fun _ _ => trivial
    | succ fuel ih =>
      intro p io
      simp only [cstr_go, post_bind, post_loadByte]
      intro b
      split
      · exact List.not_mem_nil
      · next hb =>
        rw [post_bind]
        apply (ih (p.add 1) io).mono _ fun _ _ _ => trivial
        intro bs t l hbs
        exact List.not_mem_cons_of_ne_of_not_mem (Ne.symm hb) hbs
  unfold cstr
  exact hgo _ p io

theorem zeroFree_change {env : Env} {may : Io.Act → Prop} {io io' : Io} (hmay : ¬ may .mkdir)
    (h : io.fs.ZeroFree) (hc : Io.Change env may io io') : io'.fs.ZeroFree := by
  cases hc with
  | mkdir path hmk _ => exact absurd hmk hmay
  | write path v v' cap cap' hold hle =>
    have hmem : path ∈ io.fs.files := Std.TreeMap.mem_iff_isSome_getElem?.mpr (by simp [hold])
    exact fun p hp => h p ((Fs.mem_write hmem).mp hp)
  | _ => exact h

theorem zeroFree_step {env : Env} {io io' : Io} {l : IoLabel} (h : io.fs.ZeroFree)
    (hst : IoStep env io l io') : io'.fs.ZeroFree := by
  by_cases hnum : l.num = 34
  · obtain ⟨path, hpath, rfl⟩ := mkdirat_inv hnum hst
    split
    · intro p hp
      rcases Fs.mem_create.mp hp with rfl | hp
      · -- the new path is the string that the call has read
        rw [IoLabel.mkdirPath, if_pos hnum] at hpath
        cases hrun : run (machine l.root) (cstr (user l.args.a1)) (l.start io) with
        | error e t =>
          rw [hrun] at hpath
          cases hpath
        | ok q t =>
          rw [hrun] at hpath
          cases hpath
          exact (post_cstr_zeroFree _ _).ok hrun
      · exact h p hp
    · exact h
  · exact hst.reach.invariant (fun _ _ => zeroFree_change hnum) h

theorem run_zeroFree {env : Env} {b : Fs.Blobs} {io : Io} {ls : List IoLabel}
    (hrun : LTS.Steps (IoStep env) (Io.boot b) ls io) : io.fs.ZeroFree := by
  have hkeep : ∀ u l v, u.fs.ZeroFree → IoStep env u l v → v.fs.ZeroFree :=
    fun u l v hs hst => zeroFree_step hs hst
  exact LTS.Steps.invariant hkeep hrun (Fs.init_zeroFree b)

/-! ## Section 4: A listing -/

/-- A call of `getdents64`: the address space, memory and heap it finds, its buffer,
    its result, and the bytes it stores there. -/
structure ListCall where
  root : Nat
  mem : Mem
  heap : HeapAllocator
  buf : Nat
  count : Nat
  ret : Int
  out : List UInt8

/-- One returning call on the descriptor. -/
def ListStep (fd : Int) (io : Io) (l : ListCall) (io' : Io) : Prop :=
  ∃ t, run (machine l.root) (sys_getdents64 fd (user l.buf) l.count) ⟨l.mem, l.heap, io⟩ = .ok l.ret t ∧
    t.st = io' ∧
    moved (machine l.root) true (sys_getdents64 fd (user l.buf) l.count) ⟨l.mem, l.heap, io⟩ = l.out

theorem ListStep.of_run {fd r : Int} {io : Io} {root buf count : Nat} {mem : Mem} {heap : HeapAllocator}
    {t : St HeapAllocator Io}
    (h : run (machine root) (sys_getdents64 fd (user buf) count) ⟨mem, heap, io⟩ = .ok r t) :
    ∃ out, ListStep fd io ⟨root, mem, heap, buf, count, r, out⟩ t.st :=
  ⟨moved (machine root) true (sys_getdents64 fd (user buf) count) ⟨mem, heap, io⟩, t, h, rfl, rfl⟩

/-- The buffer has room for the next record, should there be one. -/
def ListCall.Room (fd : Int) (io : Io) (l : ListCall) : Prop :=
  ∀ of es e, io.fd_table.get (ofIsize fd) = some of → io.fs.entries of.inode = some es →
    es[of.offset]? = some e → e.reclen ≤ l.count

/-- Calls with room for the next record, until one returns 0. -/
def Listing (fd : Int) (io : Io) (ls : List ListCall) (io' : Io) : Prop :=
  LTS.Steps (LTS.guarded (ListCall.Room fd) (ListStep fd)) io ls io' ∧
    ∃ before l, ls = before ++ [l] ∧ l.ret = 0

/-- The records in the output of a call. -/
def ListCall.records (l : ListCall) : Option (List Dirent) := parse_dirents l.out.length l.out

/-- The records of all calls. -/
def parse_calls : List ListCall → Option (List Dirent)
  | [] => some []
  | l :: ls => l.records.bind fun ds => (parse_calls ls).map (ds ++ ·)

/-- The output is a row of records, as many bytes as the call returns, and the
    buffer holds them. -/
def ListCall.WellFormed (l : ListCall) : Prop :=
  ∃ ds, l.records = some ds ∧ (∀ d ∈ ds, 8 ∣ d.d_reclen) ∧
    (((ds.map Dirent.d_reclen).sum : Nat) : Int) = l.ret ∧ l.ret ≤ l.count

theorem parse_calls_snoc {ls : List ListCall} {l : ListCall} {ds' : List Dirent} :
    ∀ {ds}, parse_calls ls = some ds → l.records = some ds' → parse_calls (ls ++ [l]) = some (ds ++ ds') := by
  induction ls with
  | nil =>
    intro ds h hl
    cases h
    simp [parse_calls, hl]
  | cons l' ls ih =>
    intro ds h hl
    simp only [parse_calls, Option.bind_eq_some_iff, Option.map_eq_some_iff] at h
    obtain ⟨ds1, h1, ds2, h2, rfl⟩ := h
    simp [parse_calls, h1, ih h2 hl]

namespace Fs

theorem length_encode (es : List DirEntry) : ∀ idx,
    (encode es idx).length = ((dirents es idx).map Dirent.d_reclen).sum := by
  induction es with
  | nil => exact fun _ => rfl
  | cons e es ih =>
    intro idx
    rw [encode, dirents, List.length_append, ih, DirEntry.length_record]
    rfl

theorem length_le_encode (es : List DirEntry) : ∀ idx, es.length ≤ (encode es idx).length := by
  induction es with
  | nil => exact fun _ => Nat.zero_le _
  | cons e es ih =>
    intro idx
    have hrest := ih (idx + 1)
    rw [encode, List.length_append, DirEntry.length_record, DirEntry.reclen, List.length_cons]
    omega

theorem dirents_append (es es' : List DirEntry) : ∀ idx,
    dirents (es ++ es') idx = dirents es idx ++ dirents es' (idx + es.length) := by
  induction es with
  | nil => exact fun _ => rfl
  | cons e es ih =>
    intro idx
    rw [List.cons_append, dirents, ih, dirents, List.cons_append, List.length_cons, Nat.add_assoc, Nat.add_comm 1]

theorem dirents_names (es : List DirEntry) : ∀ idx,
    (dirents es idx).map Dirent.d_name = es.map DirEntry.name := by
  induction es with
  | nil => exact fun _ => rfl
  | cons e es ih =>
    intro idx
    rw [dirents, List.map_cons, List.map_cons, ih]
    rfl

theorem dirents_aligned (es : List DirEntry) : ∀ idx, ∀ d ∈ dirents es idx, 8 ∣ d.d_reclen := by
  induction es with
  | nil => exact fun _ _ h => absurd h List.not_mem_nil
  | cons e es ih =>
    intro idx d hd
    rcases List.mem_cons.mp hd with rfl | hd
    · exact Nat.dvd_mul_left _ _
    · exact ih _ d hd

/-- After a record come those of the entries after its offset. -/
theorem dirents_drop (es : List DirEntry) : ∀ idx i d, (dirents es idx)[i]? = some d →
    d.d_off = idx + i + 1 ∧ i < es.length ∧
      (dirents es idx).drop (i + 1) = dirents (es.drop (i + 1)) (idx + i + 1) := by
  induction es with
  | nil => exact fun _ _ _ h => by cases h
  | cons e es ih =>
    intro idx i d hd
    cases i with
    | zero =>
      cases hd
      exact ⟨rfl, Nat.succ_pos _, rfl⟩
    | succ i =>
      rw [dirents, List.getElem?_cons_succ] at hd
      obtain ⟨hoff, hlt, hdrop⟩ := ih (idx + 1) i d hd
      rw [dirents, List.drop_succ_cons, List.drop_succ_cons, hdrop, hoff, List.length_cons]
      refine ⟨by omega, by omega, ?_⟩
      rw [show idx + 1 + i + 1 = idx + (i + 1) + 1 by omega]

end Fs

section Listing

variable {fd : Int} {io io' : Io} {of : OpenFile} {es : List DirEntry}

/-- The directory is open, at this offset. -/
structure OpenDir (fd : Int) (fs : Fs) (of : OpenFile) (io : Io) (o : Nat) : Prop where
  fs_eq : io.fs = fs
  get : io.fd_table.get (ofIsize fd) = some { of with offset := o }

/-- What the entries of a directory need to be told apart by a reader. -/
structure Readable (es : List DirEntry) : Prop where
  count : es.length < 2 ^ 63
  entry : ∀ e ∈ es, 0 ∉ e.name ∧ e.reclen < 2 ^ 16

/-- **Step.**  A call hands out the next entries and moves the descriptor past them. -/
theorem ListStep.inv {o : Nat} {l : ListCall} (hr : Readable es) (hes : io.fs.entries of.inode = some es)
    (ho : o ≤ es.length) (hio : OpenDir fd io.fs of io o) (hst : ListStep fd io l io') :
    ∃ n ≤ es.length - o, OpenDir fd io.fs of io' (o + n) ∧ l.WellFormed ∧
      l.records = some (dirents ((es.drop o).take n) o) ∧ (l.ret = 0 → n = 0) ∧
      (n = 0 → ListCall.Room fd io l → es.length ≤ o) := by
  obtain ⟨t, hrun, rfl, hmoved⟩ := hst
  obtain ⟨hret, hout, ht⟩ := getdents_inv (s := ⟨l.mem, l.heap, io⟩) hio.get hrun
  obtain ⟨n, hn, hread, hfit, hnone⟩ := read_dir_dir hes l.count o
  simp only [hread] at hret hout ht
  rw [hout] at hmoved
  have htake : ((es.drop o).take n).length = n := by
    rw [List.length_take, List.length_drop]
    omega
  have hlong := length_le_encode ((es.drop o).take n) o
  rw [htake] at hlong
  have hcount := hr.count
  have hrecords : l.records = some (dirents ((es.drop o).take n) o) := by
    unfold ListCall.records
    rw [← hmoved]
    apply parse_encode
    · omega
    · rw [htake]
      omega
    · exact fun e he => hr.entry e (List.mem_of_mem_drop (List.mem_of_mem_take he))
  refine ⟨n, hn, ⟨?_, ?_⟩, ⟨_, hrecords, dirents_aligned _ _, ?_, by omega⟩, hrecords, by omega, ?_⟩
  · rw [ht]
    split <;> rfl
  · rw [ht]
    split
    · next hnil =>
      rw [hnil] at hlong
      obtain rfl : n = 0 := Nat.le_zero.mp hlong
      exact hio.get
    · exact get_seeked hio.get (o + n)
  · rw [hret, length_encode]
  · intro hzero hroom
    by_contra hlt
    have he : es[o]? = some es[o] := List.getElem?_eq_getElem (by omega)
    have hfits := hroom _ es _ hio.get hes he
    have hsmall := hnone hzero _ he
    omega

/-- **Run.**  The calls so far have handed out the first entries, and the descriptor
    is past them. -/
theorem Listing.history {o : Nat} {ls : List ListCall} (hr : Readable es)
    (hes : io.fs.entries of.inode = some es) (ho : o ≤ es.length) (hio : OpenDir fd io.fs of io o)
    (hrun : LTS.Steps (ListStep fd) io ls io') :
    ∃ n, n ≤ es.length - o ∧ OpenDir fd io.fs of io' (o + n) ∧ (∀ l ∈ ls, l.WellFormed) ∧
      parse_calls ls = some (dirents ((es.drop o).take n) o) := by
  refine LTS.Steps.history (fun ls u => ∃ n, n ≤ es.length - o ∧ OpenDir fd io.fs of u (o + n) ∧
    (∀ l ∈ ls, l.WellFormed) ∧ parse_calls ls = some (dirents ((es.drop o).take n) o)) ?_ hrun
    ⟨0, Nat.zero_le _, hio, by simp, rfl⟩
  intro ls u l v hu hst
  obtain ⟨n, hn, hopen, hwell, hparsed⟩ := hu
  have hes' : u.fs.entries of.inode = some es := by rw [hopen.fs_eq, hes]
  obtain ⟨m, hm, hopen', hwell', hrecords, -⟩ := ListStep.inv hr hes' (by omega) (hopen.fs_eq ▸ hopen) hst
  rw [hopen.fs_eq, Nat.add_assoc] at hopen'
  refine ⟨n + m, by omega, hopen', ?_, ?_⟩
  · intro l' hl'
    rcases List.mem_append.mp hl' with hold | hnew
    · exact hwell l' hold
    · rw [List.mem_singleton.mp hnew]
      exact hwell'
  · -- the records of this call come right after those of the earlier ones
    rw [parse_calls_snoc hparsed hrecords, List.take_add, dirents_append, List.drop_drop, List.length_take,
      List.length_drop, Nat.min_eq_left hn]

/-- **A whole listing.**  It hands out every entry from the offset on. -/
theorem Listing.all {o : Nat} {ls : List ListCall} (hr : Readable es)
    (hes : io.fs.entries of.inode = some es) (ho : o ≤ es.length) (hio : OpenDir fd io.fs of io o)
    (h : Listing fd io ls io') :
    (∀ l ∈ ls, l.WellFormed) ∧ parse_calls ls = some (dirents (es.drop o) o) := by
  obtain ⟨hrun, before, l, rfl, hzero⟩ := h
  obtain ⟨u, hbefore, hroom, hlast⟩ := hrun.last
  obtain ⟨n, hn, hopen, hwell, hparsed⟩ := Listing.history hr hes ho hio hbefore.of_guarded
  have hes' : u.fs.entries of.inode = some es := by rw [hopen.fs_eq, hes]
  obtain ⟨m, hm, -, hwell', hrecords, hret, hend⟩ := ListStep.inv hr hes' (by omega) (hopen.fs_eq ▸ hopen) hlast
  -- the last call had room and wrote nothing: the descriptor is at the end
  obtain rfl := hret hzero
  have hle := hend rfl hroom
  constructor
  · intro l' hl'
    rcases List.mem_append.mp hl' with hold | hnew
    · exact hwell l' hold
    · rw [List.mem_singleton.mp hnew]
      exact hwell'
  · rw [parse_calls_snoc hparsed hrecords, List.take_zero, dirents, List.append_nil,
      List.take_of_length_le (by rw [List.length_drop]; omega)]

end Listing

/-- **Listings.**  In every state that calls reach from boot, for every descriptor of
    a directory at its beginning whose record lengths fit 16 bits, and for all
    calls of `getdents64` with room for the next record until one returns 0: the
    output of each call is a row of records that ends where the call says; the
    names of all records are the dots and the first components below the
    directory, each once; and a seek to the offset of a record, at any time
    between such calls, leads to a listing of exactly the records after it. -/
theorem listing_complete (env : Env) (b : Fs.Blobs) {io : Io} {ls0 : List IoLabel}
    (hrun : LTS.Steps (IoStep env) (Io.boot b) ls0 io) {fd : Int} {of : OpenFile} {dir : Path}
    {es : List DirEntry} (hof : io.fd_table.get (ofIsize fd) = some of) (hstart : of.offset = 0)
    (hdir : io.fs.inode_map[of.inode]? = some dir) (hes : io.fs.entries of.inode = some es)
    (hvec : es.length < 2 ^ 63) (hreclen : ∀ e ∈ es, e.reclen < 2 ^ 16)
    {ls : List ListCall} {io' : Io} (hlist : Listing fd io ls io') :
    (∀ l ∈ ls, l.WellFormed) ∧ ∃ ds, parse_calls ls = some ds ∧
      ((ds.map Dirent.d_name).Nodup ∧ ∀ name, name ∈ ds.map Dirent.d_name ↔
        name = utf8 "." ∨ name = utf8 ".." ∨ ∃ path ∈ io.fs.files,
          Fs.Inside (Fs.dir_prefix dir) path ∧ Fs.nameIn (Fs.dir_prefix dir) path = name) ∧
      ∀ i d, ds[i]? = some d → ∀ u ls1, LTS.Steps (ListStep fd) io ls1 u → ∀ root mem heap,
        ∃ t, run (machine root) (sys_lseek fd d.d_off 0) ⟨mem, heap, u⟩ = .ok d.d_off t ∧
          ∀ ls2 u', Listing fd t.st ls2 u' → parse_calls ls2 = some (ds.drop (i + 1)) := by
  have hr : Readable es :=
    ⟨hvec, fun e he => ⟨(run_zeroFree hrun).name hdir hes he, hreclen e he⟩⟩
  have hopen : OpenDir fd io.fs of io 0 := ⟨rfl, by rw [hof, ← hstart]⟩
  obtain ⟨hwell, hparsed⟩ := Listing.all hr hes (Nat.zero_le _) hopen hlist
  rw [List.drop_zero] at hparsed
  refine ⟨hwell, _, hparsed, ?_, ?_⟩
  · rw [dirents_names]
    exact Fs.entries_names hdir hes
  · intro i d hd u ls1 hls1 root mem heap
    obtain ⟨hoff, hlt, hdrop⟩ := dirents_drop _ 0 i d hd
    rw [hdrop, hoff, Nat.zero_add]
    obtain ⟨n, -, hu, -⟩ := Listing.history hr hes (Nat.zero_le _) hopen hls1
    -- the offset of the record is a position
    have hpos : ofIsize (((i + 1 : Nat) : Int)) = i + 1 := by
      have := ofIsize_eq (((i + 1 : Nat) : Int))
      omega
    have hseek : run (machine root) (sys_lseek fd ((i + 1 : Nat) : Int) 0) ⟨mem, heap, u⟩ = _ :=
      run_lseek hu.get (show seek_base u { of with offset := 0 + n } 0 = some 0 from rfl)
    rw [Nat.cast_zero, Int.zero_add, hpos, toIsize_eq (show i + 1 < 2 ^ 64 by omega),
      if_pos (show i + 1 < 2 ^ 63 by omega)] at hseek
    refine ⟨_, hseek, fun ls2 u' hls2 => ?_⟩
    have hget := get_seeked hu.get (i + 1)
    have hfs : (u.seeked (ofIsize fd) { of with offset := 0 + n } (i + 1)).fs = io.fs := hu.fs_eq
    refine (Listing.all (o := i + 1) hr ?_ hlt ⟨rfl, hget⟩ hls2).2
    rw [hfs, hes]

/-- Bytes can be stored in the one page of user memory. -/
theorem run_storeBytes_page (heap : HeapAllocator) (io : Io) (bs : List UInt8) : ∀ (m : Mem) (va : Nat),
    (∀ a, a < 16384 → m a = onePage a) → va + bs.length ≤ 4096 →
      ∃ m', run (machine 1) (Code.storeBytes (user va) bs) ⟨m, heap, io⟩ = .ok () ⟨m', heap, io⟩ := by
  induction bs with
  | nil => exact fun m _ _ _ => ⟨m, rfl⟩
  | cons b bs ih =>
    intro m va hm hva
    rw [List.length_cons] at hva
    have hat : (machine 1).at m ⟨true, user va⟩ = some (16384 + va) :=
      onePage_translate hm (show va < 4096 by omega) true
    have hadd : (user va).add 1 = user (va + 1) := by
      simp only [user, Ptr.add, wadd_of_lt (show va + 1 < 2 ^ 64 by omega)]
    have hm' : ∀ a, a < 16384 → Function.update m (16384 + va) b a = onePage a := by
      intro a ha
      rw [Function.update_of_ne (by omega), hm a ha]
    obtain ⟨m', hrest⟩ := ih _ (va + 1) hm' (by omega)
    refine ⟨m', ?_⟩
    have hone : run (machine 1) (Code.storeByte (user va) b) (⟨m, heap, io⟩ : St HeapAllocator Io) =
        .ok () ⟨Function.update m (16384 + va) b, heap, io⟩ := by
      simp only [Code.storeByte, run, hat]
    rw [Code.storeBytes, run_bind_of_ok _ hone, hadd, hrest]

/-- The directory with the web server's program, and nothing else. -/
def sbin : Path := utf8 "/sbin"

theorem boot_sbin : ∃ inode es,
    IoStep .idle (Io.boot Fs.noBlobs) (.openat sbin 3) ((Io.boot Fs.noBlobs).opened inode) ∧
      (Fs.init Fs.noBlobs).inode_map[inode]? = some sbin ∧ (Fs.init Fs.noBlobs).entries inode = some es ∧
      (∀ path ∈ (Fs.init Fs.noBlobs).files, Fs.Inside (Fs.dir_prefix sbin) path →
        Fs.nameIn (Fs.dir_prefix sbin) path = utf8 "nginx") ∧
      0 < es.length ∧ es.length ≤ 3 ∧ ∀ e ∈ es, e.reclen ≤ 32 := by
  obtain ⟨inode, hstep, hinode, hes⟩ := boot_directory sbin (by simp [Fs.init_calls, sbin])
    (by decide +kernel) (by decide +kernel)
  have hinside : ∀ p ∈ Fs.init_paths, Fs.Inside (Fs.dir_prefix sbin) p →
      Fs.nameIn (Fs.dir_prefix sbin) p = utf8 "nginx" := by
    decide +kernel
  have hinside : ∀ path ∈ (Fs.init Fs.noBlobs).files, Fs.Inside (Fs.dir_prefix sbin) path →
      Fs.nameIn (Fs.dir_prefix sbin) path = utf8 "nginx" := fun path hpath =>
    hinside path ((Fs.mem_init _).mp hpath)
  obtain ⟨hnodup, hnames⟩ := Fs.entries_names hinode hes
  refine ⟨inode, _, hstep, hinode, hes, hinside, by simp, ?_⟩
  generalize [utf8 ".", utf8 ".."].map _ ++ _ = es at hes hnodup hnames
  -- three names at most
  have hsub : es.map Fs.DirEntry.name ⊆ [utf8 ".", utf8 "..", utf8 "nginx"] := by
    intro name hname
    rcases (hnames name).mp hname with rfl | rfl | ⟨path, hpath, hin, rfl⟩
    · simp
    · simp
    · simp [hinside path hpath hin]
  have hlen := (hnodup.subperm hsub).length_le
  rw [List.length_map] at hlen
  refine ⟨hlen, ?_⟩
  intro e he
  have hshort : ∀ name ∈ [utf8 ".", utf8 "..", utf8 "nginx"], name.length ≤ 5 := by decide +kernel
  have := hshort e.name (hsub (List.mem_map_of_mem he))
  unfold Fs.DirEntry.reclen
  omega

theorem length_encode_le {n : Nat} (es : List DirEntry) (h : ∀ e ∈ es, e.reclen ≤ n) : ∀ idx,
    (encode es idx).length ≤ n * es.length := by
  induction es with
  | nil => exact fun _ => Nat.zero_le _
  | cons e es ih =>
    intro idx
    have hone := h e List.mem_cons_self
    have hrest := ih (fun e' he' => h e' (List.mem_cons_of_mem _ he')) (idx + 1)
    rw [encode, List.length_append, DirEntry.length_record, List.length_cons, Nat.mul_succ]
    omega

/-- The listing of `/sbin` in two calls: all records, then none. -/
theorem sbin_listing {inode : Nat} {es : List DirEntry}
    (hes : (Fs.init Fs.noBlobs).entries inode = some es) (hpos : 0 < es.length) (hlen : es.length ≤ 3)
    (hreclen : ∀ e ∈ es, e.reclen ≤ 32) :
    ∃ ls io', Listing 3 ((Io.boot Fs.noBlobs).opened inode) ls io' := by
  have hvec : ∀ io, run (machine 1) (vec_zeroed 128) ⟨onePage, init_heap, io⟩ =
      .ok init_heap.current (took ⟨onePage, init_heap, io⟩ 128) := fun io =>
    run_allocZeroed_room init_heap_ok (show init_heap.current + 128 ≤ init_heap.end_ by decide)
  have hbytes := length_encode_le es hreclen 0
  have hsome := length_le_encode es 0
  have hget := opened_descriptor inode
  generalize hio : (Io.boot Fs.noBlobs).opened inode = io at hget
  have hes : io.fs.entries inode = some es := by
    rw [← hio]
    exact hes
  -- the first call
  have hread : io.fs.read_dir inode 128 0 = (encode es 0, es.length) := by
    unfold read_dir
    simp only [hes, ge_iff_le, Nat.not_le.mpr hpos, if_false, List.drop_zero]
    rw [fill_records_all es 0 128 (by omega), Nat.zero_add]
  have hpage : ∀ a, a < 16384 → fill onePage init_heap.current 128 0 a = onePage a := fun a ha =>
    fill_out (Or.inl (lt_trans ha (by decide)))
  obtain ⟨m', hstore⟩ := run_storeBytes_page { init_heap with current := init_heap.current + 128 } io
    (encode es 0) (fill onePage init_heap.current 128 0) 0 hpage (by omega)
  obtain ⟨out, hstep⟩ := ListStep.of_run
    (run_getdents_some (s := ⟨onePage, init_heap, io⟩) hget (hvec io) rfl hread (by omega) hstore)
  have hroom : ∀ l : ListCall, l.count = 128 → l.Room 3 io := by
    intro l hl of' es' e hof' hes' he
    obtain rfl := Option.some.inj (hof'.symm.trans hget)
    obtain rfl : es' = es := Option.some.inj (hes'.symm.trans hes)
    have := hreclen e (List.mem_of_getElem? he)
    omega
  -- the second one finds the descriptor past the last entry
  have hget' := get_seeked hget es.length
  generalize hio' : io.seeked (ofIsize 3) _ es.length = io' at hget' hstep
  have hes' : io'.fs.entries inode = some es := by
    rw [← hio']
    exact hes
  have hread' : (io'.fs.read_dir inode 128 es.length).1 = [] := by
    unfold read_dir
    simp only [hes', ge_iff_le, Nat.le_refl, if_true]
  have hrun' : run (machine 1) (sys_getdents64 3 (user 0) 128) ⟨onePage, init_heap, io'⟩ = .ok 0 _ :=
    run_getdents_nil hget' (hvec io') rfl hread'
  obtain ⟨out', hstep'⟩ := ListStep.of_run hrun'
  have hroom' : ∀ l : ListCall, l.Room 3 io' := by
    intro l of' es' e hof' hes'' he
    obtain rfl := Option.some.inj (hof'.symm.trans hget')
    obtain rfl : es' = es := Option.some.inj (hes''.symm.trans hes')
    rw [List.getElem?_eq_none (Nat.le_refl _)] at he
    cases he
  exact ⟨_, io', LTS.Steps.snoc _ (LTS.Steps.single ⟨hroom _ rfl, hstep⟩) ⟨hroom' _, hstep'⟩, _, _, rfl, rfl⟩

/-- The listing of `/sbin` at boot. -/
theorem listing_complete_sbin : ∃ inode ls io' ds,
    IoStep .idle (Io.boot Fs.noBlobs) (.openat sbin 3) ((Io.boot Fs.noBlobs).opened inode) ∧
      Listing 3 ((Io.boot Fs.noBlobs).opened inode) ls io' ∧ parse_calls ls = some ds ∧
      (ds.map Dirent.d_name).Nodup ∧ ∀ name ∈ ds.map Dirent.d_name,
        name = utf8 "." ∨ name = utf8 ".." ∨ name = utf8 "nginx" := by
  obtain ⟨inode, es, hstep, hinode, hes, hinside, hpos, hlen, hreclen⟩ := boot_sbin
  obtain ⟨ls, io', hlist⟩ := sbin_listing hes hpos hlen hreclen
  obtain ⟨-, ds, hparsed, ⟨hnodup, hnames⟩, -⟩ := listing_complete .idle Fs.noBlobs (.single hstep)
    (opened_descriptor inode) rfl hinode hes (by omega) (fun e he => lt_of_le_of_lt (hreclen e he) (by decide)) hlist
  refine ⟨inode, ls, io', ds, hstep, hlist, hparsed, hnodup, ?_⟩
  intro name hname
  rcases (hnames name).mp hname with hdot | hdotdot | ⟨path, hpath, hin, hpathname⟩
  · exact Or.inl hdot
  · exact Or.inr (Or.inl hdotdot)
  · exact Or.inr (Or.inr (hpathname ▸ hinside path hpath hin))

end Rvos

import Rvos.Io.Slots

/-! # The file system as its users see it

    Behind descriptors there are three tables: open files with positions, inode
    numbers with paths, and paths with contents, some of them vectors on the heap.
    A program sees less: paths with bytes, and descriptors with positions.  This
    module makes that the abstract model.

    * `Disk`, `DiskStep` : paths with texts, descriptors with positions, and what
      each call does to them and returns.
    * `Io.disk` : the disk behind the kernel's tables.
    * `disk_call` : what a call does to the tables, whatever memory and heap it finds,
      is a run of the abstract model.
    * `Io.Orderly` : what the tables need for this, which calls keep. -/

namespace Rvos

open Access Access.Code ByteMem Usize

/-! ## Section 1: The abstract model -/

/-- The bytes of a file; a file of the image cannot grow. -/
structure Text where
  bytes : List UInt8
  growable : Bool

/-- The text after a write: a gap is filled with zeros, and a file of the image
    stays as it is. -/
def Text.store (t : Text) (offset : Nat) (buf : List UInt8) : Text :=
  if t.growable then { t with bytes := splice t.bytes offset buf } else t

/-- The bytes that a write reports. -/
def Text.accepts (t : Text) (buf : List UInt8) : Nat := if t.growable then buf.length else 0

/-- What a descriptor denotes: a position in a file, or the console or a pipe. -/
inductive Slot where
  | file (path : Path) (offset : Nat)
  | other

/-- The same at another position. -/
def Slot.moved : Slot → Nat → Slot
  | .file path _, o => .file path o
  | .other, _ => .other

structure Disk where
  files : Path → Option Text
  slots : Nat → Option Slot

namespace Disk

def put (d : Disk) (path : Path) (t : Text) : Disk :=
  { d with files := Function.update d.files path (some t) }

def set (d : Disk) (fd : Nat) (s : Option Slot) : Disk :=
  { d with slots := Function.update d.slots fd s }

/-- The descriptor is the lowest that is not in use. -/
def Lowest (d : Disk) (fd : Nat) : Prop := d.slots fd = none ∧ ∀ i < fd, d.slots i ≠ none

end Disk

/-- A call, with the bytes that it has read or written and its result. -/
inductive DiskEvent where
  | openat (path : Path) (ret : Int)
  | close (fd : Nat) (ret : Int)
  | dup (oldfd newfd : Nat) (ret : Int)
  | pipe (rfd wfd : Nat)
  | read (fd count : Nat) (bytes : List UInt8) (ret : Int)
  | write (fd : Nat) (bytes : List UInt8) (ret : Int)
  | pread (fd count offset : Nat) (bytes : List UInt8) (ret : Int)
  | pwrite (fd : Nat) (bytes : List UInt8) (offset : Nat) (ret : Int)
  | lseek (fd : Nat) (offset whence ret : Int)
  | getdents (fd : Nat)
  | mkdirat (path : Path)
  | other

/-- Where `lseek` counts from. -/
def Text.base (t : Text) (offset : Nat) (whence : Int) : Option Int :=
  if whence = 0 then some 0
  else if whence = 1 then some (toIsize offset)
  else if whence = 2 then some (toIsize t.bytes.length)
  else none

/-- What calls do.  Numbers from 100 on belong to sockets and the like, which are
    not on the disk. -/
inductive DiskStep (d : Disk) : DiskEvent → Disk → Prop where
  | openat_missing {path : Path} (hfile : d.files path = none) : DiskStep d (.openat path (-2)) d
  | openat {path : Path} {t : Text} {fd : Nat} (hfile : d.files path = some t) (hfd : d.Lowest fd) :
      DiskStep d (.openat path fd) (d.set fd (some (.file path 0)))
  | close_standard {fd : Nat} (hfd : fd < 3) : DiskStep d (.close fd (-1)) d
  | close {fd : Nat} (hfd : 3 ≤ fd) : DiskStep d (.close fd 0) (d.set fd none)
  | dup_closed {oldfd newfd : Nat} (hslot : d.slots oldfd = none) : DiskStep d (.dup oldfd newfd (-1)) d
  /-- The copy starts at the position of the original, and has its own from then on. -/
  | dup {oldfd newfd : Nat} {s : Slot} (hslot : d.slots oldfd = some s) :
      DiskStep d (.dup oldfd newfd (toIsize newfd)) (d.set newfd (some s))
  | pipe {rfd wfd : Nat} (hr : d.Lowest rfd) (hw : (d.set rfd (some .other)).Lowest wfd) :
      DiskStep d (.pipe rfd wfd) ((d.set rfd (some .other)).set wfd (some .other))
  | read_closed {fd count : Nat} {bytes : List UInt8} {ret : Int} (hslot : d.slots fd = none)
      (hret : fd < 100 → ret = -1 ∧ bytes = []) : DiskStep d (.read fd count bytes ret) d
  | read_other {fd count : Nat} {bytes : List UInt8} {ret : Int} (hslot : d.slots fd = some .other) :
      DiskStep d (.read fd count bytes ret) d
  | read {fd count o : Nat} {path : Path} {t : Text} {bytes : List UInt8}
      (hslot : d.slots fd = some (.file path o)) (hfile : d.files path = some t)
      (hbytes : bytes = part t.bytes o count) :
      DiskStep d (.read fd count bytes bytes.length) (d.set fd (some (.file path (wadd o bytes.length))))
  | write_closed {fd : Nat} {bytes : List UInt8} {ret : Int} (hslot : d.slots fd = none)
      (hret : fd < 100 → ret = -1) : DiskStep d (.write fd bytes ret) d
  | write_other {fd : Nat} {bytes : List UInt8} {ret : Int} (hslot : d.slots fd = some .other) :
      DiskStep d (.write fd bytes ret) d
  | write {fd o : Nat} {path : Path} {t : Text} {bytes : List UInt8}
      (hslot : d.slots fd = some (.file path o)) (hfile : d.files path = some t)
      (hend : t.growable = true → o + bytes.length < 2 ^ 64) :
      DiskStep d (.write fd bytes (t.accepts bytes))
        ((d.put path (t.store o bytes)).set fd (some (.file path (wadd o (t.accepts bytes)))))
  | pread_closed {fd count offset : Nat} (hslot : d.slots fd = none) :
      DiskStep d (.pread fd count offset [] (-1)) d
  | pread_other {fd count offset : Nat} {bytes : List UInt8} {ret : Int}
      (hslot : d.slots fd = some .other) : DiskStep d (.pread fd count offset bytes ret) d
  | pread {fd count offset o : Nat} {path : Path} {t : Text} {bytes : List UInt8}
      (hslot : d.slots fd = some (.file path o)) (hfile : d.files path = some t)
      (hbytes : bytes = part t.bytes offset count) :
      DiskStep d (.pread fd count offset bytes bytes.length) d
  | pwrite_closed {fd offset : Nat} {bytes : List UInt8} (hslot : d.slots fd = none) :
      DiskStep d (.pwrite fd bytes offset (-1)) d
  | pwrite_other {fd offset : Nat} {bytes : List UInt8} {ret : Int} (hslot : d.slots fd = some .other) :
      DiskStep d (.pwrite fd bytes offset ret) d
  | pwrite {fd offset o : Nat} {path : Path} {t : Text} {bytes : List UInt8}
      (hslot : d.slots fd = some (.file path o)) (hfile : d.files path = some t)
      (hend : t.growable = true → offset + bytes.length < 2 ^ 64) :
      DiskStep d (.pwrite fd bytes offset (t.accepts bytes)) (d.put path (t.store offset bytes))
  | lseek_closed {fd : Nat} {offset whence : Int} (hslot : d.slots fd = none) :
      DiskStep d (.lseek fd offset whence (-1)) d
  | lseek_other {fd : Nat} {offset whence ret : Int} (hslot : d.slots fd = some .other) :
      DiskStep d (.lseek fd offset whence ret) d
  | lseek_refused {fd o : Nat} {path : Path} {t : Text} {offset whence : Int}
      (hslot : d.slots fd = some (.file path o)) (hfile : d.files path = some t) (hbase : t.base o whence = none) :
      DiskStep d (.lseek fd offset whence (-1)) d
  | lseek {fd o : Nat} {path : Path} {t : Text} {offset whence base : Int}
      (hslot : d.slots fd = some (.file path o)) (hfile : d.files path = some t)
      (hbase : t.base o whence = some base) :
      DiskStep d (.lseek fd offset whence (toIsize (ofIsize (base + offset))))
        (d.set fd (some (.file path (ofIsize (base + offset)))))
  | getdents_none {fd : Nat} : DiskStep d (.getdents fd) d
  /-- The position in a directory counts its entries. -/
  | getdents {fd o : Nat} {s : Slot} (hslot : d.slots fd = some s) :
      DiskStep d (.getdents fd) (d.set fd (some (s.moved o)))
  | mkdirat_old {path : Path} {t : Text} (hfile : d.files path = some t) : DiskStep d (.mkdirat path) d
  | mkdirat {path : Path} (hfile : d.files path = none) :
      DiskStep d (.mkdirat path) (d.put path ⟨[], false⟩)
  | other : DiskStep d .other d

/-! ## Section 2: The disk behind the tables -/

def FileContents.text : FileContents → Text
  | .Static s => ⟨s, false⟩
  | .Dynamic v _ => ⟨v, true⟩

/-- What an open file denotes. -/
def OpenFile.slot (fs : Fs) (of : OpenFile) : Slot :=
  match of.pipe_id, fs.inode_map[of.inode]? with
  | none, some path => .file path of.offset
  | _, _ => .other

def Io.disk (io : Io) : Disk where
  files := fun path => io.fs.files[path]?.map fun f => f.data.text
  slots := fun fd => (io.fd_table.get fd).map (OpenFile.slot io.fs)

/-- An open file belongs to the tables: its inode has been given out, and the end of
    a pipe has none. -/
structure OpenFile.Belongs (fs : Fs) (of : OpenFile) : Prop where
  inode : of.inode < fs.next_inode
  pipe : of.pipe_id ≠ none → of.inode = 0

/-- The tables fit together. -/
structure Io.Orderly (io : Io) : Prop where
  parted : io.Parted
  lawful : io.fs.Lawful
  belongs : ∀ fd of, io.fd_table.get fd = some of → of.Belongs io.fs

section Tables

variable {io io' : Io} {fd : Nat} {of : OpenFile} {path : Path} {fs : Fs}

theorem File.text_bytes (f : File) : f.data.text.bytes = f.as_slice := by
  obtain ⟨d⟩ := f
  cases d with
  | Static s => rfl
  | Dynamic v cap => rfl

theorem slot_file (hpipe : of.pipe_id = none) (hpath : fs.inode_map[of.inode]? = some path) :
    of.slot fs = .file path of.offset := by
  simp only [OpenFile.slot, hpipe, hpath]

theorem slot_pipe {pid : Nat} (hpipe : of.pipe_id = some pid) : of.slot fs = .other := by
  simp only [OpenFile.slot, hpipe]

theorem slot_stray (hpath : fs.inode_map[of.inode]? = none) : of.slot fs = .other := by
  unfold OpenFile.slot
  rw [hpath]
  cases of.pipe_id <;> rfl

theorem slot_moved (of : OpenFile) (fs : Fs) (o : Nat) :
    ({ of with offset := o } : OpenFile).slot fs = (of.slot fs).moved o := by
  unfold OpenFile.slot
  cases of.pipe_id with
  | some pid => rfl
  | none => cases fs.inode_map[of.inode]? <;> rfl

theorem disk_slot (h : io.fd_table.get fd = some of) : io.disk.slots fd = some (of.slot io.fs) := by
  simp only [Io.disk, h, Option.map_some]

theorem disk_closed (h : io.fd_table.get fd = none) : io.disk.slots fd = none := by
  simp only [Io.disk, h, Option.map_none]

theorem disk_file {f : File} (hf : io.fs.files[path]? = some f) : io.disk.files path = some f.data.text := by
  simp only [Io.disk, hf, Option.map_some]

theorem put_same {d : Disk} {t : Text} (h : d.files path = some t) : d.put path t = d := by
  unfold Disk.put
  rw [← h, Function.update_eq_self]

theorem set_same {d : Disk} {s : Option Slot} (h : d.slots fd = s) : d.set fd s = d := by
  unfold Disk.set
  rw [← h, Function.update_eq_self]

/-- Calls that leave the two tables alone leave the disk alone. -/
theorem disk_congr (htable : io'.fd_table = io.fd_table) (hfs : io'.fs = io.fs) : io'.disk = io.disk := by
  unfold Io.disk
  rw [htable, hfs]

theorem disk_of_store (h : io'.store = io.store) : io'.disk = io.disk :=
  disk_congr (congrArg Prod.fst h) (congrArg (fun x => x.2.1) h)

/-- One descriptor changes. -/
theorem disk_table {t : FdTable} {o : Option OpenFile}
    (hget : ∀ i, t.get i = if i = fd then o else io.fd_table.get i) :
    ({ io with fd_table := t } : Io).disk = io.disk.set fd (o.map (OpenFile.slot io.fs)) := by
  unfold Io.disk Disk.set
  congr 1
  funext i
  rw [hget i]
  by_cases hi : i = fd
  · rw [if_pos hi, hi, Function.update_self]
  · rw [if_neg hi, Function.update_of_ne hi]

/-- A descriptor is moved. -/
theorem disk_moved (hof : io.fd_table.get fd = some of) (o : Nat) :
    (io.seeked fd of o).disk = io.disk.set fd (some ((of.slot io.fs).moved o)) := by
  have hget : ∀ i, (io.fd_table.put fd { of with offset := o }).get i =
      if i = fd then some { of with offset := o } else io.fd_table.get i := by
    intro i
    by_cases hi : i = fd
    · rw [if_pos hi, hi]
      exact get_seeked hof o
    · rw [if_neg hi, FdTable.get_put, if_neg (fun h => hi h.1)]
  rw [Io.seeked, disk_table hget, Option.map_some, slot_moved]

/-- The console and pipes have no position. -/
theorem disk_moved_other (hof : io.fd_table.get fd = some of) (hslot : of.slot io.fs = .other) (o : Nat) :
    (io.seeked fd of o).disk = io.disk := by
  rw [disk_moved hof, hslot]
  exact set_same ((disk_slot hof).trans (congrArg some hslot))

/-- One file changes. -/
theorem disk_wrote (v : List UInt8) (cap : Nat) : (io.wrote path v cap).disk = io.disk.put path ⟨v, true⟩ := by
  unfold Io.disk Disk.put
  congr 1
  funext p
  show Option.map _ (io.fs.files.insert path _)[p]? = _
  rw [Std.TreeMap.getElem?_insert]
  by_cases hp : p = path
  · rw [hp, Function.update_self]
    simp [FileContents.text]
  · rw [if_neg (fun he => hp (Std.LawfulEqCmp.eq_of_compare he).symm), Function.update_of_ne hp]

/-- The file behind an inode. -/
theorem Io.Orderly.file (h : io.Orderly) {inode : Nat} (hpath : io.fs.inode_map[inode]? = some path) :
    ∃ f, io.fs.files[path]? = some f ∧ io.fs.file inode = some f := by
  obtain ⟨f, hf⟩ := Option.isSome_iff_exists.mp (Std.TreeMap.mem_iff_isSome_getElem?.mp (h.lawful.paths _ _ hpath))
  refine ⟨f, hf, ?_⟩
  simp only [Fs.file, hpath, Option.bind_some, hf]

/-- The path that `lookup` finds. -/
theorem Io.Orderly.found (h : io.Orderly) {inode : Nat} (hlook : io.fs.lookup path = some inode) :
    io.fs.inode_map[inode]? = some path ∧ ∃ t, io.disk.files path = some t := by
  have hpath := h.lawful.lookup_iff.mp hlook
  obtain ⟨f, hf, -⟩ := h.file hpath
  exact ⟨hpath, _, disk_file hf⟩

/-- A path that `lookup` does not find is not on the disk. -/
theorem Io.Orderly.missing (h : io.Orderly) (hlook : io.fs.lookup path = none) : io.disk.files path = none := by
  have hmem := h.lawful.lookup_none.mp hlook
  simp only [Io.disk, Std.TreeMap.getElem?_eq_none hmem, Option.map_none]

/-- The console and the ends of pipes have no inode. -/
theorem Io.Orderly.zero_stray (h : io.Orderly) (hzero : of.inode = 0) : io.fs.inode_map[of.inode]? = none := by
  apply Std.TreeMap.getElem?_eq_none
  intro hmem
  have hpos := ((h.lawful.numbered of.inode).mp hmem).1
  omega

/-- An open file is a file of the disk, or has no inode. -/
theorem Io.Orderly.slot_cases (h : io.Orderly) (hof : io.fd_table.get fd = some of) :
    of.slot io.fs = .other ∧ io.fs.inode_map[of.inode]? = none ∨
      ∃ path f, io.fs.inode_map[of.inode]? = some path ∧ io.fs.files[path]? = some f ∧
        of.slot io.fs = .file path of.offset := by
  cases hpath : io.fs.inode_map[of.inode]? with
  | none => exact Or.inl ⟨slot_stray hpath, rfl⟩
  | some path =>
    cases hpipe : of.pipe_id with
    | some pid =>
      have hzero := (h.belongs fd of hof).pipe (by rw [hpipe]; exact Option.some_ne_none pid)
      rw [h.zero_stray hzero] at hpath
      cases hpath
    | none =>
      obtain ⟨f, hf, -⟩ := h.file hpath
      exact Or.inr ⟨path, f, rfl, hf, slot_file hpipe hpath⟩

/-- Numbers of sockets are not on the disk. -/
theorem Io.Orderly.fake (h : io.Orderly) {t : FakeFdType} (hfake : io.fake_fds[fd]? = some t) :
    100 ≤ fd ∧ io.fd_table.get fd = none := by
  have hge := (h.parted.high fd (Std.TreeMap.mem_iff_isSome_getElem?.mpr (by simp [hfake]))).1
  refine ⟨hge, ?_⟩
  by_contra hopen
  have hlt := h.parted.low fd hopen
  omega

/-- A directory is created. -/
theorem Io.Orderly.disk_mkdir (h : io.Orderly) (path : Path) :
    ({ io with fs := io.fs.mkdir path } : Io).disk = io.disk.put path ⟨[], false⟩ := by
  unfold Io.disk Disk.put
  congr 1
  · funext p
    show ((io.fs.create_file path (.Static [])).files[p]?).map _ = _
    rw [Fs.get_create]
    by_cases hp : p = path
    · rw [if_pos hp, hp, Function.update_self]
      rfl
    · rw [if_neg hp, Function.update_of_ne hp]
  · funext fd
    show (io.fd_table.get fd).map _ = (io.fd_table.get fd).map _
    cases hof : io.fd_table.get fd with
    | none => rfl
    | some of =>
      -- no open file has the new inode
      have hlt := (h.belongs fd of hof).inode
      have hsame : (io.fs.mkdir path).inode_map[of.inode]? = io.fs.inode_map[of.inode]? := by
        rw [Fs.mkdir, Fs.inode_create, if_neg (by omega)]
      simp only [Option.map_some, OpenFile.slot, hsame]

theorem disk_lowest {t : FdTable} {file : OpenFile} (h : io.fd_table.Takes fd file t) : io.disk.Lowest fd := by
  constructor
  · exact disk_closed h.empty
  · intro i hi hnone
    exact h.lowest i hi (Option.map_eq_none_iff.mp hnone)

end Tables

/-! ## Section 3: Reading and writing -/

/-- The last `n` bytes. -/
def lastBytes (n : Nat) (bs : List UInt8) : List UInt8 := bs.drop (bs.length - n)

theorem lastBytes_append {n : Nat} (bs : List UInt8) {bs' : List UInt8} (h : bs'.length = n) :
    lastBytes n (bs ++ bs') = bs' := by
  unfold lastBytes
  rw [List.length_append, h, Nat.add_sub_cancel, List.drop_left]

section Transfer

variable {env : Env} {io : Io}

/-- A string is loaded with its zero. -/
theorem post_cstr_loaded (p : Ptr) :
    post (cstr p) (fun bs t l => t = io ∧ l = .bytes false (bs ++ [0])) (fun _ _ => True) io := by
  have hgo : ∀ fuel p, post (cstr_go p fuel) (fun bs t l => t = io ∧ l = .bytes false (bs ++ [0]))
      (fun _ _ => True) io := by
    intro fuel
    induction fuel with
    | zero => exact fun p => trivial
    | succ fuel ih =>
      intro p
      simp only [cstr_go, post_bind, post_loadByte]
      intro b
      split
      · next hb =>
        rw [post_pure, hb]
        exact ⟨rfl, Log.app_nil _⟩
      · rw [post_bind]
        apply (ih (p.add 1)).mono _ fun _ _ h => h
        intro bs t l h
        obtain ⟨rfl, rfl⟩ := h
        rw [post_pure]
        exact ⟨rfl, by simp⟩
  unfold cstr
  exact hgo _ p

theorem post_copied (buf : Ptr) (count : Nat) :
    post (copy_in buf count) (fun bs t l => t = io ∧ l = .bytes false bs ∧ bs.length = count ∧
      bs.length ≤ isizeMax) (fun _ _ => True) io := by
  have hbytes : post (copy_in buf count) (fun bs _ l => l = .bytes false bs ∧ bs.length = count)
      (fun _ _ => True) io := by
    unfold copy_in
    rw [post_bind]
    apply (post_vec_zeroed count io).mono _ fun _ _ h => h
    intro a t l h
    obtain ⟨rfl, rfl⟩ := h
    rw [post_loadBytes]
    intro bs hbs
    exact ⟨rfl, hbs⟩
  apply ((post_copy_in buf count).and hbytes).mono _ fun _ _ _ => trivial
  intro bs t l h
  exact ⟨h.1.1, h.2.1, h.2.2, h.1.2⟩

/-- `read_file` returns a part of the text. -/
theorem post_read_text (h : io.Orderly) (inode count offset : Nat) :
    post (read_file inode count offset) (fun bs t l => t = io ∧ l = .nil ∧
      ∀ path, io.fs.inode_map[inode]? = some path → ∃ text, io.disk.files path = some text ∧
        bs = part text.bytes offset count) (fun _ _ => True) io := by
  unfold read_file
  rw [post_bind]
  apply (post_vec_zeroed count io).mono _ fun _ _ h => h
  intro a t l ht
  obtain ⟨rfl, rfl⟩ := ht
  rw [post_bind, post_get]
  cases hread : t.fs.read_inode inode count offset with
  | error e => trivial
  | ok bs =>
    refine ⟨rfl, rfl, fun path hpath => ?_⟩
    obtain ⟨f, hf, hfile⟩ := h.file hpath
    refine ⟨f.data.text, disk_file hf, ?_⟩
    unfold Fs.read_inode at hread
    simp only [hfile] at hread
    split at hread
    · cases hread
    · cases hread
      rw [File.text_bytes]
      unfold part
      -- both cuts end where the file does
      apply List.ext_getElem?
      intro i
      simp only [List.getElem?_take, List.getElem?_drop]
      by_cases hi : offset + i < f.as_slice.length
      · have hcut : i < min (f.as_slice.length - min offset f.as_slice.length) count ↔ i < count := by omega
        simp only [hcut]
      · rw [List.getElem?_eq_none (by omega)]
        split <;> split <;> rfl

/-- What `write_inode` has done when it returns `n`: the text has taken the bytes, and
    neither descriptors nor inodes have changed. -/
structure Stored (io : Io) (inode : Nat) (buf : List UInt8) (offset n : Nat) (t : Io) : Prop where
  table : t.fd_table = io.fd_table
  inodes : t.fs.inode_map = io.fs.inode_map
  stray : io.fs.inode_map[inode]? = none → t = io
  text : ∀ path : Path, io.fs.inode_map[inode]? = some path → ∃ text, io.disk.files path = some text ∧
    n = text.accepts buf ∧ (text.growable = true → offset + buf.length < 2 ^ 64) ∧
    t.disk = io.disk.put path (text.store offset buf)

/-- The last step of a write to a vector, which follows the reservation. -/
theorem stored_vector {inode offset cap cap' : Nat} {path : Path} {v buf : List UInt8}
    (hpath : io.fs.inode_map[inode]? = some path) (hf : io.fs.files[path]? = some ⟨.Dynamic v cap⟩)
    (hend : offset + buf.length < 2 ^ 64) :
    Stored io inode buf offset buf.length (io.wrote path (splice v offset buf) cap') := by
  refine ⟨rfl, rfl, fun hnone => ?_, fun p hp => ?_⟩
  · rw [hpath] at hnone
    cases hnone
  · rw [hpath] at hp
    cases hp
    exact ⟨_, disk_file hf, rfl, fun _ => hend, disk_wrote _ _⟩

/-- `write_inode` stores into the text. -/
theorem post_write_text (h : io.Orderly) (inode : Nat) {buf : List UInt8} (offset : Nat)
    (hbuf : buf.length ≤ isizeMax) :
    post (write_inode inode buf offset) (fun n t l => l = .nil ∧ Stored io inode buf offset n t)
      (fun _ _ => True) io := by
  unfold isizeMax at hbuf
  unfold write_inode
  rw [post_bind, post_get]
  cases hpath : io.fs.inode_map[inode]? with
  | none =>
    simp only [hpath]
    refine ⟨rfl, rfl, rfl, fun _ => rfl, fun path hsome => ?_⟩
    rw [hpath] at hsome
    cases hsome
  | some path =>
    obtain ⟨f, hf, -⟩ := h.file hpath
    simp only [hpath, hf]
    obtain ⟨d⟩ := f
    cases d with
    | Static d =>
      -- a file of the image takes nothing, and storing nothing leaves the disk as it is
      have htext := disk_file hf
      refine ⟨rfl, rfl, rfl, fun _ => rfl, fun p hp => ?_⟩
      rw [hpath] at hp
      cases hp
      exact ⟨_, htext, rfl, fun hgrow => absurd hgrow (by simp [FileContents.text]), (put_same htext).symm⟩
    | Dynamic v cap =>
      have hstore : ∀ cap', post (do
            if wadd offset buf.length < offset then
              throw (.panic "slice index starts after its end")
            modify fun io : Io => { io with fs := { io.fs with files := (io.fs.files.insert path
              ⟨.Dynamic ((v ++ List.replicate (wadd offset buf.length - v.length) 0).take offset ++ buf ++
                (v ++ List.replicate (wadd offset buf.length - v.length) 0).drop
                  (wadd offset buf.length)) cap'⟩) } }
            return buf.length : IoM Nat)
          (fun n t l => l = .nil ∧ Stored io inode buf offset n t) (fun _ _ => True) io := by
        intro cap'
        split
        · trivial
        · next horder =>
          -- the end has not wrapped around, or the slice would have panicked
          have hend : offset + buf.length < 2 ^ 64 := by
            rw [wadd] at horder
            omega
          rw [wadd_of_lt hend, splice_eq]
          exact ⟨rfl, stored_vector hpath hf hend⟩
      dsimp only
      split
      · rw [post_bind]
        apply (post_vec_reserve_silent _ _ _ _ _).mono _ fun _ _ h => h
        intro cap' t l ht
        obtain ⟨rfl, rfl⟩ := ht
        exact hstore cap'
      · exact hstore cap

end Transfer

/-! ## Section 4: Calls -/

section Calls

variable {env : Env} {io : Io}

/-- **`openat`** looks up the string that it loads. -/
theorem post_openat_named (path : Ptr) (flags : Int) :
    post (sys_openat path flags) (fun r t l => ∃ name, l false = name ++ [0] ∧
      (io.fs.lookup name = none ∧ r = -2 ∧ t = io ∨
        ∃ inode fd t', io.fs.lookup name = some inode ∧ io.fd_table.Takes fd (openFile inode flags) t' ∧
          r = fd ∧ t = { io with fd_table := t' })) (fun _ _ => True) io := by
  unfold sys_openat
  rw [post_bind]
  apply (post_cstr_loaded path).mono _ fun _ _ h => h
  intro name t l ht
  obtain ⟨rfl, rfl⟩ := ht
  rw [post_bind, post_get]
  cases hlook : t.fs.lookup name with
  | none => exact ⟨name, by simp, Or.inl ⟨hlook, rfl, rfl⟩⟩
  | some inode =>
    dsimp only
    rw [post_bind, post_get, post_bind]
    apply (post_fd_takes t.fd_table (openFile inode flags)).mono _ fun _ _ h => h
    intro p u l' hu
    obtain ⟨t', fd⟩ := p
    obtain ⟨rfl, rfl, htakes⟩ := hu
    exact ⟨name, by simp, Or.inr ⟨inode, fd, t', hlook, htakes, rfl, rfl⟩⟩

theorem disk_openat (h : io.Orderly) (path : Ptr) (flags : Int) :
    post (sys_openat path flags) (fun r t l => DiskStep io.disk (.openat (l false).dropLast r) t.disk)
      (fun _ _ => True) io := by
  apply (post_openat_named path flags).mono _ fun _ _ h => h
  intro r t l hpost
  obtain ⟨name, hlog, ⟨hlook, rfl, rfl⟩ | ⟨inode, fd, t', hlook, htakes, rfl, rfl⟩⟩ := hpost
  · rw [hlog, List.dropLast_concat]
    exact .openat_missing (h.missing hlook)
  · obtain ⟨hpath, text, hfile⟩ := h.found hlook
    rw [hlog, List.dropLast_concat, disk_table htakes.get, Option.map_some, slot_file rfl hpath]
    exact .openat hfile (disk_lowest htakes)

theorem disk_close (h : io.Orderly) (a : Nat) :
    post (sys_close (toIsize a)) (fun r t _ => DiskStep io.disk (.close (ofIsize (toIsize a)) r) t.disk)
      (fun _ _ => True) io := by
  -- a socket is not on the disk, so that closing it changes nothing there
  have hfake : ∀ t : Io, t.store = io.store → ¬ (toIsize a < 3 ∧ toIsize a ≥ 0) →
      ofIsize (toIsize a) ∈ io.fake_fds → DiskStep io.disk (.close (ofIsize (toIsize a)) 0) t.disk := by
    intro t ht hstd hmem
    obtain ⟨ty, hty⟩ := Option.isSome_iff_exists.mp (Std.TreeMap.mem_iff_isSome_getElem?.mp hmem)
    obtain ⟨hge, hnone⟩ := h.fake hty
    rw [disk_of_store ht]
    have hset : io.disk.set (ofIsize (toIsize a)) none = io.disk := set_same (disk_closed hnone)
    have hclose := DiskStep.close (d := io.disk) (show 3 ≤ ofIsize (toIsize a) by omega)
    rwa [hset] at hclose
  have hlow : ofIsize (toIsize a) < 3 ↔ toIsize a < 3 ∧ toIsize a ≥ 0 := by
    have hlt := ofIsize_lt (toIsize a)
    have heq := toIsize_eq hlt
    rw [toIsize_ofIsize] at heq
    split at heq <;> omega
  unfold sys_close is_inet_socket is_fake_fd
  split
  · next hstd => exact .close_standard (hlow.mpr hstd)
  · next hstd =>
    simp only [post_bind, post_get, post_pure]
    split
    · next hinet =>
      have hmem : ofIsize (toIsize a) ∈ io.fake_fds :=
        Std.TreeMap.mem_iff_isSome_getElem?.mpr (by simp [eq_of_beq hinet])
      rw [post_bind]
      apply ((outer_close_fd _) io).mono _ fun _ _ h => h
      intro _ t _ ht
      exact hfake _ ht hstd hmem
    · simp only [post_bind, post_get, post_pure]
      split
      · next hmem => exact hfake _ rfl hstd (Std.TreeMap.mem_iff_contains.mpr hmem)
      · rw [post_bind, post_modify, post_pure]
        rw [disk_table (FdTable.get_close _ _)]
        exact .close (by omega)

theorem disk_dup2 (a b : Nat) :
    post (sys_dup2 (toIsize a) (toIsize b)) (fun r t _ =>
      DiskStep io.disk (.dup (ofIsize (toIsize a)) (ofIsize (toIsize b)) r) t.disk) (fun _ _ => True) io := by
  apply (post_dup2 (toIsize a) (toIsize b)).mono _ fun _ _ h => h
  intro r t _ h
  rcases h with ⟨hnone, rfl, rfl⟩ | ⟨file, t', hfile, rfl, rfl, hget⟩
  · exact .dup_closed (disk_closed hnone)
  · have hdup : ∀ n, DiskStep io.disk (.dup (ofIsize (toIsize a)) n (toIsize n))
        (io.disk.set n (some (file.slot io.fs))) := fun n => .dup (disk_slot hfile)
    have hstep := hdup (ofIsize (toIsize b))
    rw [toIsize_ofIsize] at hstep
    rwa [disk_table hget]

theorem disk_pipe2 (h : io.Orderly) (pipefd : Ptr)
    (hroom : ∃ fd fd', fd < fd' ∧ fd' < 100 ∧ io.fd_table.get fd = none ∧ io.fd_table.get fd' = none) :
    post (sys_pipe2 pipefd) (fun _ t l =>
      DiskStep io.disk (.pipe (leNat ((l true).take 4)) (leNat ((l true).drop 4))) t.disk)
      (fun _ _ => True) io := by
  apply (post_pipe2 pipefd).mono _ fun _ _ h => h
  intro r t l hpost
  obtain ⟨rfd, wfd, t1, t2, hread, hwrite, -, rfl, hlog⟩ := hpost
  -- the numbers fit into the words that the call stores
  obtain ⟨i, j, hij, hj, hi, -⟩ := id hroom
  obtain ⟨hrfd, hlow1⟩ := hread.low h.parted.low ⟨i, by omega, hi⟩
  have hwfd := (hwrite.low hlow1 (hread.left hroom)).1
  obtain ⟨hfst, hsnd⟩ := leNat_pair (a := rfd) (b := wfd) (by omega) (by omega)
  rw [hlog, hfst, hsnd]
  have hone : ({ io with fd_table := t1 } : Io).disk = io.disk.set rfd (some .other) := disk_table hread.get
  have htwo : ({ io with
      fd_table := t2
      next_pipe_id := io.next_pipe_id + 1
      pipes := io.pipes.insert io.next_pipe_id .new } : Io).disk =
      ({ io with fd_table := t1 } : Io).disk.set wfd (some .other) := by
    have hget : ∀ i, t2.get i = if i = wfd then some (pipe_end io.next_pipe_id true)
        else ({ io with fd_table := t1 } : Io).fd_table.get i := hwrite.get
    exact disk_table hget
  have hlowest : ({ io with fd_table := t1 } : Io).disk.Lowest wfd := disk_lowest hwrite
  rw [htwo, hone]
  rw [hone] at hlowest
  exact .pipe (disk_lowest hread) hlowest

theorem disk_read_open (h : io.Orderly) (fd : Nat) (buf : Ptr) (count : Nat) :
    post (read_open fd buf count) (fun r t l => DiskStep io.disk (.read fd count (l true) r) t.disk)
      (fun _ _ => True) io := by
  unfold read_open
  rw [post_bind, post_get]
  cases hof : io.fd_table.get fd with
  | none => exact .read_closed (disk_closed hof) fun _ => ⟨rfl, rfl⟩
  | some of =>
    have hslot := disk_slot hof
    dsimp only
    split
    · next pid hpipe =>
      rw [slot_pipe hpipe] at hslot
      apply ((apart_read_pipe pid buf count) io).mono _ fun _ _ h => h
      intro r t l ht
      rw [disk_congr ht.1 ht.2]
      exact .read_other hslot
    · next hpipe =>
      rw [post_bind]
      apply (post_read_text h of.inode count of.offset).mono _ fun _ _ h => h
      intro bs t l ht
      obtain ⟨rfl, rfl, hbs⟩ := ht
      simp only [post_bind, post_storeBytes, fd_put, post_modify, post_pure, Log.nil_app, Log.app_nil]
      show DiskStep t.disk (.read fd count bs bs.length) (t.seeked fd of (wadd of.offset bs.length)).disk
      rcases h.slot_cases hof with ⟨hother, -⟩ | ⟨path, f, hpath, -, hfd⟩
      · rw [hother] at hslot
        rw [disk_moved_other hof hother]
        exact .read_other hslot
      · obtain ⟨text, hfile, hpart⟩ := hbs path hpath
        rw [hfd] at hslot
        rw [disk_moved hof, hfd]
        exact .read hslot hfile hpart

theorem disk_read (h : io.Orderly) (fd : Int) (buf : Ptr) (count : Nat) :
    post (sys_read env fd buf count) (fun r t l =>
      DiskStep io.disk (.read (ofIsize fd) count (l true) r) t.disk) (fun _ _ => True) io := by
  unfold sys_read
  rw [post_bind, post_get]
  split
  · next hstdin =>
    -- the console has no inode
    unfold Io.is_stdin at hstdin
    cases hof : io.fd_table.get (ofIsize fd) with
    | none => simp [hof] at hstdin
    | some of =>
      simp only [hof, Bool.and_eq_true, beq_iff_eq, Option.isNone_iff_eq_none] at hstdin
      have hnone := h.zero_stray hstdin.1
      have hslot := disk_slot hof
      rw [slot_stray hnone] at hslot
      rw [post_bind]
      apply ((outer_read_line buf count io.uart_in 0) io).mono _ fun _ _ h => h
      intro n t l ht
      rw [post_pure, disk_of_store ht]
      exact .read_other hslot
  · -- sockets are not on the disk, and may return anything
    have hfake : ∀ t : Io, ∀ ty l r, io.fake_fds[ofIsize fd]? = some ty → t.store = io.store →
        DiskStep io.disk (.read (ofIsize fd) count l r) t.disk := by
      intro t ty l r hty ht
      obtain ⟨hge, hnone⟩ := h.fake hty
      rw [disk_of_store ht]
      exact .read_closed (disk_closed hnone) fun hlt => absurd hlt (by omega)
    split
    · next st hst =>
      simp only [post_bind, post_storeBytes, fake_fd_insert, post_modify, post_pure]
      exact hfake _ _ _ _ hst rfl
    · next hinet =>
      apply ((outer_recv_from_fd (ofIsize fd) buf count) io).mono _ fun _ _ h => h
      intro r t l ht
      exact hfake _ _ _ _ hinet ht
    · exact disk_read_open h (ofIsize fd) buf count

/-- The event of `write`, which goes to the console for the descriptors 1 and 2,
    whatever they denote. -/
def DiskEvent.ofWrite (fd : Int) (count : Nat) (l : Log) (ret : Int) : DiskEvent :=
  if fd = 1 ∨ fd = 2 then .other else .write (ofIsize fd) (lastBytes count (l false)) ret

theorem disk_write_open (h : io.Orderly) (fd : Nat) (buf : Ptr) (count : Nat) (loaded : List UInt8) :
    post (write_open fd buf count) (fun r t l =>
      DiskStep io.disk (.write fd (lastBytes count (loaded ++ l false)) r) t.disk) (fun _ _ => True) io := by
  unfold write_open
  rw [post_bind, post_get]
  cases hof : io.fd_table.get fd with
  | none => exact .write_closed (disk_closed hof) fun _ => rfl
  | some of =>
    have hslot := disk_slot hof
    dsimp only
    split
    · next pid hpipe =>
      rw [slot_pipe hpipe] at hslot
      apply ((apart_write_pipe pid buf count) io).mono _ fun _ _ h => h
      intro r t l ht
      rw [disk_congr ht.1 ht.2]
      exact .write_other hslot
    · next hpipe =>
      rw [post_bind]
      apply (post_copied buf count).mono _ fun _ _ h => h
      intro bs t l ht
      obtain ⟨rfl, rfl, hlen, hmax⟩ := ht
      rw [post_bind]
      apply (post_write_text h of.inode of.offset hmax).mono _ fun _ _ h => h
      intro n u l' hu
      obtain ⟨rfl, hstored⟩ := hu
      simp only [post_bind, fd_put, post_modify, post_pure, Log.nil_app, Log.app_nil]
      have hlog : lastBytes count (loaded ++ Log.bytes false bs false) = bs := lastBytes_append loaded hlen
      have hof' : u.fd_table.get fd = some of := by rw [hstored.table, hof]
      -- the write has left the paths of the inodes alone
      have hsame : of.slot u.fs = of.slot t.fs := by
        unfold OpenFile.slot
        rw [hstored.inodes]
      show DiskStep t.disk (.write fd (lastBytes count (loaded ++ Log.bytes false bs false)) n)
        (u.seeked fd of (wadd of.offset n)).disk
      rw [hlog]
      rcases h.slot_cases hof with ⟨hother, hnone⟩ | ⟨path, f, hpath, -, hfd⟩
      · rw [hother] at hslot hsame
        rw [disk_moved_other hof' hsame, hstored.stray hnone]
        exact .write_other hslot
      · obtain ⟨text, hfile, rfl, hend, hdisk⟩ := hstored.text path hpath
        rw [hfd] at hslot hsame
        rw [disk_moved hof', hsame, hdisk]
        exact .write hslot hfile hend

theorem disk_write (h : io.Orderly) (fd : Int) (buf : Ptr) (count : Nat) :
    post (sys_write env fd buf count) (fun r t l => DiskStep io.disk (.ofWrite fd count l r) t.disk)
      (fun _ _ => True) io := by
  unfold sys_write DiskEvent.ofWrite
  by_cases hstd : fd = 1 ∨ fd = 2
  · simp only [if_pos hstd, post_bind, post_loadBytes, print, post_modify, post_pure]
    intro bs _
    exact .other
  · simp only [if_neg hstd]
    -- the echo of log files loads the bytes, too
    have hecho : post (log_echo fd buf count) (fun _ t _ => t = io) (fun _ _ => True) io :=
      (quiet_log_echo fd buf count io).mono (fun _ _ _ ht => ht) fun _ _ _ => trivial
    rw [post_bind]
    apply hecho.mono _ fun _ _ h => h
    intro _ t l ht
    subst ht
    simp only [is_inet_socket, post_bind, post_get, post_pure, Log.nil_app]
    split
    · next hinet =>
      obtain ⟨hge, hnone⟩ := h.fake (eq_of_beq hinet)
      apply ((outer_send_to_fd (ofIsize fd) buf count) t).mono _ fun _ _ h => h
      intro r u l' hu
      rw [disk_of_store hu]
      exact .write_closed (disk_closed hnone) fun hlt => absurd hlt (by omega)
    · exact disk_write_open h (ofIsize fd) buf count (l false)

theorem disk_pread (h : io.Orderly) (fd : Int) (buf : Ptr) (count offset : Nat) :
    post (sys_pread64 fd buf count offset) (fun r t l =>
      DiskStep io.disk (.pread (ofIsize fd) count offset (l true) r) t.disk) (fun _ _ => True) io := by
  unfold sys_pread64
  rw [post_bind, post_get]
  cases hof : io.fd_table.get (ofIsize fd) with
  | none => exact .pread_closed (disk_closed hof)
  | some of =>
    have hslot := disk_slot hof
    dsimp only
    rw [post_bind]
    apply (post_read_text h of.inode count offset).mono _ fun _ _ h => h
    intro bs t l ht
    obtain ⟨rfl, rfl, hbs⟩ := ht
    simp only [post_bind, post_storeBytes, post_pure, Log.nil_app, Log.app_nil]
    show DiskStep t.disk (.pread (ofIsize fd) count offset bs bs.length) t.disk
    rcases h.slot_cases hof with ⟨hother, -⟩ | ⟨path, f, hpath, -, hfd⟩
    · rw [hother] at hslot
      exact .pread_other hslot
    · obtain ⟨text, hfile, hpart⟩ := hbs path hpath
      rw [hfd] at hslot
      exact .pread hslot hfile hpart

theorem disk_pwrite (h : io.Orderly) (fd : Int) (buf : Ptr) (count offset : Nat) :
    post (sys_pwrite64 fd buf count offset) (fun r t l =>
      DiskStep io.disk (.pwrite (ofIsize fd) (l false) offset r) t.disk) (fun _ _ => True) io := by
  unfold sys_pwrite64
  rw [post_bind, post_get]
  cases hof : io.fd_table.get (ofIsize fd) with
  | none => exact .pwrite_closed (disk_closed hof)
  | some of =>
    have hslot := disk_slot hof
    dsimp only
    rw [post_bind]
    apply (post_copied buf count).mono _ fun _ _ h => h
    intro bs t l ht
    obtain ⟨rfl, rfl, hlen, hmax⟩ := ht
    rw [post_bind]
    apply (post_write_text h of.inode offset hmax).mono _ fun _ _ h => h
    intro n u l' hu
    obtain ⟨rfl, hstored⟩ := hu
    simp only [post_pure, Log.nil_app, Log.app_nil]
    show DiskStep t.disk (.pwrite (ofIsize fd) bs offset n) u.disk
    rcases h.slot_cases hof with ⟨hother, hnone⟩ | ⟨path, f, hpath, -, hfd⟩
    · rw [hother] at hslot
      rw [hstored.stray hnone]
      exact .pwrite_other hslot
    · obtain ⟨text, hfile, rfl, hend, hdisk⟩ := hstored.text path hpath
      rw [hfd] at hslot
      rw [hdisk]
      exact .pwrite hslot hfile hend

theorem disk_lseek (h : io.Orderly) (fd offset whence : Int) :
    post (sys_lseek fd offset whence) (fun r t _ =>
      DiskStep io.disk (.lseek (ofIsize fd) offset whence r) t.disk) (fun _ _ => True) io := by
  unfold sys_lseek
  rw [post_bind, post_get]
  cases hof : io.fd_table.get (ofIsize fd) with
  | none => exact .lseek_closed (disk_closed hof)
  | some of =>
    have hslot := disk_slot hof
    dsimp only
    rcases h.slot_cases hof with ⟨hother, -⟩ | ⟨path, f, hpath, hf, hfd⟩
    · -- the console has no position, wherever the seek goes
      rw [hother] at hslot
      have hseek : ∀ r o, DiskStep io.disk (.lseek (ofIsize fd) offset whence r) (io.seeked (ofIsize fd) of o).disk := by
        intro r o
        rw [disk_moved_other hof hother]
        exact .lseek_other hslot
      split_ifs
      · exact hseek _ _
      · exact hseek _ _
      · exact hseek _ _
      · exact .lseek_other hslot
    · rw [hfd] at hslot
      have hseek : ∀ base, f.data.text.base of.offset whence = some base →
          DiskStep io.disk (.lseek (ofIsize fd) offset whence (toIsize (ofIsize (base + offset))))
            (io.seeked (ofIsize fd) of (ofIsize (base + offset))).disk := by
        intro base hbase
        rw [disk_moved hof, hfd]
        exact .lseek hslot (disk_file hf) hbase
      have hsize : io.fs.file_size of.inode = f.data.text.bytes.length := by
        rw [File.text_bytes]
        simp only [Fs.file_size, Fs.file, hpath, Option.bind_some, hf]
        rfl
      unfold Text.base at hseek
      split_ifs with h0 h1 h2
      · exact hseek 0 (by rw [if_pos h0])
      · exact hseek _ (by rw [if_neg h0, if_pos h1])
      · exact hseek _ (by rw [if_neg h0, if_neg h1, if_pos h2, hsize])
      · apply DiskStep.lseek_refused hslot (disk_file hf)
        rw [Text.base, if_neg h0, if_neg h1, if_neg h2]

theorem disk_getdents (fd : Int) (buf : Ptr) (count : Nat) :
    post (sys_getdents64 fd buf count) (fun _ t _ => DiskStep io.disk (.getdents (ofIsize fd)) t.disk)
      (fun _ _ => True) io := by
  unfold sys_getdents64
  rw [post_bind, post_get]
  cases hof : io.fd_table.get (ofIsize fd) with
  | none => exact .getdents_none
  | some of =>
    dsimp only
    rw [post_bind]
    apply (post_vec_zeroed count io).mono _ fun _ _ h => h
    intro a t l ht
    obtain ⟨rfl, rfl⟩ := ht
    simp only [post_bind, post_get]
    split
    · simp only [post_bind, post_storeBytes, fd_put, post_modify, post_pure]
      show DiskStep t.disk _ (t.seeked (ofIsize fd) of (t.fs.read_dir of.inode count of.offset).2).disk
      rw [disk_moved hof]
      exact .getdents (disk_slot hof)
    · exact .getdents_none

theorem disk_mkdirat (h : io.Orderly) (path : Ptr) :
    post (sys_mkdirat path) (fun _ t l => DiskStep io.disk (.mkdirat (l false).dropLast) t.disk)
      (fun _ _ => True) io := by
  unfold sys_mkdirat
  rw [post_bind]
  apply (post_cstr_loaded path).mono _ fun _ _ h => h
  intro name t l ht
  obtain ⟨rfl, rfl⟩ := ht
  simp only [post_bind, post_get]
  cases hlook : t.fs.lookup name with
  | some inode =>
    obtain ⟨-, text, hfile⟩ := h.found hlook
    simp only [Option.isNone_some, Bool.false_eq_true, if_false, post_pure, Log.app_nil, Log.bytes_apply,
      if_true, List.dropLast_concat]
    exact .mkdirat_old hfile
  | none =>
    simp only [Option.isNone_none, if_true, post_bind, post_modify, post_pure, Log.app_nil, Log.bytes_apply,
      List.dropLast_concat]
    rw [h.disk_mkdir name]
    exact .mkdirat (h.missing hlook)

end Calls

/-! ## Section 5: The tables stay orderly -/

section Orderly

variable {env : Env} {may : Io.Act → Prop} {io io' : Io}

theorem next_change {n : Nat} (h : n ≤ io.fs.next_inode) (hc : Io.Change env may io io') :
    n ≤ io'.fs.next_inode := by
  cases hc with
  | mkdir path _ _ => exact h.trans (Nat.le_succ _)
  | _ => exact h

theorem OpenFile.Belongs.mono {fs fs' : Fs} {of of' : OpenFile} (h : of.Belongs fs)
    (hnext : fs.next_inode ≤ fs'.next_inode) (hinode : of'.inode = of.inode) (hpipe : of'.pipe_id = of.pipe_id) :
    of'.Belongs fs' := by
  constructor
  · rw [hinode]
    exact Nat.lt_of_lt_of_le h.inode hnext
  · rw [hpipe, hinode]
    exact h.pipe

/-- Changes that leave what descriptors denote. -/
theorem Io.Orderly.steady (h : io.Orderly) (hdenotes : io'.fd_table.denotes = io.fd_table.denotes)
    (hreach : Io.Reach env may io io') : io'.Orderly := by
  obtain ⟨hhigh, hnext⟩ := hreach.invariant (fun _ _ => high_change) ⟨h.parted.high, h.parted.next⟩
  have hold : ∀ fd, io'.fd_table.get fd = none ↔ io.fd_table.get fd = none := by
    intro fd
    rw [← FdTable.denotes_eq_none, hdenotes, FdTable.denotes_eq_none]
  refine ⟨⟨fun fd hfd => ?_, hhigh, hnext⟩, hreach.invariant (fun _ _ => lawful_change) h.lawful, fun fd of hof => ?_⟩
  · exact h.parted.low fd fun hnone => hfd ((hold fd).mpr hnone)
  · have hsame := congrFun hdenotes fd
    unfold FdTable.denotes at hsame
    rw [hof, Option.map_some] at hsame
    obtain ⟨of', hof', heq⟩ := Option.map_eq_some_iff.mp hsame.symm
    have hle := hreach.invariant (fun _ _ => next_change) (Nat.le_refl io.fs.next_inode)
    exact (h.belongs fd of' hof').mono hle (congrArg OpenFile.inode heq).symm (congrArg OpenFile.pipe_id heq).symm

theorem keeps_orderly {α : Type} {c : IoM α} (hsteady : ∀ d, Keeps (Io.Denotes d) c)
    (heffect : IoEffect env may c) : Keeps Io.Orderly c := by
  intro io h
  apply ((hsteady _ io rfl).and (heffect io)).mono _ fun _ _ _ => trivial
  intro a t l hpost
  exact h.steady hpost.1 hpost.2

theorem orderly_write (fd : Int) (buf : Ptr) (count : Nat) : Keeps Io.Orderly (sys_write env fd buf count) := by
  have heffect : IoEffect env (fun _ => True) (sys_write env fd buf count) := effect_sys_write fd buf count
  exact keeps_orderly (fun _ => steady_sys_write fd buf count) heffect

theorem orderly_read (fd : Int) (buf : Ptr) (count : Nat) : Keeps Io.Orderly (sys_read env fd buf count) := by
  have heffect : IoEffect env (fun _ => True) (sys_read env fd buf count) := effect_sys_read fd buf count
  exact keeps_orderly (fun _ => steady_sys_read fd buf count) heffect

/-- One descriptor gets a file that belongs. -/
theorem Io.Orderly.table (h : io.Orderly) {t : FdTable} {fd : Nat} {o : Option OpenFile}
    (hget : ∀ i, t.get i = if i = fd then o else io.fd_table.get i) (ho : ∀ of, o = some of → of.Belongs io.fs) :
    ∀ i of, t.get i = some of → of.Belongs io.fs := by
  intro i of hof
  rw [hget i] at hof
  split at hof
  · exact ho of hof
  · exact h.belongs i of hof

/-- The end of a pipe belongs. -/
theorem Io.Orderly.pipe_end (h : io.Orderly) (pid : Nat) (write : Bool) : (pipe_end pid write).Belongs io.fs :=
  ⟨h.lawful.pos, fun _ => rfl⟩

/-- **Orderly tables.**  One call that keeps the files below 100 keeps the tables orderly. -/
theorem Io.Orderly.step (h : io.Orderly) {l : IoLabel} (hst : LTS.guarded LowCond (IoStep env) io l io') :
    io'.Orderly := by
  have hparted := h.parted.step hst
  have hreach := hst.2.reach
  have hlawful := hreach.invariant (fun _ _ => lawful_change) h.lawful
  obtain ⟨hcond, c, t, hc, hrun, rfl⟩ := hst
  by_cases hnum : l.num ∈ openingCalls
  · refine ⟨hparted, hlawful, ?_⟩
    by_cases hopenat : l.num = 56
    · -- `Opening` does not say that the inode of the new file has been given out
      obtain ⟨root, mem, heap, num, a, ret⟩ := l
      obtain rfl : num = 56 := hopenat
      cases hc
      obtain ⟨name, -, ⟨-, -, ht⟩ | ⟨inode, fd, t', hlook, htakes, -, ht⟩⟩ :=
        (post_openat_named (user a.a1) (toIsize a.a2)).ok hrun
      · rw [ht]
        exact h.belongs
      · rw [ht]
        apply h.table htakes.get
        intro of hof
        cases hof
        exact ⟨h.lawful.inode_lt (h.lawful.lookup_iff.mp hlook), fun hpipe => absurd rfl hpipe⟩
    · have hopen : Opening io l.num l.args l.ret t.st := run_opening hc hnum hrun
      generalize t.st = io' at hopen
      cases hopen with
      | failed _ hstore =>
        have htable : io'.fd_table = io.fd_table := congrArg Prod.fst hstore
        have hfs : io'.fs = io.fs := congrArg (fun x => x.2.1) hstore
        rw [htable, hfs]
        exact h.belongs
      | openat fd inode t' hnum htakes hret => exact absurd hnum hopenat
      | close hnum hstd =>
        apply h.table (FdTable.get_close _ _)
        intro of hof
        cases hof
      | dup file t' hnum hfile hget =>
        apply h.table hget
        intro of hof
        cases hof
        exact h.belongs _ _ hfile
      | pipe rfd wfd t1 t2 hnum hread hwrite =>
        have hone : ∀ i of, t1.get i = some of → of.Belongs io.fs := by
          apply h.table hread.get
          intro of hof
          cases hof
          exact h.pipe_end _ _
        intro i of hof
        have hof : t2.get i = some of := hof
        rw [hwrite.get i] at hof
        split at hof
        · cases hof
          exact h.pipe_end _ _
        · exact hone i of hof
  · -- the other calls only move positions
    exact h.steady ((io_call_steady hc hnum).run hrun rfl) hreach

theorem Io.Orderly.boot (b : Fs.Blobs) : (Io.boot b).Orderly where
  parted := .boot b
  lawful := Fs.init_lawful b
  belongs := by
    intro fd of hof
    have hstdio : of = FdTable.stdio := by
      have hmem : some of ∈ FdTable.new.files := List.mem_of_getElem? (Option.join_eq_some_iff.mp hof)
      simpa [FdTable.new] using hmem
    rw [hstdio]
    exact ⟨(Fs.init_lawful b).pos, fun _ => rfl⟩

end Orderly

/-! ## Section 6: Runs -/

/-- A call with its result. -/
structure Call where
  num : Nat
  args : Args
  ret : Int

def IoLabel.call (l : IoLabel) : Call := ⟨l.num, l.args, l.ret⟩

/-- The event of a call and the bytes that it moved. -/
def Call.event (c : Call) (lg : Log) : DiskEvent :=
  let fd := ofIsize (toIsize c.args.a0)
  match c.num with
  | 23 | 24 => .dup fd (ofIsize (toIsize c.args.a1)) c.ret
  | 34 => .mkdirat (lg false).dropLast
  | 56 => .openat (lg false).dropLast c.ret
  | 57 => .close fd c.ret
  | 59 => .pipe (leNat ((lg true).take 4)) (leNat ((lg true).drop 4))
  | 61 => .getdents fd
  | 62 => .lseek fd (toIsize c.args.a1) (toIsize c.args.a2) c.ret
  | 63 | 207 => .read fd c.args.a2 (lg true) c.ret
  | 64 => .ofWrite (toIsize c.args.a0) c.args.a2 lg c.ret
  | 67 => .pread fd c.args.a2 c.args.a3 (lg true) c.ret
  | 68 => .pwrite fd (lg false) c.args.a3 c.ret
  | _ => .other

/-- The bytes that an event writes. -/
def DiskEvent.written : DiskEvent → List UInt8
  | .write _ bytes _ => bytes
  | _ => []

/-- The event is a write to `fd`. -/
def DiskEvent.WritesTo (fd : Int) (e : DiskEvent) : Prop := ∃ count lg ret, e = .ofWrite fd count lg ret

/-- The events of a call: `writev` is a number of writes, `sendfile` a read, and a
    write if something was read.  What they write has been loaded, in this order. -/
inductive Call.Tells (c : Call) (lg : Log) : List DiskEvent → Prop where
  | single (hnum : c.num ≠ 66 ∧ c.num ≠ 71) : Tells c lg [c.event lg]
  | writev (es : List DiskEvent) (hnum : c.num = 66) (hes : ∀ e ∈ es, e.WritesTo (toIsize c.args.a0))
      (hbytes : List.Sublist (es.map DiskEvent.written).flatten (lg false)) : Tells c lg es
  | sendfile_empty (bytes : List UInt8) (hnum : c.num = 71) (hret : c.ret ≤ 0)
      (hbytes : List.Sublist bytes (lg true)) :
      Tells c lg [.read (ofIsize (toIsize c.args.a1)) (min c.args.a3 4096) bytes c.ret]
  | sendfile (bytes : List UInt8) (n : Int) (e : DiskEvent) (hnum : c.num = 71) (hn : 0 < n)
      (hbytes : List.Sublist bytes (lg true)) (he : e.WritesTo (toIsize c.args.a0))
      (hwritten : List.Sublist e.written (lg false)) :
      Tells c lg [.read (ofIsize (toIsize c.args.a1)) (min c.args.a3 4096) bytes n, e]

/-- One returning call, with the bytes that it moved. -/
def LoggedStep (env : Env) (io : Io) (x : IoLabel × Log) (io' : Io) : Prop :=
  ∃ c t, io_call env x.1.num x.1.args = some c ∧ run (machine x.1.root) c (x.1.start io) = .ok x.1.ret t ∧
    t.st = io' ∧ x.2 = fun w => moved (machine x.1.root) w c (x.1.start io)

section Runs

variable {env : Env} {io io' : Io}

theorem LoggedStep.step {x : IoLabel × Log} (h : LoggedStep env io x io') : IoStep env io x.1 io' := by
  obtain ⟨c, t, hc, hrun, ht, -⟩ := h
  exact ⟨c, t, hc, hrun, ht⟩

theorem written_sublist (fd : Int) (count : Nat) (l : Log) (ret : Int) :
    List.Sublist (DiskEvent.ofWrite fd count l ret).written (l false) := by
  unfold DiskEvent.ofWrite
  split
  · exact List.nil_sublist _
  · exact List.drop_sublist _ _

/-- **`writev`** is a number of writes, of bytes that have been loaded. -/
theorem disk_writev (fd : Int) (left : Nat) : ∀ (io : Io) (iov : Ptr) (total : Int), io.Orderly →
    post (writev_loop env fd iov left total) (fun _ t l => ∃ es, (∀ e ∈ es, e.WritesTo fd) ∧
      List.Sublist (es.map DiskEvent.written).flatten (l false) ∧ LTS.Steps DiskStep io.disk es t.disk)
      (fun _ _ => True) io := by
  -- by induction on the entries that are left; the tables stay orderly in between
  induction left with
  | zero =>
    intro io iov total h
    exact ⟨[], by simp, by simp, .nil _⟩
  | succ left ih =>
    intro io iov total h
    simp only [writev_loop, post_bind, post_loadBytes]
    intro base _ len _
    split
    · -- an empty entry: only the two words have been loaded
      apply (ih io (iov.add 16) total h).mono _ fun _ _ h => h
      intro r t l hpost
      obtain ⟨es, hes, hbytes, hsteps⟩ := hpost
      refine ⟨es, hes, hbytes.trans ?_, hsteps⟩
      simp
    · rw [post_bind]
      apply ((disk_write h fd ⟨leNat base, false⟩ (leNat len)).and
        (orderly_write fd ⟨leNat base, false⟩ (leNat len) io h)).mono _ fun _ _ _ => trivial
      intro n u l hpost
      obtain ⟨hstep, hu⟩ := hpost
      -- the events of this entry alone
      have hwrites : (DiskEvent.ofWrite fd (leNat len) l n).WritesTo fd := ⟨_, _, _, rfl⟩
      have hlast : ∃ es, (∀ e ∈ es, DiskEvent.WritesTo fd e) ∧
          List.Sublist (es.map DiskEvent.written).flatten
            (base ++ (len ++ l false)) ∧ LTS.Steps DiskStep io.disk es u.disk := by
        refine ⟨[.ofWrite fd (leNat len) l n], by simpa using hwrites, ?_, .single hstep⟩
        have hsub := written_sublist fd (leNat len) l n
        simpa using (hsub.trans (List.sublist_append_right len _)).trans (List.sublist_append_right base _)
      -- an error and a short write end the loop
      split
      · simpa using hlast
      · split
        · simpa using hlast
        · apply (ih u (iov.add 16) (isize (total + n)) hu).mono _ fun _ _ h => h
          intro r t l' hrest
          obtain ⟨es, hes, hbytes, hsteps⟩ := hrest
          refine ⟨.ofWrite fd (leNat len) l n :: es, ?_, ?_, .cons hstep hsteps⟩
          · intro e he
            rcases List.mem_cons.mp he with rfl | he
            · exact hwrites
            · exact hes e he
          · have hsub := (written_sublist fd (leNat len) l n).append hbytes
            simpa using (hsub.trans (List.sublist_append_right len _)).trans (List.sublist_append_right base _)

/-- **`sendfile`** is a read, and a write if something was read. -/
theorem disk_sendfile (h : io.Orderly) (out_fd in_fd : Int) (count : Nat) :
    post (sys_sendfile env out_fd in_fd count) (fun r t l => ∃ bytes n, List.Sublist bytes (l true) ∧
      (n ≤ 0 ∧ r = n ∧ DiskStep io.disk (.read (ofIsize in_fd) (min count 4096) bytes n) t.disk ∨
        0 < n ∧ ∃ e, DiskEvent.WritesTo out_fd e ∧ List.Sublist e.written (l false) ∧
          LTS.Steps DiskStep io.disk [.read (ofIsize in_fd) (min count 4096) bytes n, e] t.disk))
      (fun _ _ => True) io := by
  unfold sys_sendfile
  rw [post_bind]
  apply (post_vec_zeroed (min count 4096) io).mono _ fun _ _ h => h
  intro buf t l ht
  obtain ⟨rfl, rfl⟩ := ht
  rw [post_bind]
  apply ((disk_read h in_fd ⟨buf, true⟩ (min count 4096)).and
    (orderly_read in_fd ⟨buf, true⟩ (min count 4096) t h)).mono _ fun _ _ _ => trivial
  intro n u l hread
  obtain ⟨hread, hu⟩ := hread
  split
  · next hn => exact ⟨l true, n, by simp, Or.inl ⟨hn, rfl, hread⟩⟩
  · next hn =>
    apply (disk_write hu out_fd ⟨buf, true⟩ (ofIsize n)).mono _ fun _ _ h => h
    intro r v l' hwrite
    have hsub := written_sublist out_fd (ofIsize n) l' r
    refine ⟨l true, n, by simp, Or.inr ⟨by omega, _, ⟨_, _, _, rfl⟩, ?_, .cons hread (.single hwrite)⟩⟩
    simpa using hsub.trans (List.sublist_append_right (l false) _)

/-- **Calls.**  The events of a call lead from the disk before it to the disk after. -/
theorem disk_call (h : io.Orderly) {x : IoLabel × Log} (hcond : LowCond io x.1) (hst : LoggedStep env io x io') :
    ∃ es, x.1.call.Tells x.2 es ∧ LTS.Steps DiskStep io.disk es io'.disk := by
  obtain ⟨⟨root, mem, heap, num, a, ret⟩, lg⟩ := x
  obtain ⟨c, t, hc, hrun, rfl, hlg⟩ := hst
  dsimp only [IoLabel.start, IoLabel.call] at hc hrun hlg ⊢
  subst hlg
  have hpipe : num = 59 → ∃ fd fd', fd < fd' ∧ fd' < 100 ∧ io.fd_table.get fd = none ∧
      io.fd_table.get fd' = none := hcond.pipe
  -- the calls with one event
  have hone : ∀ e, num ≠ 66 ∧ num ≠ 71 →
      Call.event ⟨num, a, ret⟩ (fun w => moved (machine root) w c ⟨mem, heap, io⟩) = e →
      DiskStep io.disk e t.st.disk →
      ∃ es, Call.Tells ⟨num, a, ret⟩ (fun w => moved (machine root) w c ⟨mem, heap, io⟩) es ∧
        LTS.Steps DiskStep io.disk es t.st.disk := by
    intro e hnum he hstep
    refine ⟨[e], ?_, .single hstep⟩
    rw [← he]
    exact .single hnum
  by_cases hcall : num ∈ descriptorCalls
  · simp only [descriptorCalls, List.mem_cons, List.not_mem_nil, or_false] at hcall
    rcases hcall with rfl | rfl | rfl | rfl | rfl | rfl | rfl | rfl | rfl | rfl | rfl | rfl | rfl | rfl <;>
      cases hc
    · exact hone _ (by decide) rfl ((disk_dup2 a.a0 a.a1).ok hrun)
    · exact hone _ (by decide) rfl ((disk_dup2 a.a0 a.a1).ok hrun)
    · exact hone _ (by decide) rfl ((disk_mkdirat h (user a.a1)).ok hrun)
    · exact hone _ (by decide) rfl ((disk_openat h (user a.a1) (toIsize a.a2)).ok hrun)
    · exact hone _ (by decide) rfl ((disk_close h a.a0).ok hrun)
    · exact hone _ (by decide) rfl ((disk_pipe2 h (user a.a0) (hpipe rfl)).ok hrun)
    · exact hone _ (by decide) rfl ((disk_getdents (toIsize a.a0) (user a.a1) a.a2).ok hrun)
    · exact hone _ (by decide) rfl ((disk_lseek h (toIsize a.a0) (toIsize a.a1) (toIsize a.a2)).ok hrun)
    · exact hone _ (by decide) rfl ((disk_read h (toIsize a.a0) (user a.a1) a.a2).ok hrun)
    · exact hone _ (by decide) rfl ((disk_write h (toIsize a.a0) (user a.a1) a.a2).ok hrun)
    · obtain ⟨es, hes, hbytes, hsteps⟩ := (disk_writev (toIsize a.a0) a.a2 io (user a.a1) 0 h).ok hrun
      exact ⟨es, .writev es rfl hes hbytes, hsteps⟩
    · exact hone _ (by decide) rfl ((disk_pwrite h (toIsize a.a0) (user a.a1) a.a2 a.a3).ok hrun)
    · obtain ⟨bytes, n, hbytes, ⟨hn, rfl, hstep⟩ | ⟨hn, e, he, hwritten, hsteps⟩⟩ :=
        (disk_sendfile h (toIsize a.a0) (toIsize a.a1) a.a3).ok hrun
      · exact ⟨_, .sendfile_empty bytes rfl hn hbytes, .single hstep⟩
      · exact ⟨_, .sendfile bytes n e rfl hn hbytes he hwritten, hsteps⟩
    · exact hone _ (by decide) rfl ((disk_read h (toIsize a.a0) (user a.a1) a.a2).ok hrun)
  · by_cases hpread : num = 67
    · subst hpread
      cases hc
      exact hone _ (by decide) rfl ((disk_pread h (toIsize a.a0) (user a.a1) a.a2 a.a3).ok hrun)
    · -- the other calls are apart from the disk
      have hsame := ((io_call_apart hc hcall) io).ok hrun
      simp only [descriptorCalls, List.mem_cons, List.not_mem_nil, or_false, not_or] at hcall
      apply hone .other ⟨by omega, by omega⟩
      · unfold Call.event
        dsimp only
        split <;> first | rfl | omega
      · rw [disk_congr hsame.1 hsame.2]
        exact .other

end Runs

end Rvos

import Rvos.Io.Effects

/-! # Inodes and paths

    `INODE_MAP` and `FS` are two maps and a counter that every creation
    changes together.  `Fs.Lawful` is the law between them: the numbers given
    out are exactly the keys of the inode map, its paths are exactly those of
    the files, and no path has two inodes.  A creation keeps the law only if
    its path is new; `init` creates 73 different paths, and `sys_mkdirat` looks
    the path up before. -/

namespace Rvos

open Access ByteMem Usize

/-! ## Section 1: The law -/

namespace Fs

structure Lawful (fs : Fs) : Prop where
  pos : 1 ≤ fs.next_inode
  numbered : ∀ i : Nat, i ∈ fs.inode_map ↔ 1 ≤ i ∧ i < fs.next_inode
  paths : ∀ (i : Nat) path, fs.inode_map[i]? = some path → path ∈ fs.files
  inode : ∀ path, path ∈ fs.files → ∃ i : Nat, fs.inode_map[i]? = some path
  inj : ∀ (i j : Nat) path, fs.inode_map[i]? = some path → fs.inode_map[j]? = some path → i = j

variable {fs : Fs} {path : Path} {i : Nat}

theorem Lawful.inode_lt (h : fs.Lawful) (hi : fs.inode_map[i]? = some path) : i < fs.next_inode := by
  have hmem : i ∈ fs.inode_map := Std.TreeMap.mem_iff_isSome_getElem?.mpr (by simp [hi])
  exact ((h.numbered i).mp hmem).2

theorem get_create (fs : Fs) (path : Path) (data : FileContents) (p : Path) :
    (fs.create_file path data).files[p]? = if p = path then some ⟨data⟩ else fs.files[p]? := by
  rw [create_file, Std.TreeMap.getElem?_insert]
  by_cases h : p = path
  · simp [h]
  · rw [if_neg h, if_neg (fun he => h (Std.LawfulEqCmp.eq_of_compare he).symm)]

theorem mem_create {data : FileContents} {p : Path} :
    p ∈ (fs.create_file path data).files ↔ p = path ∨ p ∈ fs.files := by
  rw [Std.TreeMap.mem_iff_isSome_getElem?, Std.TreeMap.mem_iff_isSome_getElem?, get_create]
  by_cases h : p = path <;> simp [h]

theorem inode_create {data : FileContents} {j : Nat} :
    (fs.create_file path data).inode_map[j]? =
      if j = fs.next_inode then some path else fs.inode_map[j]? :=
  Assoc.get_insert _ _ _ _

/-- The statics at their start. -/
theorem new_lawful : Fs.new.Lawful where
  pos := Nat.le_refl 1
  numbered := fun i => by
    have hnone : i ∉ Fs.new.inode_map := Std.TreeMap.not_mem_emptyc
    have hnext : Fs.new.next_inode = 1 := rfl
    rw [hnext]
    exact ⟨fun h => absurd h hnone, fun h => by omega⟩
  paths := fun i path h => by simp [Fs.new] at h
  inode := fun path h => absurd h Std.TreeMap.not_mem_emptyc
  inj := fun i j path h => by simp [Fs.new] at h

/-- A creation of a new path keeps the law. -/
theorem Lawful.create (h : fs.Lawful) (hnew : path ∉ fs.files) (data : FileContents) :
    (fs.create_file path data).Lawful := by
  have hfresh : fs.inode_map[fs.next_inode]? = none :=
    Std.TreeMap.getElem?_eq_none fun hmem => Nat.lt_irrefl _ ((h.numbered _).mp hmem).2
  refine ⟨Nat.le_succ_of_le h.pos, fun i => ?_, fun i p hp => ?_, fun p hp => ?_, fun i j p hi hj => ?_⟩
  · rw [Std.TreeMap.mem_iff_isSome_getElem?, inode_create]
    have hold := h.numbered i
    rw [Std.TreeMap.mem_iff_isSome_getElem?] at hold
    show _ ↔ 1 ≤ i ∧ i < fs.next_inode + 1
    have hpos := h.pos
    by_cases hi : i = fs.next_inode
    · simp only [hi, if_true, Option.isSome_some, true_iff]
      omega
    · rw [if_neg hi, hold]
      omega
  · rw [inode_create] at hp
    rw [mem_create]
    split at hp
    · exact Or.inl (Option.some.inj hp).symm
    · exact Or.inr (h.paths i p hp)
  · rcases mem_create.mp hp with rfl | hp
    · exact ⟨fs.next_inode, by rw [inode_create, if_pos rfl]⟩
    · obtain ⟨i, hi⟩ := h.inode p hp
      have hne : i ≠ fs.next_inode := fun he => by simp [he, hfresh] at hi
      exact ⟨i, by rw [inode_create, if_neg hne, hi]⟩
  · rw [inode_create] at hi hj
    split at hi
    · next hi' =>
      split at hj
      · next hj' => rw [hi', hj']
      · exact absurd (h.paths j p hj) (Option.some.inj hi ▸ hnew)
    · split at hj
      · exact absurd (h.paths i p hi) (Option.some.inj hj ▸ hnew)
      · exact h.inj i j p hi hj

/-- `lookup` finds the inode of a path. -/
theorem Lawful.lookup_iff (h : fs.Lawful) : fs.lookup path = some i ↔ fs.inode_map[i]? = some path := by
  unfold lookup
  rw [Option.map_eq_some_iff]
  constructor
  · rintro ⟨⟨j, p⟩, hfind, rfl⟩
    obtain rfl : p = path := by simpa using List.find?_some hfind
    exact Std.TreeMap.mem_toList_iff_getElem?_eq_some.mp (List.mem_of_find?_eq_some hfind)
  · intro hi
    have hmem := Std.TreeMap.mem_toList_iff_getElem?_eq_some.mpr hi
    cases hfind : fs.inode_map.toList.find? fun p => p.2 == path with
    | none => simpa using List.find?_eq_none.mp hfind _ hmem
    | some q =>
      obtain ⟨j, p⟩ := q
      obtain rfl : p = path := by simpa using List.find?_some hfind
      have hj := Std.TreeMap.mem_toList_iff_getElem?_eq_some.mp (List.mem_of_find?_eq_some hfind)
      exact ⟨(j, p), rfl, h.inj j i p hj hi⟩

theorem Lawful.lookup_none (h : fs.Lawful) : fs.lookup path = none ↔ path ∉ fs.files := by
  constructor
  · intro hnone hmem
    obtain ⟨i, hi⟩ := h.inode path hmem
    rw [h.lookup_iff.mpr hi] at hnone
    cases hnone
  · intro hmem
    cases hlook : fs.lookup path with
    | none => rfl
    | some i => exact absurd (h.paths i path (h.lookup_iff.mp hlook)) hmem

/-- A write leaves the paths as they are. -/
theorem mem_write {file : File} {p : Path} (hold : path ∈ fs.files) :
    p ∈ fs.files.insert path file ↔ p ∈ fs.files := by
  rw [Std.TreeMap.mem_insert]
  constructor
  · rintro (he | hp)
    · rwa [← Std.LawfulEqCmp.eq_of_compare he]
    · exact hp
  · exact Or.inr

theorem Lawful.write (h : fs.Lawful) (hold : path ∈ fs.files) (file : File) :
    ({ fs with files := fs.files.insert path file } : Fs).Lawful where
  pos := h.pos
  numbered := h.numbered
  paths := fun i p hp => (mem_write hold).mpr (h.paths i p hp)
  inode := fun p hp => h.inode p ((mem_write hold).mp hp)
  inj := h.inj

end Fs

/-! ## Section 2: The files at boot -/

namespace Fs

/-- After creations of different new paths the law holds, each file has its
    contents, and the other files are as before. -/
theorem create_all {cs : List Creation} : ∀ {fs : Fs}, fs.Lawful → (cs.map Creation.path).Nodup →
    (∀ c ∈ cs, c.path ∉ fs.files) →
    (cs.foldl create fs).Lawful ∧
      (∀ c ∈ cs, (cs.foldl create fs).files[c.path]? = some ⟨c.contents⟩) ∧
      ∀ p, p ∉ cs.map Creation.path → (cs.foldl create fs).files[p]? = fs.files[p]? := by
  induction cs with
  | nil => exact fun h _ _ => ⟨h, by simp, by simp⟩
  | cons c cs ih =>
    intro fs h hnd hnew
    rw [List.map_cons, List.nodup_cons] at hnd
    have hc : c.path ∉ fs.files := hnew c List.mem_cons_self
    -- the later paths are new after the first creation, too
    have hrest : ∀ d ∈ cs, d.path ∉ (fs.create c).files := by
      intro d hd hmem
      rcases mem_create.mp hmem with he | hold
      · exact hnd.1 (he ▸ List.mem_map_of_mem hd)
      · exact hnew d (List.mem_cons_of_mem _ hd) hold
    obtain ⟨hlaw, hget, hother⟩ := ih (h.create hc c.contents) hnd.2 hrest
    refine ⟨hlaw, fun d hd => ?_, fun p hp => ?_⟩
    · rcases List.mem_cons.mp hd with rfl | hd
      · rw [List.foldl_cons, create, hother _ hnd.1, get_create, if_pos rfl]
      · exact hget d hd
    · rw [List.map_cons, List.mem_cons, not_or] at hp
      rw [List.foldl_cons, create, hother p hp.2, get_create, if_neg hp.1]

/-- The paths of `init`, which do not depend on the binaries. -/
def init_paths : List Path := (init_calls ⟨[], [], [], []⟩).map Creation.path

/-- A kernel built with empty binaries. -/
def noBlobs : Blobs := ⟨[], [], [], []⟩

theorem init_calls_paths (b : Blobs) : (init_calls b).map Creation.path = init_paths := rfl

theorem init_paths_nodup : init_paths.Nodup := by decide +kernel

/-- What `create_all` says of `init`. -/
theorem init_spec (b : Blobs) : (init b).Lawful ∧
    (∀ c ∈ init_calls b, (init b).files[c.path]? = some ⟨c.contents⟩) ∧
    ∀ p, p ∉ init_paths → (init b).files[p]? = none := by
  unfold init
  rw [← init_calls_paths b]
  obtain ⟨hlaw, hget, hother⟩ := create_all new_lawful (init_calls_paths b ▸ init_paths_nodup)
    fun _ _ => Std.TreeMap.not_mem_emptyc
  exact ⟨hlaw, hget, fun p hp => (hother p hp).trans Std.TreeMap.getElem?_emptyc⟩

theorem init_lawful (b : Blobs) : (init b).Lawful := (init_spec b).1

theorem init_get (b : Blobs) {c : Creation} (hc : c ∈ init_calls b) :
    (init b).files[c.path]? = some ⟨c.contents⟩ :=
  (init_spec b).2.1 c hc

theorem mem_init (b : Blobs) {p : Path} : p ∈ (init b).files ↔ p ∈ init_paths := by
  rw [Std.TreeMap.mem_iff_isSome_getElem?]
  constructor
  · intro hmem
    by_contra hp
    rw [(init_spec b).2.2 p hp] at hmem
    cases hmem
  · intro hp
    rw [← init_calls_paths b, List.mem_map] at hp
    obtain ⟨c, hc, rfl⟩ := hp
    rw [init_get b hc]
    rfl

end Fs

/-- The statics when the first process starts. -/
def Io.boot (b : Fs.Blobs) : Io := { Io.new with fs := Fs.init b }

/-! ## Section 3: Runs -/

theorem lawful_change {env : Env} {may : Io.Act → Prop} {io io' : Io} (h : io.fs.Lawful)
    (hc : Io.Change env may io io') :
    io'.fs.Lawful := by
  cases hc with
  | mkdir path _ hnew => exact h.create (h.lookup_none.mp hnew) _
  | write path v v' cap cap' hold hle =>
    exact h.write (Std.TreeMap.mem_iff_isSome_getElem?.mpr (by simp [hold])) _
  | _ => exact h

/-- An inode that has been given out keeps its path. -/
theorem inode_change {env : Env} {may : Io.Act → Prop} {io io' : Io} {i : Nat} {path : Path}
    (h : io.fs.Lawful ∧ io.fs.inode_map[i]? = some path) (hc : Io.Change env may io io') :
    io'.fs.Lawful ∧ io'.fs.inode_map[i]? = some path := by
  refine ⟨lawful_change h.1 hc, ?_⟩
  cases hc with
  | mkdir p _ hnew =>
    have hne : i ≠ io.fs.next_inode := (h.1.inode_lt h.2).ne
    rw [Fs.mkdir, Fs.inode_create, if_neg hne]
    exact h.2
  | _ => exact h.2

/-- `sys_mkdirat` of the string at `p`. -/
theorem run_mkdirat {M : Machine HeapAllocator Halt} {s : St HeapAllocator Io} {p : Ptr} {path : Path}
    (hpath : run M (cstr p) s = .ok path s) :
    run M (sys_mkdirat p) s = .ok 0 { s with st :=
      if (s.st.fs.lookup path).isNone then { s.st with fs := s.st.fs.mkdir path } else s.st } := by
  unfold sys_mkdirat
  rw [run_bind, hpath]
  simp only [run_get_bind]
  split <;> rfl

/-- User memory with a string at address 0. -/
def pathMem (path : Path) : Mem := blit onePage 16384 (path ++ [0])

/-- The call that creates the directory `path`, from such memory. -/
def IoLabel.mkdirat (path : Path) : IoLabel :=
  ⟨1, pathMem path, init_heap, 34, ⟨0, 0, 0, 0, 0, 0⟩, 0⟩

theorem mkdirat_step (env : Env) {io : Io} {path : Path} (hlen : path.length < 2 ^ 64)
    (hstr : str_at (machine 1) (pathMem path) (user 0) path = true) (hnew : io.fs.lookup path = none) :
    IoStep env io (.mkdirat path) { io with fs := io.fs.mkdir path } := by
  have hpath : run (machine 1) (cstr (user 0)) ((IoLabel.mkdirat path).start io) =
      .ok path ((IoLabel.mkdirat path).start io) := run_cstr hlen hstr
  refine ⟨_, _, rfl, run_mkdirat hpath, ?_⟩
  simp [IoLabel.start, hnew]

/-- **Inodes.**  In every state that calls reach from boot, the inode map is a
    bijection between the numbers given out and the paths of the files; so
    `lookup` knows exactly the files, an inode denotes its path for the rest of
    the run, and different paths have different inodes. -/
theorem inode_map_bijection (env : Env) (b : Fs.Blobs) {io : Io} {ls : List IoLabel}
    (hrun : LTS.Steps (IoStep env) (Io.boot b) ls io) :
    ((∀ i : Nat, (∃ path, io.fs.inode_map[i]? = some path) ↔ 1 ≤ i ∧ i ≤ io.fs.next_inode - 1) ∧
      ∀ path, path ∈ io.fs.files ↔ ∃! i : Nat, io.fs.inode_map[i]? = some path) ∧
    (∀ path, (io.fs.lookup path).isSome ↔ path ∈ io.fs.files) ∧
    (∀ path i io' ls', io.fs.lookup path = some i → LTS.Steps (IoStep env) io ls' io' →
      io'.fs.inode_map[i]? = some path ∧ io'.fs.lookup path = some i) ∧
    ∀ path path' i, io.fs.lookup path = some i → io.fs.lookup path' = some i → path = path' := by
  have hlaw : io.fs.Lawful :=
    io_run_invariant (fun _ _ _ => lawful_change) hrun (Fs.init_lawful b)
  refine ⟨⟨fun i => ?_, fun path => ⟨fun hmem => ?_, ?_⟩⟩, fun path => ?_, ?_, ?_⟩
  · have hpos := hlaw.pos
    rw [← Option.isSome_iff_exists, ← Std.TreeMap.mem_iff_isSome_getElem?, hlaw.numbered]
    omega
  · obtain ⟨i, hi⟩ := hlaw.inode path hmem
    exact ⟨i, hi, fun j hj => hlaw.inj j i path hj hi⟩
  · rintro ⟨i, hi, -⟩
    exact hlaw.paths i path hi
  · rw [← not_iff_not, ← hlaw.lookup_none, Option.not_isSome_iff_eq_none]
  · intro path i io' ls' hlook hrun'
    obtain ⟨hlaw', hi⟩ := io_run_invariant (fun _ _ _ => inode_change) hrun' ⟨hlaw, hlaw.lookup_iff.mp hlook⟩
    exact ⟨hi, hlaw'.lookup_iff.mpr hi⟩
  · intro path path' i hp hp'
    exact Option.some.inj ((hlaw.lookup_iff.mp hp).symm.trans (hlaw.lookup_iff.mp hp'))

/-- After `mkdirat("/a")` the new directory has the next inode. -/
theorem inode_map_bijection_mkdirat :
    let fs := (Fs.init Fs.noBlobs).mkdir (utf8 "/a")
    fs.lookup (utf8 "/a") = some (Fs.init Fs.noBlobs).next_inode ∧
      ∀ path, (fs.lookup path).isSome ↔ path ∈ fs.files := by
  intro fs
  have hnew : utf8 "/a" ∉ (Fs.init Fs.noBlobs).files := by
    rw [Fs.mem_init]
    decide +kernel
  have hstep : IoStep .idle (Io.boot Fs.noBlobs) (.mkdirat (utf8 "/a"))
      { Io.boot Fs.noBlobs with fs := fs } :=
    mkdirat_step .idle (by decide +kernel) (by decide +kernel)
      ((Fs.init_lawful Fs.noBlobs).lookup_none.mpr hnew)
  refine ⟨?_, (inode_map_bijection .idle Fs.noBlobs (.single hstep)).2.1⟩
  have hlaw : fs.Lawful := (Fs.init_lawful Fs.noBlobs).create hnew _
  rw [hlaw.lookup_iff]
  show (Fs.create_file _ _ _).inode_map[_]? = _
  rw [Fs.inode_create, if_pos rfl]

end Rvos

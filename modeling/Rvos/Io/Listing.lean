import Rvos.Io.Tree

/-! # Listings of directories

    `read_dir` takes every path that begins with the directory's path and lists
    the next component, with the inode of the first such path.  That inode is
    the inode of the name only if directory and name together are a path.

    * `Rooted` : every path is `/`, has no slash, or hangs by a non-empty name
      below the root or below another path.
    * `Rooted.closed` : then each component of a path below a directory is a
      path of its own.
    * `listing_sound` : so it is in every run in which `sys_mkdirat` is only
      asked for paths that hang below known ones; `listing_missing_parent` is
      what happens otherwise. -/

namespace Rvos

open Access Access.Code ByteMem Usize

namespace Fs

/-! ## Section 1: Paths that hang together -/

/-- A component of a path. -/
def Component (name : Path) : Prop := name ≠ [] ∧ 47 ∉ name

/-- The path has its place among the files. -/
def Hangs (fs : Fs) (path : Path) : Prop :=
  47 ∉ path ∨ path = utf8 "/" ∨
    ∃ dir name, Component name ∧ path = dir ++ 47 :: name ∧ (dir = [] ∨ dir ≠ utf8 "/" ∧ dir ∈ fs.files)

def Rooted (fs : Fs) : Prop := ∀ path ∈ fs.files, fs.Hangs path

theorem Hangs.mono {fs fs' : Fs} {path : Path} (h : fs.Hangs path)
    (hsub : ∀ p ∈ fs.files, p ∈ fs'.files) : fs'.Hangs path := by
  rcases h with hno | hroot | ⟨dir, name, hname, hpath, hdir⟩
  · exact Or.inl hno
  · exact Or.inr (Or.inl hroot)
  · exact Or.inr (Or.inr ⟨dir, name, hname, hpath, hdir.imp id (And.imp_right (hsub dir))⟩)

theorem utf8_slash : utf8 "/" = [47] := by decide +kernel

/-- A path with its place does not end in a slash. -/
theorem Hangs.not_slash {fs : Fs} {path pre : Path} (h : fs.Hangs path) (hroot : path ≠ utf8 "/") :
    path ≠ pre ++ [47] := by
  rintro rfl
  rcases h with hno | hroot' | ⟨dir, name, ⟨hne, hno⟩, hpath, -⟩
  · exact hno (by simp)
  · exact hroot hroot'
  · -- read from the end, the slash would be a byte of the name
    have hrev : 47 :: pre.reverse = name.reverse ++ 47 :: dir.reverse := by
      simpa using congrArg List.reverse hpath
    cases hn : name.reverse with
    | nil => exact hne (by simpa using hn)
    | cons c r =>
      rw [hn, List.cons_append] at hrev
      have hc : 47 ∈ name.reverse := by
        rw [hn, (List.cons.inj hrev).1]
        exact List.mem_cons_self
      exact hno (by simpa using hc)

/-- The first component does not see what follows the first slash. -/
theorem first_component_append (d x : Path) :
    first_component (d ++ 47 :: x) = first_component d := by
  induction d with
  | nil => rfl
  | cons c d ih =>
    by_cases hc : c = 47
    · subst hc
      rfl
    · simp only [first_component, List.cons_append] at ih ⊢
      rw [List.takeWhile_cons_of_pos (by simpa using hc), List.takeWhile_cons_of_pos (by simpa using hc), ih]

theorem first_component_of_not_mem {d : Path} (h : 47 ∉ d) : first_component d = d := by
  induction d with
  | nil => rfl
  | cons c d ih =>
    rw [List.mem_cons, not_or] at h
    simp only [first_component] at ih ⊢
    rw [List.takeWhile_cons_of_pos (by simpa using Ne.symm h.1), ih h.2]

/-- **Closure.**  Below a prefix that ends in a slash, the first component of a
    path leads to a path. -/
theorem Rooted.closed {fs : Fs} (h : fs.Rooted) {pre rem : Path} (hq : pre ++ 47 :: rem ∈ fs.files)
    (hrem : rem ≠ []) :
    Component (first_component rem) ∧ pre ++ 47 :: first_component rem ∈ fs.files := by
  -- by induction on the path: the one it hangs below is shorter
  obtain ⟨n, hn⟩ : ∃ n, n = rem.length := ⟨_, rfl⟩
  induction n using Nat.strong_induction_on generalizing rem with
  | _ n ih =>
    rcases h _ hq with hno | hroot | ⟨dir, name, hname, hpath, hdir⟩
    · exact absurd hno (by simp)
    · rw [utf8_slash] at hroot
      cases pre with
      | nil => exact absurd (List.cons.inj hroot).2 hrem
      | cons c pre => simp at hroot
    · rcases List.append_eq_append_iff.mp hpath with ⟨mid, rfl, hmid⟩ | ⟨mid, rfl, hmid⟩
      · cases mid with
        | nil =>
          -- the path hangs right below the prefix
          obtain rfl : rem = name := by simpa using hmid
          rw [first_component_of_not_mem hname.2]
          exact ⟨hname, hq⟩
        | cons c mid =>
          obtain ⟨rfl, rfl⟩ : 47 = c ∧ rem = mid ++ 47 :: name := by simpa using hmid
          obtain ⟨hdir1, hdir2⟩ := hdir.resolve_left (by simp)
          have hmid0 : mid ≠ [] := by
            rintro rfl
            exact (h _ hdir2).not_slash hdir1 rfl
          rw [first_component_append]
          exact ih mid.length (by simp [hn]) hdir2 hmid0 rfl
      · cases mid with
        | nil =>
          obtain rfl : rem = name := by simpa using hmid.symm
          rw [first_component_of_not_mem hname.2]
          exact ⟨hname, hq⟩
        | cons c mid =>
          -- the name would contain the slash of the prefix
          obtain ⟨rfl, rfl⟩ : 47 = c ∧ name = mid ++ 47 :: rem := by simpa using hmid
          exact absurd hname.2 (by simp)

/-! ## Section 2: Entries -/

/-- A path comes before those below it. -/
theorem compare_below (q x : Path) : compare q (q ++ 47 :: x) = .lt := by
  induction q with
  | nil => rfl
  | cons c q ih =>
    have hc : compare c c = .eq := Std.ReflCmp.compare_self
    show List.compareLex compare (c :: q) (c :: (q ++ 47 :: x)) = .lt
    rw [List.compareLex_cons_cons, hc]
    exact ih

/-- The remainder of a path, cut at its first slash. -/
theorem component_split (rem : Path) :
    rem = first_component rem ∨ ∃ x, rem = first_component rem ++ 47 :: x := by
  have hsplit : first_component rem ++ rem.dropWhile (· != 47) = rem := List.takeWhile_append_dropWhile
  cases hd : rem.dropWhile (· != 47) with
  | nil => exact Or.inl (by simpa [hd] using hsplit.symm)
  | cons c x =>
    have hc : ¬ (c != 47) = true := by
      have := List.head?_dropWhile_not (· != 47) rem
      simpa [hd] using this
    obtain rfl : c = 47 := by simpa using hc
    exact Or.inr ⟨x, by rw [← hd, hsplit]⟩

/-- The prefix of a directory ends in a slash. -/
theorem dir_prefix_slash (dir : Path) : ∃ pre, dir_prefix dir = pre ++ [47] := by
  unfold dir_prefix
  rw [utf8_slash]
  split
  · exact ⟨[], rfl⟩
  · exact ⟨dir, rfl⟩

/-- In a rooted file system every entry but the dots names a file, by its inode. -/
theorem Rooted.entry {fs : Fs} (h : fs.Rooted) (hlaw : fs.Lawful) {inode : Nat} {es : List DirEntry}
    {e : DirEntry} (hes : fs.entries inode = some es) (he : e ∈ es) :
    ∃ dir, fs.inode_map[inode]? = some dir ∧
      (e.name = utf8 "." ∨ e.name = utf8 ".." ∨
        Component e.name ∧ fs.lookup ( dir_prefix dir ++ e.name) = some e.inode) := by
  obtain ⟨dir, f, hdir, hf, hlen, hdots | hscan⟩ := entries_inv hes he
  · exact ⟨dir, hdir, hdots.1.elim Or.inl fun hn => Or.inr (Or.inl hn)⟩
  refine ⟨dir, hdir, Or.inr (Or.inr ?_)⟩
  obtain ⟨-, l1, q, g, l2, hl, hin, rfl, hfirst⟩ := scan_inv hscan
  obtain ⟨pre, hpre⟩ := dir_prefix_slash dir
  rw [hpre] at hin hfirst ⊢
  -- the path and its remainder below the directory
  obtain ⟨rem, rfl⟩ := List.isPrefixOf_iff_prefix.mp hin.1
  have hdrop : ∀ r : Path, (pre ++ [47] ++ r).drop (pre ++ [47]).length = r := fun r => List.drop_left
  have hrem : rem ≠ [] := by simpa only [hdrop] using hin.2
  have hname : nameIn (pre ++ [47]) (pre ++ [47] ++ rem) = first_component rem := by
    rw [nameIn, hdrop]
  have hmem : ∀ p w, (p, w) ∈ l1 ++ (pre ++ [47] ++ rem, g) :: l2 ↔ fs.files[p]? = some w := fun p w => by
    rw [← hl]
    exact Std.TreeMap.mem_toList_iff_getElem?_eq_some
  have hget : fs.files[pre ++ [47] ++ rem]? = some g := (hmem _ _).mp (by simp)
  have hfile : pre ++ [47] ++ rem ∈ fs.files := by
    rw [Std.TreeMap.mem_iff_isSome_getElem?, hget]
    rfl
  obtain ⟨hcomp, hq0⟩ := h.closed (by simpa using hfile) hrem
  have hq0 : pre ++ [47] ++ first_component rem ∈ fs.files := by simpa using hq0
  simp only [entryOf, hname] at hfirst ⊢
  refine ⟨hcomp, ?_⟩
  -- the first path with this name is the name's own
  have hself : pre ++ [47] ++ rem = pre ++ [47] ++ first_component rem := by
    rcases component_split rem with heq | ⟨x, hx⟩
    · rw [← heq]
    · exfalso
      have hlt := compare_below (pre ++ [47] ++ first_component rem) x
      rw [List.append_assoc _ (first_component rem), ← hx] at hlt
      obtain ⟨w, hw⟩ : ∃ w, fs.files[pre ++ [47] ++ first_component rem]? = some w :=
        Option.isSome_iff_exists.mp (Std.TreeMap.mem_iff_isSome_getElem?.mp hq0)
      rcases List.mem_append.mp ((hmem _ w).mpr hw) with hbefore | hafter
      · refine hfirst _ hbefore ⟨by simp, ?_⟩ ?_
        · rw [hdrop]
          exact hcomp.1
        · rw [nameIn, hdrop, first_component_of_not_mem hcomp.2]
      · rcases List.mem_cons.mp hafter with heq | hafter
        · rw [(Prod.mk.inj heq).1] at hlt
          exact Std.OrientedCmp.not_lt_of_lt hlt hlt
        · have hsorted : (fs.files.toList).Pairwise fun a b => compare a.1 b.1 = .lt :=
            Std.TreeMap.ordered_keys_toList
          rw [hl, List.pairwise_append, List.pairwise_cons] at hsorted
          have hgt := hsorted.2.1.1 _ hafter
          exact Std.OrientedCmp.not_lt_of_lt hgt hlt
  rw [← hself]
  obtain ⟨i, hi⟩ := hlaw.inode _ hfile
  rw [hlaw.lookup_iff.mpr hi]
  rfl

/-! ## Section 3: Records -/

/-- The records of entries, the first of which has index `idx`. -/
def encode : List DirEntry → (idx : Nat) → List UInt8
  | [], _ => []
  | e :: es, idx => e.record idx ++ encode es (idx + 1)

/-- `read_dir` writes the records of as many entries as fit. -/
theorem fill_records_eq (es : List DirEntry) : ∀ idx room,
    (fill_records es idx room).1 = encode (es.take (fill_records es idx room).2) idx := by
  induction es with
  | nil => exact fun idx room => rfl
  | cons e es ih =>
    intro idx room
    unfold fill_records
    dsimp only
    split
    · rfl
    · simp only [ih (idx + 1), List.take_succ_cons, encode]

/-- With enough room all of them fit. -/
theorem fill_records_all (es : List DirEntry) : ∀ idx room, (encode es idx).length ≤ room →
    fill_records es idx room = (encode es idx, es.length) := by
  induction es with
  | nil => exact fun idx room _ => rfl
  | cons e es ih =>
    intro idx room hroom
    rw [encode, List.length_append] at hroom
    unfold fill_records
    dsimp only
    rw [if_neg (by omega), ih (idx + 1) _ (by omega)]
    rfl

theorem read_dir_records (fs : Fs) (inode len offset : Nat) :
    ∃ es, (fs.read_dir inode len offset).1 = encode es offset ∧
      ∀ e ∈ es, ∃ all, fs.entries inode = some all ∧ e ∈ all := by
  unfold read_dir
  cases hes : fs.entries inode with
  | none => exact ⟨[], rfl, by simp⟩
  | some all =>
    dsimp only
    split
    · exact ⟨[], rfl, by simp⟩
    · exact ⟨_, fill_records_eq _ _ _, fun e he =>
        ⟨all, rfl, List.mem_of_mem_drop (List.mem_of_mem_take he)⟩⟩

/-- The files at boot are rooted. -/
theorem init_rooted (b : Blobs) : (init b).Rooted := by
  have hpaths : ∀ p ∈ init_paths, p = utf8 "/" ∨ ∃ n, n < p.length ∧ (p[n]? = some 47 ∧
      p.drop (n + 1) ≠ [] ∧ 47 ∉ p.drop (n + 1) ∧
      (p.take n = [] ∨ p.take n ≠ utf8 "/" ∧ p.take n ∈ init_paths)) := by
    decide +kernel
  intro p hp
  rcases hpaths p ((mem_init b).mp hp) with hroot | ⟨n, hn, hslash, hne, hno, hdir⟩
  · exact Or.inr (Or.inl hroot)
  · refine Or.inr (Or.inr ⟨p.take n, p.drop (n + 1), ⟨hne, hno⟩, ?_, ?_⟩)
    · obtain ⟨hlt, hget⟩ := List.getElem?_eq_some_iff.mp hslash
      conv_lhs => rw [← List.take_append_drop n p, List.drop_eq_getElem_cons hlt, hget]
    · exact hdir.imp id (And.imp_right (mem_init b).mpr)

end Fs

/-! ## Section 4: Runs -/

/-- The condition: `sys_mkdirat` is asked for a known path or one that hangs below
    known ones. -/
def MkdirCond (io : Io) (l : IoLabel) : Prop :=
  ∀ path, l.mkdirPath io = some path → path ∈ io.fs.files ∨ io.fs.Hangs path

/-- Without `sys_mkdirat` no path is added. -/
theorem rooted_change {env : Env} {may : Io.Act → Prop} {io io' : Io} (hmay : ¬ may .mkdir)
    (h : io.fs.Rooted) (hc : Io.Change env may io io') : io'.fs.Rooted := by
  cases hc with
  | mkdir path hmk _ => exact absurd hmk hmay
  | write path v v' cap cap' hold hle =>
    have hmem : path ∈ io.fs.files := Std.TreeMap.mem_iff_isSome_getElem?.mpr (by simp [hold])
    intro p hp
    exact (h p ((Fs.mem_write hmem).mp hp)).mono fun q hq => (Fs.mem_write hmem).mpr hq
  | _ => exact h

theorem rooted_step {env : Env} {io io' : Io} {l : IoLabel} (hlaw : io.fs.Lawful) (h : io.fs.Rooted)
    (hst : LTS.guarded MkdirCond (IoStep env) io l io') : io'.fs.Rooted := by
  obtain ⟨hcond, hstep⟩ := hst
  by_cases hnum : l.num = 34
  · obtain ⟨path, hpath, rfl⟩ := mkdirat_inv hnum hstep
    split
    · next hnone =>
      have hnew : path ∉ io.fs.files := hlaw.lookup_none.mp (Option.isNone_iff_eq_none.mp hnone)
      have hhangs : io.fs.Hangs path := (hcond path hpath).resolve_left hnew
      have hsub : ∀ p ∈ io.fs.files, p ∈ (io.fs.mkdir path).files := fun p hp =>
        Fs.mem_create.mpr (Or.inr hp)
      intro p hp
      rcases Fs.mem_create.mp hp with rfl | hp
      · exact hhangs.mono hsub
      · exact (h p hp).mono hsub
    · exact h
  · exact hstep.reach.invariant (fun _ _ => rooted_change hnum) h

/-- **Listings.**  In every run from boot in which `sys_mkdirat` is only asked for
    paths that are known or hang below known ones: every record that `read_dir`
    writes for a directory, the dots apart, has a name that is a component, and
    the directory with this name is a file with the record's inode. -/
theorem listing_sound (env : Env) (b : Fs.Blobs) {io : Io} {ls : List IoLabel}
    (hrun : LTS.Steps (LTS.guarded MkdirCond (IoStep env)) (Io.boot b) ls io)
    {inode : Nat} {dir : Path} (hdir : io.fs.inode_map[inode]? = some dir) (len offset : Nat) :
    ∃ es, (io.fs.read_dir inode len offset).1 = Fs.encode es offset ∧
      ∀ e ∈ es, e.name ≠ utf8 "." → e.name ≠ utf8 ".." →
        e.name ≠ [] ∧ 47 ∉ e.name ∧ io.fs.lookup (Fs.dir_prefix dir ++ e.name) = some e.inode := by
  let inv (u : Io) : Prop := u.fs.Lawful ∧ u.fs.Rooted
  have hstep : ∀ u l v, inv u → LTS.guarded MkdirCond (IoStep env) u l v → inv v := fun u l v hu hst =>
    ⟨hst.2.reach.invariant (fun _ _ => lawful_change) hu.1, rooted_step hu.1 hu.2 hst⟩
  have hinv : inv io := LTS.Steps.invariant hstep hrun ⟨Fs.init_lawful b, Fs.init_rooted b⟩
  obtain ⟨es, hbytes, hall⟩ := io.fs.read_dir_records inode len offset
  refine ⟨es, hbytes, fun e he hdot hdotdot => ?_⟩
  obtain ⟨all, hentries, hmem⟩ := hall e he
  obtain ⟨dir', hdir', hentry⟩ := hinv.2.entry hinv.1 hentries hmem
  obtain rfl : dir' = dir := Option.some.inj (hdir'.symm.trans hdir)
  obtain ⟨hcomp, hlook⟩ := (hentry.resolve_left hdot).resolve_left hdotdot
  exact ⟨hcomp.1, hcomp.2, hlook⟩

/-- The files after `mkdirat(path)` at boot, for a new path. -/
theorem mkdirat_at_boot {path : Path} (hnew : path ∉ Fs.init_paths) (hlen : path.length < 2 ^ 64)
    (hstr : str_at (machine 1) (pathMem path) (user 0) path = true) :
    IoStep .idle (Io.boot Fs.noBlobs) (.mkdirat path)
        { Io.boot Fs.noBlobs with fs := (Fs.init Fs.noBlobs).mkdir path } ∧
      ((Fs.init Fs.noBlobs).mkdir path).Lawful ∧
      ∀ p, p ∈ ((Fs.init Fs.noBlobs).mkdir path).files ↔ p = path ∨ p ∈ Fs.init_paths := by
  have hfresh : path ∉ (Fs.init Fs.noBlobs).files := (Fs.mem_init _).not.mpr hnew
  refine ⟨mkdirat_step .idle hlen hstr ((Fs.init_lawful _).lookup_none.mpr hfresh),
    (Fs.init_lawful _).create hfresh _, fun p => ?_⟩
  rw [Fs.mkdir, Fs.mem_create, Fs.mem_init]

theorem mkdirPath_mkdirat (io : Io) {path : Path} (hlen : path.length < 2 ^ 64)
    (hstr : str_at (machine 1) (pathMem path) (user 0) path = true) :
    (IoLabel.mkdirat path).mkdirPath io = some path := by
  have hrun : run (machine 1) (cstr (user 0)) ((IoLabel.mkdirat path).start io) =
      .ok path ((IoLabel.mkdirat path).start io) := run_cstr hlen hstr
  show Prog.value (run (machine 1) (cstr (user 0)) _) = _
  rw [hrun]
  rfl

/-- The directory `/a` is created below the root, whose listing is then sound. -/
theorem listing_sound_mkdirat :
    ∃ inode, ∃ fs, fs = (Fs.init Fs.noBlobs).mkdir (utf8 "/a") ∧
      fs.inode_map[inode]? = some (utf8 "/") ∧ ∃ es, (fs.read_dir inode 4096 0).1 = Fs.encode es 0 ∧
      ∀ e ∈ es, e.name ≠ utf8 "." → e.name ≠ utf8 ".." →
        e.name ≠ [] ∧ 47 ∉ e.name ∧ fs.lookup (Fs.dir_prefix (utf8 "/") ++ e.name) = some e.inode := by
  have hnew : utf8 "/a" ∉ Fs.init_paths := by decide +kernel
  have hlen : (utf8 "/a").length < 2 ^ 64 := by decide +kernel
  have hstr : str_at (machine 1) (pathMem (utf8 "/a")) (user 0) (utf8 "/a") = true := by decide +kernel
  obtain ⟨hstep, hlaw, hmem⟩ := mkdirat_at_boot hnew hlen hstr
  obtain ⟨inode, hroot⟩ := hlaw.inode (utf8 "/") ((hmem _).mpr (Or.inr (by decide +kernel)))
  refine ⟨inode, _, rfl, hroot, listing_sound .idle Fs.noBlobs (.single ⟨?_, hstep⟩) hroot 4096 0⟩
  intro path hpath
  rw [mkdirPath_mkdirat _ hlen hstr] at hpath
  cases hpath
  exact Or.inr (Or.inr (Or.inr ⟨[], utf8 "a", ⟨by decide +kernel, by decide +kernel⟩, by decide +kernel,
    Or.inl rfl⟩))

/-- **Counterexample**: `mkdirat("/a/b")` at boot.  The root then lists the name
    `a`, and `/a` is no file. -/
theorem listing_missing_parent :
    ∃ io inode len es e, IoStep .idle (Io.boot Fs.noBlobs) (.mkdirat (utf8 "/a/b")) io ∧
      io.fs.inode_map[inode]? = some (utf8 "/") ∧
      (io.fs.read_dir inode len 0).1 = Fs.encode es 0 ∧ e ∈ es ∧ e.name = utf8 "a" ∧
      io.fs.lookup (Fs.dir_prefix (utf8 "/") ++ e.name) = none := by
  have hfresh : utf8 "/a/b" ∉ Fs.init_paths := by decide +kernel
  obtain ⟨hstep, hlaw, hmem⟩ := mkdirat_at_boot hfresh (by decide +kernel) (by decide +kernel)
  obtain ⟨inode, hroot⟩ := hlaw.inode (utf8 "/") ((hmem _).mpr (Or.inr (by decide +kernel)))
  have hdir : ((Fs.init Fs.noBlobs).mkdir (utf8 "/a/b")).files[utf8 "/"]? = some ⟨.Static []⟩ := by
    rw [Fs.mkdir, Fs.get_create, if_neg (by decide +kernel)]
    exact Fs.init_get Fs.noBlobs (c := .mkdir (utf8 "/")) (by simp [Fs.init_calls])
  have hnew : ((Fs.init Fs.noBlobs).mkdir (utf8 "/a/b")).files[utf8 "/a/b"]? = some ⟨.Static []⟩ := by
    rw [Fs.mkdir, Fs.get_create, if_pos rfl]
  generalize (Fs.init Fs.noBlobs).mkdir (utf8 "/a/b") = fs at hstep hlaw hmem hroot hdir hnew
  -- the new path is listed in the root by its first component
  obtain ⟨e, he, hname⟩ : ∃ e ∈ fs.scan (Fs.dir_prefix (utf8 "/")) fs.files.toList [utf8 ".", utf8 ".."],
      e.name = Fs.nameIn (Fs.dir_prefix (utf8 "/")) (utf8 "/a/b") :=
    Fs.scan_complete (Std.TreeMap.mem_toList_iff_getElem?_eq_some.mpr hnew) (by decide +kernel)
      (by decide +kernel)
  have hname : e.name = utf8 "a" := hname.trans (by decide +kernel)
  obtain ⟨all, hall, hmem_all⟩ : ∃ all, fs.entries inode = some all ∧ e ∈ all := by
    unfold Fs.entries
    simp only [hroot, hdir]
    exact ⟨_, rfl, List.mem_append_right _ he⟩
  refine ⟨_, inode, (Fs.encode all 0).length, all, e, hstep, hroot, ?_, hmem_all, hname, ?_⟩
  · show (fs.read_dir inode (Fs.encode all 0).length 0).1 = _
    have hpos : ¬ 0 ≥ all.length := by
      have := List.length_pos_of_mem hmem_all
      omega
    simp only [Fs.read_dir, hall, hpos, if_false, List.drop_zero]
    rw [Fs.fill_records_all all 0 _ (Nat.le_refl _)]
  · rw [hname]
    refine hlaw.lookup_none.mpr ((hmem _).not.mpr ?_)
    decide +kernel

end Rvos

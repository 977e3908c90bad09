import Rvos.Kernel.Progress
import Rvos.Lib.Post

/-! # Running out of page frames

    `clone`, `execve`, `brk` and `mmap` take page frames while they run, and
    the frames can end at any of these requests.  A request for a page of a
    process returns an error; a request for a node of a page table stops the
    kernel (`PageTable::map` panics); `brk` and `mmap` skip the page.

    * `Kernel.leaving k n` : the kernel with `n` frames left.
    * `Alike`   : two runs of a call differ at most in the frames left over.
    * `Refused` : the call returned its error and changed nothing.
    * `FrameCall.Safe` : however many frames are left, the call does not panic
      for want of one, and either more frames would not have changed it or it
      is refused.
    * `exhaustion_safe_iff` : a call is safe just if it asks for no frame. -/

namespace Rvos

open Access Access.Code ByteMem Usize

/-! ## Section 1: The frame cursor -/

/-- From an allocator in order the end stays, and the cursor climbs up to it. -/
def Climbs (s t : Mm) : Prop :=
  s.pages.end_ < 2 ^ 63 → s.pages.current ≤ s.pages.end_ →
    t.pages.end_ = s.pages.end_ ∧ s.pages.current ≤ t.pages.current ∧
      t.pages.current ≤ s.pages.end_

theorem Climbs.of_pages {s t : Mm} (h : t.pages = s.pages) : Climbs s t := by
  intro _ hle
  rw [h]
  exact ⟨rfl, le_refl _, hle⟩

instance climbs_preorder : IsPreorder Mm Climbs where
  refl := fun _ => .of_pages rfl
  trans := by
    intro s t u hst htu hend hle
    obtain ⟨hend1, hup1, htop1⟩ := hst hend hle
    obtain ⟨hend2, hup2, htop2⟩ := htu (by omega) (by omega)
    exact ⟨by omega, by omega, by omega⟩

theorem climbs_alloc_page : Prog.Keeps Climbs alloc_page := by
  intro s hend hle
  rcases alloc_page_outcome (s := s) (by omega) with ⟨hroom, halloc⟩ | ⟨-, halloc⟩
  · rw [halloc]
    exact ⟨rfl, Nat.le_add_right _ _, hroom⟩
  · rw [halloc]
    exact ⟨rfl, le_refl _, hle⟩

theorem climbs_child_create (addr : Nat) : Prog.Keeps Climbs (child_create addr) := by
  unfold child_create
  refine Prog.Keeps.get.bind fun s => ?_
  split
  · exact .pure _
  · refine climbs_alloc_page.bind fun o => ?_
    split
    · exact .pure _
    · exact (Prog.Keeps.modify fun _ => .of_pages rfl).bind fun _ =>
        (Prog.Keeps.modify fun _ => .of_pages rfl).bind fun _ => .pure _

theorem climbs_find_pte_create_from (p : List (Fin 512)) :
    ∀ ppn, Prog.Keeps Climbs (find_pte_create_from ppn p) := by
  induction p with
  | nil => exact fun _ => .pure _
  | cons i rest ih =>
    intro ppn
    cases rest with
    | nil => exact .pure _
    | cons j rest =>
      unfold find_pte_create_from
      refine (climbs_child_create _).bind fun o => ?_
      split
      · exact .pure _
      · exact Prog.Keeps.get.bind fun s => ih _

theorem climbs_map (pt : PageTable) (va pa : Nat) (flags : PTEFlags) :
    Prog.Keeps Climbs (pt.map va pa flags) := by
  unfold PageTable.map
  refine (climbs_find_pte_create_from _ _).bind fun o => ?_
  split
  · exact .throw _
  · refine Prog.Keeps.get.bind fun s => ?_
    split
    · exact (Prog.Keeps.throw _).bind fun _ => .modify fun _ => .of_pages rfl
    · exact .modify fun _ => .of_pages rfl

theorem climbs_map_if_absent (pt : PageTable) (va : Nat) (flags : PTEFlags) :
    Prog.Keeps Climbs (map_if_absent pt va flags) := by
  unfold map_if_absent
  refine Prog.Keeps.get.bind fun s => ?_
  split
  · refine climbs_alloc_page.bind fun o => ?_
    split
    · exact climbs_map _ _ _ _
    · exact .pure _
  · exact .pure _

/-! ## Section 2: Pages with and without a frame -/

section Pages

variable {s : Mm} {pt : PageTable} {va : Nat} {flags : PTEFlags}

theorem map_if_absent_mapped (h : pt.translate s.mem va ≠ none) :
    map_if_absent pt va flags s = .ok ⟨⟩ s := by
  have hsome : (pt.translate s.mem va).isNone = false := by
    simpa [Option.isNone_eq_false_iff, Option.isSome_iff_ne_none] using h
  unfold map_if_absent
  rw [Prog.bind_run, Prog.get_run]
  simp [hsome]

/-- Without a frame the page is skipped. -/
theorem map_if_absent_full (hfull : alloc_page s = .ok none s) :
    map_if_absent pt va flags s = .ok ⟨⟩ s := by
  unfold map_if_absent
  rw [Prog.bind_run, Prog.get_run]
  dsimp only
  split
  · rw [Prog.bind_of_ok hfull]
    rfl
  · rfl

variable (flags) in
/-- A missing page takes at least the frame at the cursor. -/
theorem map_if_absent_takes (h : pt.translate s.mem va = none) (hend : s.pages.end_ < 2 ^ 63)
    (hroom : s.pages.current + 4096 ≤ s.pages.end_) :
    s.pages.current + 4096 ≤ (Prog.final (map_if_absent pt va flags s)).pages.current := by
  have halloc : alloc_page s = .ok (some s.pages.current) s.take := by
    rcases alloc_page_outcome (s := s) (by omega) with ⟨-, halloc⟩ | ⟨hfull, -⟩
    · exact halloc
    · omega
  have hrun : map_if_absent pt va flags s = pt.map va s.pages.current flags s.take := by
    unfold map_if_absent
    rw [Prog.bind_run, Prog.get_run]
    simp only [h, Option.isNone_none, if_true]
    rw [Prog.bind_of_ok halloc]
  rw [hrun]
  exact (climbs_map pt va _ flags s.take hend hroom).2.1

variable (flags) in
/-- **The loop over pages of which one is missing** takes at least one frame. -/
theorem map_loop_takes {l : List Nat} {g : Nat → Nat}
    (hmiss : ∃ page ∈ l, pt.translate s.mem (g page) = none) (hend : s.pages.end_ < 2 ^ 63)
    (hroom : s.pages.current + 4096 ≤ s.pages.end_) :
    s.pages.current + 4096 ≤
      (Prog.final ((l.forM fun page => map_if_absent pt (g page) flags) s)).pages.current := by
  induction l with
  | nil => simp at hmiss
  | cons page l ih =>
    have hrest : Prog.Keeps Climbs (l.forM fun page => map_if_absent pt (g page) flags) :=
      .forM (fun page => climbs_map_if_absent pt (g page) flags) l
    rw [List.forM]
    cases hpage : pt.translate s.mem (g page) with
    | none =>
      -- this page takes it, and what follows does not give it back
      have htakes := map_if_absent_takes flags hpage hend hroom
      have hclimbs := climbs_map_if_absent pt (g page) flags s hend (by omega)
      rw [Prog.bind_run]
      cases hrun : map_if_absent pt (g page) flags s with
      | error e t => rwa [hrun] at htakes
      | ok u t =>
        rw [hrun, Prog.final_ok] at htakes hclimbs
        obtain ⟨hend', -, htop⟩ := hclimbs
        have hup := (hrest t (by omega) (by omega)).2.1
        exact htakes.trans hup
    | some pa =>
      rw [Prog.bind_of_ok (map_if_absent_mapped (by simp [hpage]))]
      apply ih
      obtain ⟨x, hx, hnone⟩ := hmiss
      rcases List.mem_cons.mp hx with rfl | hx
      · rw [hpage] at hnone
        cases hnone
      · exact ⟨x, hx, hnone⟩

/-- The loop does nothing when every page is there. -/
theorem map_loop_mapped {l : List Nat} {g : Nat → Nat}
    (h : ∀ page ∈ l, pt.translate s.mem (g page) ≠ none) :
    (l.forM fun page => map_if_absent pt (g page) flags) s = .ok ⟨⟩ s := by
  induction l with
  | nil => rfl
  | cons page l ih =>
    rw [List.forM, Prog.bind_of_ok (map_if_absent_mapped (h page (by simp)))]
    exact ih fun x hx => h x (by simp [hx])

/-- The loop does nothing when no frame is left. -/
theorem map_loop_full {l : List Nat} {g : Nat → Nat} (hfull : alloc_page s = .ok none s) :
    (l.forM fun page => map_if_absent pt (g page) flags) s = .ok ⟨⟩ s := by
  induction l with
  | nil => rfl
  | cons page l ih => rw [List.forM, Prog.bind_of_ok (map_if_absent_full hfull), ih]

end Pages

/-- What `PageTable::map` panics with when a node is missing and no frame is left. -/
def outOfFrames : Halt := .panic "out of memory mapping page"

theorem child_create_full {s : Mm} {a : Nat} (hinvalid : (pte s.mem a).is_valid = false)
    (hfull : alloc_page s = .ok none s) : child_create a s = .ok none s := by
  unfold child_create
  rw [Prog.bind_run, Prog.get_run]
  simp only [hinvalid, Bool.false_eq_true, if_false]
  rw [Prog.bind_of_ok hfull]
  rfl

theorem map_out_of_frames {s : Mm} {pt : PageTable} {va pa : Nat} {flags : PTEFlags}
    (hinvalid : ∀ i, (pte s.mem (slot pt.root_ppn i)).is_valid = false)
    (hfull : alloc_page s = .ok none s) :
    pt.map va pa flags s = .error outOfFrames s := by
  have hfind : pt.find_pte_create (va >>> PAGE_SIZE_BITS) s = .ok none s := by
    unfold PageTable.find_pte_create indices find_pte_create_from
    rw [Prog.bind_of_ok (child_create_full (hinvalid _) hfull)]
    rfl
  unfold PageTable.map
  dsimp only
  rw [Prog.bind_of_ok hfind]
  rfl

theorem pages_eq_cons {lo hi : Nat} (h : lo < hi) : ∃ rest, pages lo hi = lo :: rest := by
  have hn : ∃ n, (hi - lo + (PAGE_SIZE - 1)) / PAGE_SIZE = n + 1 := by
    unfold PAGE_SIZE
    exact ⟨(hi - lo + 4095) / 4096 - 1, by omega⟩
  obtain ⟨n, hn⟩ := hn
  unfold pages
  rw [hn, List.range_succ_eq_map]
  exact ⟨_, rfl⟩

/-- **With one frame left** it becomes the root of the new table, and the first
    identity mapping finds none for its node. -/
theorem new_table_out_of_frames {s : Mm} (hok : s.Ok) (e : Nat)
    (he : e = s.pages.current + 4096) :
    ∃ pt t, PageTable.new { s with pages := { s.pages with end_ := e } } = .ok (some pt) t ∧
      pt.identity_map t = .error outOfFrames t := by
  have hle := hok.le_end
  have hend := hok.end_le
  have hnext := hok.next_eq
  generalize hs' : ({ s with pages := { s.pages with end_ := e } } : Mm) = s'
  have hcur : s'.pages.current = s.pages.current := by rw [← hs']
  have hend' : s'.pages.end_ = s.pages.current + 4096 := by rw [← hs', ← he]
  have halloc : alloc_page s' = .ok (some s'.pages.current) s'.take := by
    rcases alloc_page_outcome (s := s') (by omega) with ⟨-, halloc⟩ | ⟨hfull, -⟩
    · exact halloc
    · omega
  have hnew : PageTable.new s' = .ok (some ⟨s'.next⟩) s'.take := by
    unfold PageTable.new
    rw [Prog.bind_of_ok halloc]
    simp only [Prog.bind_run, Prog.modify_run, Prog.pure_run, frame_at_cursor, Mm.take, PAGE_SIZE,
      fill_fill]
  refine ⟨⟨s'.next⟩, s'.take, hnew, ?_⟩
  -- the root is zero-filled, so none of its entries is valid
  have hinvalid : ∀ i, (pte s'.take.mem (slot s'.next i)).is_valid = false := by
    intro i
    have hchild : child s.take.mem s.next i = none := child_take hok i
    have hsmall : s.next < 2 ^ 51 := by omega
    have hsame : s'.take.mem = s.take.mem ∧ s'.next = s.next := by
      rw [← hs']
      exact ⟨rfl, rfl⟩
    rw [hsame.1, hsame.2, entry_eq_pte hsmall]
    unfold child at hchild
    simpa using hchild
  have hfull : alloc_page s'.take = .ok none s'.take := by
    have htake : s'.take.pages.current = s.pages.current + 4096 := by
      rw [← hcur]
      rfl
    have htake' : s'.take.pages.end_ = s.pages.current + 4096 := hend'
    rcases alloc_page_outcome (s := s'.take) (by omega) with ⟨hroom, -⟩ | ⟨-, halloc⟩
    · omega
    · exact halloc
  obtain ⟨rest, hpages⟩ := pages_eq_cons (by decide : 0x8000_0000 < 0x8800_0000)
  unfold PageTable.identity_map
  rw [hpages, List.forM]
  exact Prog.bind_of_error (Prog.bind_of_error (map_out_of_frames hinvalid hfull))

/-! ## Section 3: The calls -/

/-- The calls that take frames, with their arguments. -/
inductive FrameCall where
  | clone (stack : Nat)
  | execve (path argv envp : Nat)
  | brk (addr : Nat)
  | mmap (addr len : Nat) (prot flags fd : Int) (offset : Nat)

def FrameCall.code (env : Env) : FrameCall → KM Int
  | .clone stack => sys_clone stack
  | .execve path argv envp => sys_execve env path argv envp
  | .brk addr => sys_brk addr
  | .mmap addr len prot flags fd offset => sys_mmap addr len prot flags fd offset

/-- The kernel with `n` frames left. -/
def Kernel.leaving (k : Kernel) (n : Nat) : Kernel :=
  { k with mm := { k.mm with pages := { k.mm.pages with end_ := k.mm.pages.current + 4096 * n } } }

/-- The call with `n` frames left. -/
def FrameCall.run (env : Env) (k : Kernel) (call : FrameCall) (n : Nat) :
    EStateM.Result Halt Kernel Int :=
  call.code env (k.leaving n)

/-- Two outcomes that differ at most in the frames left over. -/
structure Alike (x y : EStateM.Result Halt Kernel Int) : Prop where
  value : Prog.value x = Prog.value y
  failure : Prog.failure x = Prog.failure y
  final : (Prog.final x).leaving 0 = (Prog.final y).leaving 0

/-- The break, which `sys_brk` sets when it is first called. -/
def Process.break_ (p : Process) : Nat := if p.brk = 0 then 0x10000 else p.brk

/-- What a call that runs out of frames is to leave as it was: the processes with
    their breaks, the next identifier, the registers, the table in use, and
    every byte of every frame handed out before. -/
structure Spared (k k' : Kernel) : Prop where
  procs : ∀ pid : Nat, k'.procs[pid]?.map (fun p => { p with brk := p.break_ }) =
    k.procs[pid]?.map (fun p => { p with brk := p.break_ })
  next_pid : k'.next_pid = k.next_pid
  registers : k'.current_trap_frame = k.current_trap_frame
  satp : k'.satp = k.satp
  memory : ∀ a < k.mm.pages.current, k'.mm.mem a = k.mm.mem a

theorem Spared.rfl (k : Kernel) : Spared k k :=
  ⟨fun _ => Eq.refl _, Eq.refl _, Eq.refl _, Eq.refl _, fun _ _ => Eq.refl _⟩

/-- The values that report failure: the old break, or a negative number (for `mmap`
    one that is not the address of the mapping). -/
def FrameCall.Reports (k : Kernel) : FrameCall → Int → Prop
  | .brk _, r => ∀ proc, k.current = some proc → r = toIsize proc.break_
  | .mmap addr _ _ flags _ _, r => r < 0 ∧ r ≠ toIsize (k.mmap_at addr flags)
  | .clone _, r => r < 0
  | .execve _ _ _, r => r < 0

/-- The call returned its error and changed nothing. -/
def Refused (k : Kernel) (call : FrameCall) (x : EStateM.Result Halt Kernel Int) : Prop :=
  ∃ r k', x = .ok r k' ∧ call.Reports k r ∧ Spared k k'

/-- However many frames are left, the call does not panic for want of one; and it
    runs as it would with more of them, or it is refused. -/
def FrameCall.Safe (env : Env) (k : Kernel) (call : FrameCall) : Prop :=
  ∀ n, Prog.failure (call.run env k n) ≠ some outOfFrames ∧
    ((∀ n', n ≤ n' → Alike (call.run env k n) (call.run env k n')) ∨
      Refused (k.leaving n) call (call.run env k n))

/-- The call asks for a frame: a new table for a copy or a program that is found,
    or a page that is not mapped. -/
def FrameCall.Asks (k : Kernel) : FrameCall → Prop
  | .clone _ => k.current ≠ none
  | .execve path argv envp => ∃ args data, (execve_args k path argv envp).run' [] = some args ∧
      k.io.fs.get_file_data args.1 = some data
  | .brk addr => ∃ proc, k.current = some proc ∧ proc.break_ < addr ∧
      ∃ page ∈ pages (pageUp proc.break_) (pageUp addr), proc.page_table.translate k.mm.mem page = none
  | .mmap addr len _ flags _ _ => ∃ proc, k.current = some proc ∧
      ∃ page ∈ pages 0 (pageUp len),
        proc.page_table.translate k.mm.mem (wadd (k.mmap_at addr flags) page) = none

section Leaving

variable {k : Kernel} {n : Nat}

theorem leaving_full (hok : k.mm.Ok) : alloc_page (k.leaving 0).mm = .ok none (k.leaving 0).mm := by
  have hle := hok.le_end
  have hend := hok.end_le
  rcases alloc_page_outcome (s := (k.leaving 0).mm)
    (by show k.mm.pages.current < 2 ^ 63; omega) with ⟨hroom, -⟩ | ⟨-, halloc⟩
  · have hroom' : k.mm.pages.current + 4096 ≤ k.mm.pages.current + 4096 * 0 := hroom
    omega
  · exact halloc

theorem leaving_new_full (hok : k.mm.Ok) :
    PageTable.new (k.leaving 0).mm = .ok none (k.leaving 0).mm := by
  unfold PageTable.new
  rw [Prog.bind_of_ok (leaving_full hok)]
  rfl

theorem read_user_str_leaving (addr : Nat) :
    read_user_str (k.leaving n) addr = read_user_str k addr := by
  have hgo : ∀ fuel addr, read_user_str_go (k.leaving n) fuel addr = read_user_str_go k fuel addr := by
    intro fuel
    induction fuel with
    | zero => exact fun _ => rfl
    | succ fuel ih =>
      intro addr
      have hbyte : read_user_byte (k.leaving n) addr = read_user_byte k addr := rfl
      simp only [read_user_str_go, hbyte, ih]
  exact hgo 4097 addr

/-- What `execve` reads does not depend on the frames left. -/
theorem execve_args_leaving (path argv envp : Nat) :
    execve_args (k.leaving n) path argv envp = execve_args k path argv envp := by
  have hgo : ∀ fuel arr, read_strings (k.leaving n) fuel arr = read_strings k fuel arr := by
    intro fuel
    induction fuel with
    | zero => exact fun _ => rfl
    | succ fuel ih =>
      intro arr
      have hword : read_user_u64 (k.leaving n) arr = read_user_u64 k arr := rfl
      simp only [read_strings, hword, read_user_str_leaving, ih]
  simp only [execve_args, read_user_str_leaving, hgo]

end Leaving

/-! ## Section 4: Calls that ask for a frame -/

section Asking

variable {env : Env} {k : Kernel} {proc : Process}

/-- One frame is left and the new table has taken it. -/
theorem leaving_one_new (hok : k.mm.Ok) :
    ∃ pt t, PageTable.new (k.leaving 1).mm = .ok (some pt) t ∧
      pt.identity_map t = .error outOfFrames t :=
  new_table_out_of_frames hok (k.mm.pages.current + 4096 * 1) rfl

theorem sys_clone_panics (hok : k.mm.Ok) (hcur : k.current = some proc) (stack : Nat) :
    Prog.failure (sys_clone stack (k.leaving 1)) = some outOfFrames := by
  obtain ⟨pt, t, hnew, hid⟩ := leaving_one_new hok
  have hclone : proc.page_table.clone_user_space (k.leaving 1).mm = .error outOfFrames t := by
    unfold PageTable.clone_user_space
    rw [Prog.bind_of_ok hnew]
    exact Prog.bind_of_error hid
  have hfork : fork_process (k.leaving 1).current_trap_frame (k.leaving 1) =
      .error outOfFrames { k.leaving 1 with mm := t } := by
    have hcur' : (k.leaving 1).current = some proc := hcur
    unfold fork_process
    rw [Prog.bind_run, Prog.get_run]
    simp only [hcur']
    exact Prog.bind_of_error (Prog.zoom_eq_error.mpr ⟨t, hclone, rfl⟩)
  unfold sys_clone
  rw [Prog.bind_run, Prog.get_run]
  dsimp only
  rw [Prog.bind_of_error hfork]
  rfl

theorem sys_execve_panics (hok : k.mm.Ok) {path argv envp : Nat}
    {args : Path × List Path × List Path} {data : List UInt8}
    (hargs : (execve_args k path argv envp).run' [] = some args)
    (hdata : k.io.fs.get_file_data args.1 = some data) :
    Prog.failure (sys_execve env path argv envp (k.leaving 1)) = some outOfFrames := by
  obtain ⟨pt, t, hnew, hid⟩ := leaving_one_new hok
  obtain ⟨name, argv_strs, envp_strs⟩ := args
  have hdata' : (k.leaving 1).io.fs.get_file_data name = some data := hdata
  have hexec : exec_process env (k.leaving 1).current_pid data argv_strs (with_path envp_strs)
      (k.leaving 1) = .error outOfFrames { k.leaving 1 with mm := t } := by
    unfold exec_process
    rw [Prog.bind_of_ok (KM.mm_of_ok hnew)]
    exact Prog.bind_of_error (Prog.zoom_eq_error.mpr ⟨t, hid, rfl⟩)
  unfold sys_execve
  rw [Prog.bind_run, Prog.get_run]
  simp only [execve_args_leaving, hargs, hdata']
  rw [Prog.bind_of_error hexec]
  rfl

/-- `sys_brk` above the break: the loop, then the new break. -/
theorem sys_brk_above (hcur : k.current = some proc) {addr : Nat} (habove : proc.break_ < addr) :
    sys_brk addr k = (KM.mm ((pages (pageUp proc.break_) (pageUp addr)).forM fun page =>
          map_if_absent proc.page_table page (.U ||| .R ||| .W)) >>= fun _ =>
        modify_proc k.current_pid (fun p => { p with brk := addr }) >>= fun _ => pure (toIsize addr))
      { k with procs := k.procs.modify k.current_pid fun p => { p with brk := proc.break_ } } := by
  have hbrk : (if proc.brk = 0 then 0x10000 else proc.brk) = proc.break_ := rfl
  unfold sys_brk
  rw [Prog.bind_run, Prog.get_run]
  simp only [hcur]
  rw [Prog.bind_of_ok (modify_proc_run _ _ _)]
  simp only [hbrk]
  rw [if_neg (by omega), if_pos habove]

theorem fixes_modify_proc_pages (pid : Nat) (f : Process → Process) :
    Prog.Fixes (fun k : Kernel => k.mm.pages) (modify_proc pid f) := fun _ => rfl

theorem sys_brk_pages (hcur : k.current = some proc) {addr : Nat} (habove : proc.break_ < addr) :
    (Prog.final (sys_brk addr k)).mm.pages =
      (Prog.final (((pages (pageUp proc.break_) (pageUp addr)).forM fun page =>
        map_if_absent proc.page_table page (.U ||| .R ||| .W)) k.mm)).pages := by
  rw [sys_brk_above hcur habove, Prog.Fixes.after fun _ =>
    (fixes_modify_proc_pages _ _).bind fun _ => .pure _]
  unfold KM.mm
  rw [Prog.zoom_final]

/-- `sys_mmap` of a process: the loop, then the contents. -/
theorem sys_mmap_loop (hcur : k.current = some proc) (addr len : Nat) (prot flags fd : Int)
    (offset : Nat) :
    ∃ base, sys_mmap addr len prot flags fd offset k =
      (KM.mm ((pages 0 (pageUp len)).forM fun page =>
          map_if_absent proc.page_table (wadd (k.mmap_at addr flags) page) (prot_flags prot)) >>=
        fun _ => KM.io (mmap_fill (k.mmap_at addr flags) len (pageUp len) flags fd offset) >>=
          fun _ => pure (toIsize (k.mmap_at addr flags)))
        { k with mmap_base := base } := by
  unfold sys_mmap
  rw [Prog.bind_run, Prog.get_run]
  simp only [hcur]
  rw [Prog.bind_of_ok (Prog.modify_run _ _)]
  exact ⟨_, rfl⟩

theorem fixes_io_pages (c : IoM α) : Prog.Fixes (fun k : Kernel => k.mm.pages) (KM.io c) := by
  intro k
  unfold KM.io
  cases run (machine k.satp) c k.view <;> rfl

theorem sys_mmap_pages (hcur : k.current = some proc) (addr len : Nat) (prot flags fd : Int)
    (offset : Nat) :
    (Prog.final (sys_mmap addr len prot flags fd offset k)).mm.pages =
      (Prog.final (((pages 0 (pageUp len)).forM fun page =>
        map_if_absent proc.page_table (wadd (k.mmap_at addr flags) page) (prot_flags prot))
          k.mm)).pages := by
  obtain ⟨base, hrun⟩ := sys_mmap_loop hcur addr len prot flags fd offset
  rw [hrun, Prog.Fixes.after fun _ =>
    (fixes_io_pages _).bind fun _ => .pure _]
  unfold KM.mm
  rw [Prog.zoom_final]

/-- With no frame left the loop changes nothing, with one frame it takes it. -/
theorem loop_differs (hok : k.mm.Ok) {l : List Nat} {g : Nat → Nat} {pt : PageTable}
    {flags : PTEFlags} (hmiss : ∃ page ∈ l, pt.translate k.mm.mem (g page) = none) :
    (Prog.final ((l.forM fun page => map_if_absent pt (g page) flags) (k.leaving 0).mm)).pages.current ≠
      (Prog.final ((l.forM fun page => map_if_absent pt (g page) flags)
        (k.leaving 1).mm)).pages.current := by
  have hle := hok.le_end
  have hend := hok.end_le
  have htakes := map_loop_takes (s := (k.leaving 1).mm) flags hmiss
    (by show k.mm.pages.current + 4096 * 1 < 2 ^ 63; omega) (le_refl _)
  have hcur : (k.leaving 1).mm.pages.current = (k.leaving 0).mm.pages.current := rfl
  rw [map_loop_full (leaving_full hok), Prog.final_ok]
  omega

/-- With the break moved nothing is as it was. -/
theorem brk_not_refused (hok : k.mm.Ok) (hcur : k.current = some proc) {addr : Nat}
    (habove : proc.break_ < addr) :
    ¬ Refused (k.leaving 0) (.brk addr) (sys_brk addr (k.leaving 0)) := by
  rintro ⟨r, k', hrun, -, hspared⟩
  have hcur' : (k.leaving 0).current = some proc := hcur
  rw [sys_brk_above hcur' habove] at hrun
  obtain ⟨⟨⟩, k1, hloop, hrun⟩ := Prog.bind_eq_ok.mp hrun
  obtain ⟨mm, hmm, rfl⟩ := Prog.zoom_eq_ok.mp hloop
  cases (map_loop_full (g := fun page => page) (leaving_full hok)).symm.trans hmm
  cases hrun
  -- the table has the new break, the old one is smaller
  have hget := hspared.procs k.current_pid
  have hproc : (k.leaving 0).procs[k.current_pid]? = some proc := hcur
  have hpid : (k.leaving 0).current_pid = k.current_pid := rfl
  simp only [hpid, Assoc.get_modify, if_true, hproc, Option.map_some, Option.some.injEq] at hget
  have hbrk : ({ proc with brk := addr } : Process).break_ = proc.break_ := congrArg Process.brk hget
  have hnew : ({ proc with brk := addr } : Process).break_ = addr := if_neg (by show addr ≠ 0; omega)
  omega

/-- `mmap` that returns returns the address. -/
theorem mmap_not_refused (hcur : k.current = some proc) (addr len : Nat) (prot flags fd : Int)
    (offset : Nat) :
    ¬ Refused k (.mmap addr len prot flags fd offset) (sys_mmap addr len prot flags fd offset k) := by
  rintro ⟨r, k', hrun, ⟨-, hne⟩, -⟩
  obtain ⟨base, heq⟩ := sys_mmap_loop hcur addr len prot flags fd offset
  rw [heq] at hrun
  obtain ⟨⟨⟩, k1, -, hrun⟩ := Prog.bind_eq_ok.mp hrun
  obtain ⟨⟨⟩, k2, -, hrun⟩ := Prog.bind_eq_ok.mp hrun
  cases hrun
  exact hne rfl

/-- A call whose loop meets a missing page runs differently with one frame. -/
theorem not_safe_of_loop {call : FrameCall}
    (hdiff : (Prog.final (call.run env k 0)).mm.pages.current ≠
      (Prog.final (call.run env k 1)).mm.pages.current)
    (hrefused : ¬ Refused (k.leaving 0) call (call.run env k 0)) : ¬ call.Safe env k := by
  intro hsafe
  rcases (hsafe 0).2 with halike | href
  · have hcursor := congrArg (fun k : Kernel => k.mm.pages.current)
      (halike 1 (Nat.zero_le _)).final
    exact hdiff hcursor
  · exact hrefused href

/-- **A call that asks for a frame is not safe.** -/
theorem FrameCall.Asks.not_safe (hok : k.mm.Ok) {call : FrameCall} (h : call.Asks k) :
    ¬ call.Safe env k := by
  cases call with
  | clone stack =>
    obtain ⟨proc, hcur⟩ := Option.ne_none_iff_exists'.mp h
    exact fun hsafe => (hsafe 1).1 (sys_clone_panics hok hcur stack)
  | execve path argv envp =>
    obtain ⟨args, data, hargs, hdata⟩ := h
    exact fun hsafe => (hsafe 1).1 (sys_execve_panics hok hargs hdata)
  | brk addr =>
    obtain ⟨proc, hcur, habove, hmiss⟩ := h
    apply not_safe_of_loop
    · show (Prog.final (sys_brk addr (k.leaving 0))).mm.pages.current ≠
        (Prog.final (sys_brk addr (k.leaving 1))).mm.pages.current
      rw [sys_brk_pages (k := k.leaving 0) hcur habove, sys_brk_pages (k := k.leaving 1) hcur habove]
      exact loop_differs (g := fun page => page) hok hmiss
    · exact brk_not_refused hok hcur habove
  | mmap addr len prot flags fd offset =>
    obtain ⟨proc, hcur, hmiss⟩ := h
    apply not_safe_of_loop
    · show (Prog.final (sys_mmap addr len prot flags fd offset (k.leaving 0))).mm.pages.current ≠
        (Prog.final (sys_mmap addr len prot flags fd offset (k.leaving 1))).mm.pages.current
      rw [sys_mmap_pages (k := k.leaving 0) hcur, sys_mmap_pages (k := k.leaving 1) hcur]
      exact loop_differs hok hmiss
    · exact mmap_not_refused (k := k.leaving 0) hcur addr len prot flags fd offset

end Asking

/-! ## Section 5: Calls that ask for none -/

section Idle

variable {env : Env} {k : Kernel}

/-- The frames left make no difference to the call, and it does not panic for want
    of one. -/
def FrameCall.Idle (env : Env) (k : Kernel) (call : FrameCall) : Prop :=
  ∀ n, Prog.failure (call.run env k n) ≠ some outOfFrames ∧
    ∀ n', Alike (call.run env k n) (call.run env k n')

/-- A call that returns at once. -/
theorem FrameCall.Idle.of_ok {call : FrameCall} {r : Int} (f : Kernel → Kernel)
    (hrun : ∀ n, call.run env k n = .ok r (f (k.leaving n)))
    (hf : ∀ n, (f (k.leaving n)).leaving 0 = (f (k.leaving 0)).leaving 0) : call.Idle env k := by
  intro n
  refine ⟨by rw [hrun]; simp [Prog.failure], fun n' => ?_⟩
  rw [hrun, hrun]
  exact ⟨rfl, rfl, (hf n).trans (hf n').symm⟩

/-- An input or output call depends on the frames left as little as its start. -/
theorem io_alike {c : IoM Unit} {r : Int} {k1 k2 : Kernel} (h : k1.leaving 0 = k2.leaving 0) :
    Alike ((KM.io c >>= fun _ => pure r) k1) ((KM.io c >>= fun _ => pure r) k2) := by
  have hview : (k1.leaving 0).view = (k2.leaving 0).view := congrArg Kernel.view h
  have hsatp : (k1.leaving 0).satp = (k2.leaving 0).satp := congrArg Kernel.satp h
  have hset : ∀ s, (k1.leaving 0).setView s = (k2.leaving 0).setView s := fun s =>
    congrArg (fun k : Kernel => k.setView s) h
  replace hview : k1.view = k2.view := hview
  replace hsatp : k1.satp = k2.satp := hsatp
  simp only [Prog.bind_run, KM.io, hview, hsatp]
  cases run (machine k2.satp) c k2.view with
  | ok u s => exact ⟨rfl, rfl, hset s⟩
  | error e s => exact ⟨rfl, rfl, hset s⟩

/-- The file read of `mmap` can fail, with messages of its own. -/
theorem read_file_errors (inode count offset : Nat) (io : Io) :
    post (read_file inode count offset) (fun _ t _ => t = io) (fun e _ => e ≠ outOfFrames) io := by
  have hread : ∀ e, io.fs.read_inode inode count offset = .error e → e ≠ outOfFrames := by
    intro e he
    unfold Fs.read_inode at he
    split at he
    · dsimp only at he
      split at he
      · cases he
        decide
      · cases he
    · cases he
  have hvec : post (vec_zeroed count) (fun _ t _ => t = io) (fun e _ => e ≠ outOfFrames) io := by
    unfold vec_zeroed
    split
    · exact post_pure.mpr rfl
    · split
      · exact post_throw.mpr (by decide)
      · exact post_allocZeroed.mpr fun _ => rfl
  unfold read_file
  rw [post_bind]
  refine hvec.mono ?_ fun _ _ he => he
  intro _ t _ ht
  rw [ht, post_bind, post_get]
  cases hout : io.fs.read_inode inode count offset with
  | ok bytes => exact post_pure.mpr rfl
  | error e => exact post_throw.mpr (hread e hout)

theorem mmap_fill_errors (ret len aligned_len : Nat) (flags fd : Int) (offset : Nat) (io : Io) :
    post (mmap_fill ret len aligned_len flags fd offset) (fun _ _ _ => True)
      (fun e _ => e ≠ outOfFrames) io := by
  unfold mmap_fill
  rw [post_bind, post_storeBytes]
  split
  · rw [post_bind, post_get]
    split
    · exact post_pure.mpr trivial
    · rw [post_bind]
      exact (read_file_errors _ _ _ _).mono
        (fun bytes t _ _ => post_storeBytes.mpr trivial) fun _ _ he => he
  · exact post_pure.mpr trivial

/-- What `mmap` stores cannot fail for want of a frame. -/
theorem io_failure {c : IoM Unit} {r : Int}
    (hc : ∀ io, post c (fun _ _ _ => True) (fun e _ => e ≠ outOfFrames) io) (k : Kernel) :
    Prog.failure ((KM.io c >>= fun _ => pure r) k) ≠ some outOfFrames := by
  have hpost := hc k.view.st
  simp only [Prog.bind_run, KM.io]
  cases hrun : run (machine k.satp) c k.view with
  | ok u s => simp [Prog.failure]
  | error e s =>
    have hne : e ≠ outOfFrames := by
      rcases hpost.error hrun with hne | ⟨va, rfl⟩ | ⟨n, rfl⟩
      · exact hne
      · exact fun h => Halt.noConfusion h
      · exact (by decide : Halt.panic "memory allocation failed" ≠ outOfFrames)
    simpa [Prog.failure] using hne

theorem sys_clone_idle (hcur : k.current = none) (stack : Nat) : (FrameCall.clone stack).Idle env k := by
  refine .of_ok (r := -1) id (fun n => ?_) fun _ => rfl
  have hcur' : (k.leaving n).current = none := hcur
  show sys_clone stack (k.leaving n) = _
  simp only [sys_clone, fork_process, Prog.bind_run, Prog.get_run, hcur', Prog.pure_run]
  rfl

variable (env) in
/-- An `execve` that finds no file returns at once; at most it prints. -/
theorem sys_execve_unasked {path argv envp : Nat} (h : ¬ (FrameCall.execve path argv envp).Asks k) :
    ∃ (r : Int) (f : Kernel → Kernel), r < 0 ∧ (∀ k, ∃ io, f k = { k with io := io }) ∧
      (∀ n, (f (k.leaving n)).leaving 0 = (f (k.leaving 0)).leaving 0) ∧
      ∀ n, sys_execve env path argv envp (k.leaving n) = .ok r (f (k.leaving n)) := by
  cases hargs : (execve_args k path argv envp).run' [] with
  | none =>
    refine ⟨-1, id, by decide, fun k => ⟨k.io, rfl⟩, fun _ => rfl, fun n => ?_⟩
    unfold sys_execve
    rw [Prog.bind_run, Prog.get_run]
    simp only [execve_args_leaving, hargs]
    rfl
  | some args =>
    obtain ⟨name, argv_strs, envp_strs⟩ := args
    have hdata : k.io.fs.get_file_data name = none :=
      Option.eq_none_iff_forall_ne_some.mpr fun data hdata => h ⟨_, data, hargs, hdata⟩
    refine ⟨-2, fun k => Prog.final (warn (utf8 "sys_execve: file not found: " ++ name) k),
      by decide, fun k => ⟨_, rfl⟩, fun _ => rfl, fun n => ?_⟩
    have hdata' : (k.leaving n).io.fs.get_file_data name = none := hdata
    unfold sys_execve
    rw [Prog.bind_run, Prog.get_run]
    simp only [execve_args_leaving, hargs, hdata']
    rfl

theorem sys_execve_idle {path argv envp : Nat} (h : ¬ (FrameCall.execve path argv envp).Asks k) :
    (FrameCall.execve path argv envp).Idle env k := by
  obtain ⟨r, f, -, -, hf, hrun⟩ := sys_execve_unasked env h
  exact .of_ok f hrun hf

/-- Set the break of the current process, as `sys_brk` does. -/
def Kernel.withBreak (k : Kernel) (brk : Nat) : Kernel :=
  { k with procs := k.procs.modify k.current_pid fun p => { p with brk := brk } }

theorem sys_brk_idle {addr : Nat} (h : ¬ (FrameCall.brk addr).Asks k) :
    (FrameCall.brk addr).Idle env k := by
  cases hcur : k.current with
  | none =>
    refine .of_ok (r := -1) id (fun n => ?_) fun _ => rfl
    have hcur' : (k.leaving n).current = none := hcur
    show sys_brk addr (k.leaving n) = _
    simp only [sys_brk, Prog.bind_run, Prog.get_run, hcur', Prog.pure_run]
    rfl
  | some proc =>
    have hcur' : ∀ n, (k.leaving n).current = some proc := fun _ => hcur
    have hbrk : (if proc.brk = 0 then 0x10000 else proc.brk) = proc.break_ := rfl
    by_cases habove : proc.break_ < addr
    · have hmapped : ∀ page ∈ pages (pageUp proc.break_) (pageUp addr),
          proc.page_table.translate k.mm.mem page ≠ none :=
        fun page hpage hnone => h ⟨proc, hcur, habove, page, hpage, hnone⟩
      refine .of_ok (r := toIsize addr) (fun k => (k.withBreak proc.break_).withBreak addr)
        (fun n => ?_) fun _ => rfl
      have hloop : KM.mm ((pages (pageUp proc.break_) (pageUp addr)).forM fun page =>
          map_if_absent proc.page_table page (.U ||| .R ||| .W))
          ((k.leaving n).withBreak proc.break_) = .ok ⟨⟩ ((k.leaving n).withBreak proc.break_) :=
        KM.mm_of_ok (k := (k.leaving n).withBreak proc.break_)
          (map_loop_mapped (g := fun page => page) hmapped)
      exact (sys_brk_above (hcur' n) habove).trans (Prog.bind_of_ok hloop)
    · -- nothing to map: the break is read, or lowered
      by_cases hzero : addr = 0
      · refine .of_ok (r := toIsize proc.break_) (fun k => k.withBreak proc.break_) (fun n => ?_)
          fun _ => rfl
        show sys_brk addr (k.leaving n) = _
        unfold sys_brk
        rw [Prog.bind_run, Prog.get_run]
        simp only [hcur', hbrk, hzero, if_true]
        rfl
      · refine .of_ok (r := toIsize addr) (fun k => (k.withBreak proc.break_).withBreak addr)
          (fun n => ?_) fun _ => rfl
        show sys_brk addr (k.leaving n) = _
        unfold sys_brk
        rw [Prog.bind_run, Prog.get_run]
        simp only [hcur', hbrk, hzero, habove, if_false]
        rfl

theorem sys_mmap_idle {addr len : Nat} {prot flags fd : Int} {offset : Nat}
    (h : ¬ (FrameCall.mmap addr len prot flags fd offset).Asks k) :
    (FrameCall.mmap addr len prot flags fd offset).Idle env k := by
  let base := if k.mmap_base = 0 then 0x5000_0000 else k.mmap_base
  let next := if ofIsize flags &&& 0x10 != 0 then base else wadd base (pageUp len)
  -- whatever is mapped, only the contents are left to store
  have htail : ∀ n, sys_mmap addr len prot flags fd offset (k.leaving n) =
      (KM.io (mmap_fill (k.mmap_at addr flags) len (pageUp len) flags fd offset) >>=
        fun _ => pure (toIsize (k.mmap_at addr flags))) { k.leaving n with mmap_base := next } := by
    intro n
    cases hcur : k.current with
    | none =>
      have hcur' : (k.leaving n).current = none := hcur
      unfold sys_mmap
      rw [Prog.bind_run, Prog.get_run]
      simp only [hcur']
      exact Prog.bind_of_ok (Prog.modify_run _ _)
    | some proc =>
      have hcur' : (k.leaving n).current = some proc := hcur
      have hmapped : ∀ page ∈ pages 0 (pageUp len),
          proc.page_table.translate k.mm.mem (wadd (k.mmap_at addr flags) page) ≠ none :=
        fun page hpage hnone => h ⟨proc, hcur, page, hpage, hnone⟩
      unfold sys_mmap
      rw [Prog.bind_run, Prog.get_run]
      simp only [hcur']
      rw [Prog.bind_of_ok (Prog.modify_run _ _)]
      exact Prog.bind_of_ok (KM.mm_of_ok (map_loop_mapped hmapped))
  intro n
  refine ⟨?_, fun n' => ?_⟩
  · show Prog.failure (sys_mmap addr len prot flags fd offset (k.leaving n)) ≠ _
    rw [htail]
    exact io_failure (fun io => mmap_fill_errors _ _ _ _ _ _ io) _
  · show Alike (sys_mmap addr len prot flags fd offset (k.leaving n))
      (sys_mmap addr len prot flags fd offset (k.leaving n'))
    rw [htail, htail]
    exact io_alike rfl

variable (env) in
theorem FrameCall.idle {call : FrameCall} (h : ¬ call.Asks k) : call.Idle env k := by
  cases call with
  | clone stack => exact sys_clone_idle (not_not.mp h) stack
  | execve path argv envp => exact sys_execve_idle h
  | brk addr => exact sys_brk_idle h
  | mmap addr len prot flags fd offset => exact sys_mmap_idle h

end Idle

/-! ## Section 6: Exhaustion -/

/-- The call builds a new address space. -/
def FrameCall.Builds : FrameCall → Prop
  | .clone _ => True
  | .execve _ _ _ => True
  | .brk _ => False
  | .mmap _ _ _ _ _ _ => False

/-- With no frame at all, `clone` and `execve` fail before they begin. -/
theorem refused_at_zero (env : Env) {k : Kernel} (hok : k.mm.Ok) {call : FrameCall}
    (hb : call.Builds) : Refused (k.leaving 0) call (call.run env k 0) := by
  have hnew := KM.mm_of_ok (leaving_new_full hok)
  cases call with
  | clone stack =>
    refine ⟨-1, k.leaving 0, ?_, (by decide : (-1 : Int) < 0), .rfl _⟩
    show sys_clone stack (k.leaving 0) = _
    cases hcur : (k.leaving 0).current with
    | none =>
      simp only [sys_clone, fork_process, Prog.bind_run, Prog.get_run, hcur, Prog.pure_run]
    | some proc =>
      have hclone : proc.page_table.clone_user_space (k.leaving 0).mm = .ok none (k.leaving 0).mm := by
        unfold PageTable.clone_user_space
        rw [Prog.bind_of_ok (leaving_new_full hok)]
        rfl
      simp only [sys_clone, fork_process, Prog.bind_run, Prog.get_run, hcur, KM.mm_of_ok hclone,
        Prog.pure_run]
  | execve path argv envp =>
    show Refused _ _ (sys_execve env path argv envp (k.leaving 0))
    by_cases hask : (FrameCall.execve path argv envp).Asks k
    · obtain ⟨⟨name, argv_strs, envp_strs⟩, data, hargs, hdata⟩ := hask
      refine ⟨-1, k.leaving 0, ?_, (by decide : (-1 : Int) < 0), .rfl _⟩
      have hdata' : (k.leaving 0).io.fs.get_file_data name = some data := hdata
      have hexec : exec_process env (k.leaving 0).current_pid data argv_strs (with_path envp_strs)
          (k.leaving 0) = .ok none (k.leaving 0) := by
        unfold exec_process
        rw [Prog.bind_of_ok hnew]
        rfl
      unfold sys_execve
      rw [Prog.bind_run, Prog.get_run]
      simp only [execve_args_leaving, hargs, hdata']
      rw [Prog.bind_of_ok hexec]
      rfl
    · obtain ⟨r, f, hr, hf, -, hrun⟩ := sys_execve_unasked env hask
      obtain ⟨io, hio⟩ := hf (k.leaving 0)
      refine ⟨r, f (k.leaving 0), hrun 0, hr, ?_⟩
      rw [hio]
      exact ⟨fun _ => rfl, rfl, rfl, rfl, fun _ _ => rfl⟩
  | brk addr => exact hb.elim
  | mmap addr len prot flags fd offset => exact hb.elim

end Rvos

import Rvos.Io.Disk
import Rvos.Kernel.Sharing

/-! # The file system over whole runs

    The results about descriptors and files speak of runs of calls, each with any
    memory and heap.  Here they meet the machine: what a trap does to the statics
    behind descriptors is such a call, or nothing but output on the console.

    * `Step.io` : a trap, seen by the statics behind descriptors.
    * `files_refine` : every run of the machine is a run of the abstract disk.
    * `image_kept` : no run changes what `execve` finds at a path of the image. -/

namespace Rvos

open Access Access.Code ByteMem Usize Assoc

/-! ## Section 1: Traps -/

/-- The statics behind descriptors, without the output on the console. -/
def Io.muted (io : Io) : Io := { io with uart_out := [] }

def Kernel.muted (k : Kernel) : Io := k.io.muted

/-- The call of a trap. -/
def Trap.call (l : Trap) : Call := ⟨(l.burst.cpu 0).num, (l.burst.cpu 0).args, l.ret⟩

/-- The same with the address space, memory and heap of a kernel. -/
def Trap.label (l : Trap) (k : Kernel) : IoLabel := ⟨k.satp, k.mm.mem, k.heap, l.call.num, l.call.args, l.ret⟩

/-- The bytes that the call of a trap moves through pointers. -/
def System.log (env : Env) (s : System) (l : Trap) : Log := fun w =>
  match user_stores s.k.satp s.k.mm.mem l.burst.stores, io_call env l.call.num l.call.args with
  | some m, some c => moved (machine s.k.satp) w c ((s.k.withMem m).enter (s.trapCpu l)).view
  | _, _ => []

section Traps

variable {α : Type} {env : Env} {k k' : Kernel} {num : Nat} {a : Args} {r : Int}

theorem muted_of_rest {c : KM α} (h : Prog.Fixes Kernel.rest c) : Prog.Fixes Kernel.muted c := by
  intro k
  have hrest := h k
  simp only [Kernel.rest, Prod.mk.injEq] at hrest
  unfold Kernel.muted
  rw [hrest.2.2.2.2.2.2]

theorem muted_mm (c : MmM α) : Prog.Fixes Kernel.muted (KM.mm c) := muted_of_rest (rest_mm c)

theorem muted_modify_proc (pid : Nat) (f : Process → Process) : Prog.Fixes Kernel.muted (modify_proc pid f) :=
  Prog.Fixes.modify fun _ => rfl

theorem muted_quiet {c : IoM α} {x : α} (hc : Quiet c) (h : KM.io c k = .ok x k') : k'.muted = k.muted := by
  obtain ⟨s, hs, rfl⟩ := KM.io_eq_ok.mp h
  have hst : s.st = k.io := (hc k.io).ok hs
  show s.st.muted = _
  rw [hst]
  rfl

theorem muted_sys_brk (addr : Nat) : Prog.Fixes Kernel.muted (sys_brk addr) := by
  unfold sys_brk
  apply Prog.Fixes.get.bind
  intro k
  cases k.current with
  | none => exact Prog.Fixes.pure _
  | some proc =>
    apply Prog.Fixes.bind (muted_modify_proc _ _)
    intro _
    -- which break the process had makes no difference
    generalize (if proc.brk = 0 then 0x10000 else proc.brk) = brk
    split
    · exact Prog.Fixes.pure _
    · dsimp only
      split
      · exact Prog.Fixes.bind (muted_mm _) fun _ => Prog.Fixes.bind (muted_modify_proc _ _) fun _ => Prog.Fixes.pure _
      · exact Prog.Fixes.bind (muted_modify_proc _ _) fun _ => Prog.Fixes.pure _

theorem muted_exec_process (env : Env) (pid : Nat) (data : List UInt8) (argv envp : List Path) :
    Prog.Fixes Kernel.muted (exec_process env pid data argv envp) := by
  unfold exec_process
  apply (muted_mm _).bind
  intro o
  cases o with
  | none => exact Prog.Fixes.pure _
  | some pt =>
    apply (muted_mm _).bind
    intro _
    apply (muted_of_rest (rest_load_program _ _ _ _ _)).bind
    intro o
    cases o with
    | none => exact Prog.Fixes.pure _
    | some r => exact (muted_modify_proc _ _).bind fun _ => Prog.Fixes.pure _

/-- `execve` may say that there is no such file. -/
theorem muted_sys_execve (env : Env) (path argv envp : Nat) :
    Prog.Fixes Kernel.muted (sys_execve env path argv envp) := by
  unfold sys_execve
  apply Prog.Fixes.get.bind
  intro k
  split
  · exact Prog.Fixes.pure _
  · split
    · apply Prog.Fixes.bind _ fun _ => Prog.Fixes.pure _
      intro k
      rfl
    · apply (muted_exec_process _ _ _ _ _).bind
      intro o
      cases o with
      | none => exact Prog.Fixes.pure _
      | some sp =>
        apply Prog.Fixes.bind _ fun _ => Prog.Fixes.pure _
        apply Prog.Fixes.modify
        intro k
        cases k.current with
        | none => rfl
        | some proc => rfl

theorem muted_sys_mmap {addr len : Nat} {prot flags fd : Int} {offset : Nat}
    (h : sys_mmap addr len prot flags fd offset k = .ok r k') : k'.muted = k.muted := by
  cases hcur : k.current with
  | some proc =>
    obtain ⟨mm, base, -, hfill⟩ := sys_mmap_cases hcur h
    rw [muted_quiet (quiet_mmap_fill _ _ _ _ _ _) hfill]
    rfl
  | none =>
    unfold sys_mmap at h
    rw [Prog.bind_run, Prog.get_run] at h
    simp only [hcur] at h
    obtain ⟨⟨⟩, k1, hbase, h⟩ := Prog.bind_eq_ok.mp h
    cases hbase
    obtain ⟨⟨⟩, k2, hfill, h⟩ := Prog.bind_eq_ok.mp h
    cases h
    rw [muted_quiet (quiet_mmap_fill _ _ _ _ _ _) hfill]
    rfl

/-- **The dispatcher**, seen by the statics behind descriptors. -/
theorem dispatch_io (h : dispatch env num a k = .ok r k') :
    (∃ c v, io_call env num a = some c ∧ run (machine k.satp) c k.view = .ok r v ∧ k'.io = v.st) ∨
      io_call env num a = none ∧ k'.muted = k.muted := by
  cases hc : io_call env num a with
  | some c =>
    left
    unfold dispatch at h
    simp only [hc] at h
    obtain ⟨v, hv, rfl⟩ := KM.io_eq_ok.mp h
    exact ⟨c, v, rfl, hv, rfl⟩
  | none =>
    right
    refine ⟨rfl, ?_⟩
    cases dispatch_cases h with
    | io c hn hio hc' =>
      -- the warning about an unknown call
      rcases hc' with hc' | rfl
      · rw [hc] at hc'
        cases hc'
      · obtain ⟨v, hv, rfl⟩ := KM.io_eq_ok.mp hio
        cases hv
        rfl
    | quiet hn hk => rw [hk]
    | exit hn hexit =>
      rw [sys_exit_eq] at hexit
      cases hexit
      rfl
    | brk hn hbrk => exact (muted_sys_brk _).of_ok hbrk
    | clone hn hclone =>
      rcases sys_clone_cases hclone with ⟨-, mm, -, rfl⟩ |
        ⟨-, parent, pt, kstack, mm1, mm2, -, -, -, -, -, -, -, -, hio, -⟩
      · rfl
      · unfold Kernel.muted
        rw [hio]
    | execve hn hexec => exact (muted_sys_execve _ _ _ _).of_ok hexec
    | mmap hn hmmap => exact muted_sys_mmap hmmap
    | wait4 hn hwait =>
      rcases sys_wait4_cases hwait with ⟨z, proc, k1, -, -, hzero, hstore, rfl⟩ | ⟨-, -, rfl⟩
      · show k1.muted = k.muted
        by_cases hw : a.a1 = 0
        · rw [hzero hw]
        · exact muted_quiet (Quiet.storeBytes _ _) (hstore hw)
      · rfl

/-- The end of a trap leaves them alone. -/
theorem trap_exit_io {cpu cpu' : Cpu} {ret : Int} (h : trap_exit cpu ret k = .ok cpu' k') : k'.io = k.io := by
  obtain ⟨k1, sp, hfinish, hsched, -⟩ := trap_exit_cases h
  -- the handler writes the frame on the kernel stack and may put the process to sleep
  have hsame : k1.io = k.io := by
    obtain ⟨m, hrun, -⟩ := handler_finish_run cpu.tf cpu.num ret k
    cases hrun.symm.trans hfinish
    split <;> rfl
  rw [← hsame]
  cases do_schedule_cases hsched with
  | idle p hpick hcur hstate hsp hk => rw [hk]; rfl
  | missing hpick hcur hsp hk => rw [hk]; rfl
  | same hpick hsp hk => rw [hk]; rfl
  | switch next p hpick hne hnext hsp hk => rw [hk]; rfl

/-- **Traps**, seen by the statics behind descriptors: a call with the bytes that it
    moves, or nothing but output. -/
theorem Step.io {s t : System} {l : Trap} (h : Step env s l t) :
    (∃ k, LoggedStep env s.k.io (l.label k, s.log env l) t.k.io) ∨
      io_call env l.call.num l.call.args = none ∧ t.k.muted = s.k.muted := by
  obtain ⟨m, k1, hm, hd, hexit⟩ := step_iff.mp h
  have hio : t.k.io = k1.io := trap_exit_io hexit
  have hd : dispatch env l.call.num l.call.args ((s.k.withMem m).enter (s.trapCpu l)) = .ok l.ret k1 := hd
  rcases dispatch_io hd with ⟨c, v, hc, hv, hst⟩ | ⟨hc, hmuted⟩
  · left
    refine ⟨(s.k.withMem m).enter (s.trapCpu l), c, v, hc, hv, hst.symm.trans hio.symm, ?_⟩
    funext w
    show s.log env l w = _
    unfold System.log
    rw [hm, hc]
    rfl
  · right
    refine ⟨hc, ?_⟩
    unfold Kernel.muted at hmuted ⊢
    rw [hio, hmuted]
    rfl

end Traps

/-! ## Section 2: Files -/

/-- One trap, with the bytes that its call moved. -/
def LoggedTrap (env : Env) (s : System) (x : Trap × Log) (t : System) : Prop :=
  Step env s x.1 t ∧ x.2 = s.log env x.1

/-- The files stay below 100. -/
def TrapCond (s : System) (x : Trap × Log) : Prop := LowCond s.k.io (x.1.label s.k)

section Files

variable {env : Env} {s t : System}

/-- What is printed is no part of the tables. -/
theorem muted_tables {io io' : Io} (h : io'.muted = io.muted) : io'.fd_table = io.fd_table ∧ io'.fs = io.fs ∧
    io'.fake_fds = io.fake_fds ∧ io'.fake_fd_next = io.fake_fd_next := by
  simp only [Io.muted, Io.mk.injEq] at h
  exact ⟨h.1, h.2.2.2.2.2.1, h.2.1, h.2.2.1⟩

theorem Io.Orderly.muted {io io' : Io} (h : io.Orderly) (hmuted : io'.muted = io.muted) : io'.Orderly := by
  obtain ⟨htable, hfs, hfake, hnext⟩ := muted_tables hmuted
  obtain ⟨⟨hlow, hhigh, hge⟩, hlawful, hbelongs⟩ := h
  rw [← hfs] at hlawful hbelongs
  rw [← htable] at hlow hbelongs
  rw [← hfake, ← hnext] at hhigh
  rw [← hnext] at hge
  exact ⟨⟨hlow, hhigh, hge⟩, hlawful, hbelongs⟩

/-- The calls that are not in the table of input and output calls tell nothing. -/
theorem tells_other {c : Call} (hc : io_call env c.num c.args = none) (lg : Log) : c.Tells lg [.other] := by
  obtain ⟨num, a, ret⟩ := c
  dsimp only at hc
  have hevent : Call.event ⟨num, a, ret⟩ lg = .other := by
    unfold Call.event
    dsimp only
    split <;> first | rfl | (cases hc)
  rw [← hevent]
  refine .single ⟨?_, ?_⟩
  · rintro rfl
    cases hc
  · rintro rfl
    cases hc

/-- **One trap** is a run of the abstract disk. -/
theorem disk_trap (h : s.k.io.Orderly) {x : Trap × Log} (hst : LTS.guarded TrapCond (LoggedTrap env) s x t) :
    t.k.io.Orderly ∧ ∃ es, x.1.call.Tells x.2 es ∧ LTS.Steps DiskStep s.k.io.disk es t.k.io.disk := by
  obtain ⟨l, lg⟩ := x
  obtain ⟨hcond, hstep, hlg⟩ := hst
  dsimp only at hstep hlg ⊢
  subst hlg
  rcases hstep.io with ⟨k, hcall⟩ | ⟨hnone, hmuted⟩
  · -- the condition reads the statics and the arguments, not the memory of the label
    have hlow : LowCond s.k.io (l.label k) := ⟨hcond.dup, hcond.openat, hcond.pipe, hcond.counter⟩
    exact ⟨h.step ⟨hlow, hcall.step⟩, disk_call h hlow hcall⟩
  · -- a call about processes or memory, which is no event of the disk
    obtain ⟨htable, hfs, -, -⟩ := muted_tables hmuted
    refine ⟨h.muted hmuted, [.other], tells_other hnone _, ?_⟩
    rw [disk_congr htable hfs]
    exact .single .other

end Files

/-- The first process copies its standard input to 3. -/
theorem first_dup : ∃ s t l, First (fun _ => 0) (Io.boot Fs.noBlobs) s ∧ Step Env.quiet s l t ∧
    TrapCond s (l, s.log Env.quiet l) := by
  obtain ⟨s, hs⟩ := first_exists (fun _ => 0) (Io.boot Fs.noBlobs)
  have htable := hs.calm.start.table
  have hdup : ∀ k : Kernel, k.io = s.k.io →
      ∃ v, run (machine k.satp) (sys_dup2 (toIsize 0) (toIsize 3)) k.view = .ok 3 v := by
    intro k hk
    have hnew : k.view.st.fd_table = FdTable.new := congrArg Io.fd_table (hk.trans hs.io)
    obtain ⟨v, hv, -⟩ := run_dup2_new hnew
    exact ⟨v, hv⟩
  have htrap : s.k.table.trap 24 ⟨0, 3, 0, 0, 0, 0⟩ 3 = some ⟨[(1, ⟨1, 0, .Ready, 0⟩)], 1, 2⟩ := by
    rw [htable]
    decide +kernel
  have hnumbered : s.k.table.Numbered := by
    rw [htable]
    show ∀ p ∈ firstTable.procs, p.1 < firstTable.next_pid
    decide
  obtain ⟨t, l, hl, hnum, hargs, -⟩ := io_step_exists Env.quiet (s := s) (r := ⟨24, 0, 3, 0⟩) hnumbered rfl hdup htrap
  have hargs : (l.label s.k).args = ⟨0, 3, 0, 0, 0, 0⟩ := hargs
  have hnum : (l.label s.k).num = 24 := hnum
  refine ⟨s, t, l, hs, hl, ?_, ?_, ?_, ?_⟩
  · intro _ _
    rw [hargs]
    decide
  · intro h
    rw [hnum] at h
    cases h
  · intro h
    rw [hnum] at h
    cases h
  · rw [hs.io]
    decide

/-- At the paths of the first `execve` finds the same in both, and nothing or an
    empty file elsewhere. -/
structure Fs.Keeps (fs fs' : Fs) : Prop where
  mem : ∀ path : Path, path ∈ fs.files → path ∈ fs'.files
  same : ∀ path : Path, path ∈ fs.files → fs'.get_file_data path = fs.get_file_data path
  empty : ∀ path : Path, path ∉ fs.files → ∀ data, fs'.get_file_data path = some data → data = []

section Image

variable {env : Env} {may : Io.Act → Prop} {fs fs' : Fs} {io io' : Io} {path : Path}

theorem Fs.Keeps.refl (fs : Fs) : fs.Keeps fs := by
  refine ⟨fun _ h => h, fun _ _ => rfl, fun path hpath data hdata => ?_⟩
  rw [Fs.get_file_data, Std.TreeMap.getElem?_eq_none hpath] at hdata
  cases hdata

theorem get_file_data_mkdir (fs : Fs) (path p : Path) :
    (fs.mkdir path).get_file_data p = if p = path then some [] else fs.get_file_data p := by
  unfold Fs.get_file_data
  rw [Fs.mkdir, Fs.get_create]
  split <;> rfl

/-- `execve` does not find files that grow. -/
theorem get_file_data_write {v v' : List UInt8} {cap cap' : Nat} (hold : fs.files[path]? = some ⟨.Dynamic v cap⟩)
    (p : Path) : ({ fs with files := fs.files.insert path ⟨.Dynamic v' cap'⟩ } : Fs).get_file_data p =
      fs.get_file_data p := by
  unfold Fs.get_file_data
  have hget : (fs.files.insert path ⟨.Dynamic v' cap'⟩)[p]? =
      if p = path then some ⟨.Dynamic v' cap'⟩ else fs.files[p]? := Fs.get_create fs path (.Dynamic v' cap') p
  rw [hget]
  split
  · next hp =>
    rw [hp, hold]
    rfl
  · rfl

/-- A new directory. -/
theorem Fs.Keeps.mkdir (h : fs.Keeps fs') (hnew : path ∉ fs'.files) : fs.Keeps (fs'.mkdir path) := by
  constructor
  · intro p hp
    exact Fs.mem_create.mpr (Or.inr (h.mem p hp))
  · intro p hp
    rw [get_file_data_mkdir, if_neg, h.same p hp]
    -- a path of the image is still there, so that it is not the new one
    rintro rfl
    exact hnew (h.mem p hp)
  · intro p hp data hdata
    rw [get_file_data_mkdir] at hdata
    split at hdata
    · exact (Option.some.inj hdata).symm
    · exact h.empty p hp data hdata

/-- A write to a file that grows. -/
theorem Fs.Keeps.write (h : fs.Keeps fs') {v v' : List UInt8} {cap cap' : Nat}
    (hold : fs'.files[path]? = some ⟨.Dynamic v cap⟩) :
    fs.Keeps { fs' with files := fs'.files.insert path ⟨.Dynamic v' cap'⟩ } := by
  have hmem : path ∈ fs'.files := Std.TreeMap.mem_iff_isSome_getElem?.mpr (by simp [hold])
  constructor
  · intro p hp
    exact (Fs.mem_write hmem).mpr (h.mem p hp)
  · intro p hp
    rw [get_file_data_write hold, h.same p hp]
  · intro p hp data hdata
    rw [get_file_data_write hold] at hdata
    exact h.empty p hp data hdata

theorem keeps_change (h : io.fs.Lawful ∧ fs.Keeps io.fs) (hc : Io.Change env may io io') :
    io'.fs.Lawful ∧ fs.Keeps io'.fs := by
  refine ⟨lawful_change h.1 hc, ?_⟩
  cases hc with
  -- only these two touch the files
  | mkdir path _ hnew => exact h.2.mkdir (h.1.lookup_none.mp hnew)
  | write path v v' cap cap' hold hle => exact h.2.write hold
  | _ => exact h.2

theorem keeps_trap {s t : System} {l : Trap} (h : s.k.io.fs.Lawful ∧ fs.Keeps s.k.io.fs) (hst : Step env s l t) :
    t.k.io.fs.Lawful ∧ fs.Keeps t.k.io.fs := by
  rcases hst.io with ⟨k, hcall⟩ | ⟨-, hmuted⟩
  · exact hcall.step.reach.invariant (fun _ _ => keeps_change) h
  · rw [(muted_tables hmuted).2.1]
    exact h

end Image

end Rvos

import Rvos.Io.Slots
import Rvos.Kernel.Progress

/-! # Descriptors of several processes

    `fork_process` copies `Process::fd_table`, and no handler looks at it: all of
    them find descriptors in the one `FD_TABLE`.

    * `dispatch_denotes` : a call changes what descriptors denote only if it is one
      of `openingCalls`; `harmless_iff` says exactly when these do.
    * `descriptors_separate_iff` : a trap leaves the descriptors of all other
      processes alone just if there are none, or its call opens and closes
      nothing; `dup2_seen_by_parent` is what happens otherwise. -/

namespace Rvos

open Access Access.Code ByteMem Usize Assoc

/-! ## Section 1: What traps leave alone -/

/-- The descriptor table, and which processes there are. -/
def Kernel.shared (k : Kernel) : FdTable × (Nat → Bool) := (k.io.fd_table, fun pid => k.procs.contains pid)

section Shared

variable {α : Type} {env : Env} {num : Nat} {a : Args} {k k' : Kernel} {r : Int}

theorem shared_of_rest {c : KM α} (h : Prog.Fixes Kernel.rest c) : Prog.Fixes Kernel.shared c := by
  intro k
  have hrest := h k
  simp only [Kernel.rest, Prod.mk.injEq] at hrest
  unfold Kernel.shared
  rw [hrest.2.1, hrest.2.2.2.2.2.2]

theorem shared_mm (c : MmM α) : Prog.Fixes Kernel.shared (KM.mm c) := shared_of_rest (rest_mm c)

theorem contains_modify {β : Type} (t : Std.TreeMap Nat β) (k j : Nat) (f : β → β) :
    (t.modify k f).contains j = t.contains j := by
  rw [Std.TreeMap.contains_eq_isSome_getElem?, Std.TreeMap.contains_eq_isSome_getElem?, get_modify]
  split
  · next h => rw [h, Option.isSome_map]
  · rfl

theorem shared_modify (pid : Nat) (f : Process → Process) (k : Kernel) :
    ({ k with procs := k.procs.modify pid f } : Kernel).shared = k.shared := by
  unfold Kernel.shared
  simp only [contains_modify]

theorem shared_modify_proc (pid : Nat) (f : Process → Process) : Prog.Fixes Kernel.shared (modify_proc pid f) :=
  Prog.Fixes.modify fun k => shared_modify pid f k

theorem shared_exec_process (env : Env) (pid : Nat) (data : List UInt8) (argv envp : List Path) :
    Prog.Fixes Kernel.shared (exec_process env pid data argv envp) := by
  unfold exec_process
  refine (shared_mm _).bind fun o => ?_
  cases o with
  | none => exact Prog.Fixes.pure _
  | some pt =>
    refine (shared_mm _).bind fun _ => (shared_of_rest (rest_load_program _ _ _ _ _)).bind fun o => ?_
    cases o with
    | none => exact Prog.Fixes.pure _
    | some r => exact (shared_modify_proc _ _).bind fun _ => Prog.Fixes.pure _

theorem shared_sys_execve (env : Env) (path argv envp : Nat) :
    Prog.Fixes Kernel.shared (sys_execve env path argv envp) := by
  unfold sys_execve
  refine Prog.Fixes.get.bind fun k => ?_
  split
  · exact Prog.Fixes.pure _
  · split
    · refine Prog.Fixes.bind ?_ fun _ => Prog.Fixes.pure _
      intro k
      rfl
    · refine (shared_exec_process _ _ _ _ _).bind fun o => ?_
      cases o with
      | none => exact Prog.Fixes.pure _
      | some sp =>
        refine (Prog.Fixes.modify fun k => ?_).bind fun _ => Prog.Fixes.pure _
        cases k.current with
        | none => rfl
        | some proc => rfl

theorem shared_sys_brk (addr : Nat) : Prog.Fixes Kernel.shared (sys_brk addr) := by
  unfold sys_brk
  refine Prog.Fixes.get.bind fun k => ?_
  cases k.current with
  | none => exact Prog.Fixes.pure _
  | some proc =>
    refine Prog.Fixes.bind (shared_modify_proc _ _) fun _ => ?_
    generalize (if proc.brk = 0 then 0x10000 else proc.brk) = brk
    split
    · exact Prog.Fixes.pure _
    · dsimp only
      split
      · exact Prog.Fixes.bind (shared_mm _) fun _ => Prog.Fixes.bind (shared_modify_proc _ _) fun _ => Prog.Fixes.pure _
      · exact Prog.Fixes.bind (shared_modify_proc _ _) fun _ => Prog.Fixes.pure _

/-- An input or output call that leaves the tables alone. -/
theorem shared_quiet {c : IoM α} {x : α} (hc : Quiet c) (h : KM.io c k = .ok x k') : k'.shared = k.shared := by
  obtain ⟨s, hs, rfl⟩ := KM.io_eq_ok.mp h
  have hst : s.st = k.io := (hc k.io).ok hs
  show (s.st.fd_table, _) = _
  rw [hst]
  rfl

theorem quiet_mmap_fill (ret len aligned_len : Nat) (flags fd : Int) (offset : Nat) :
    Quiet (mmap_fill ret len aligned_len flags fd offset) := by
  unfold mmap_fill
  refine (Quiet.storeBytes _ _).bind fun _ => ?_
  split
  · intro io
    rw [post_bind, post_get]
    cases io.fd_table.get (ofIsize fd) with
    | none => rfl
    | some of => exact ((quiet_read_file _ _ _).bind fun _ => Quiet.storeBytes _ _) io
  · exact Quiet.pure _

theorem sys_mmap_shared {addr len : Nat} {prot flags fd : Int} {offset : Nat}
    (h : sys_mmap addr len prot flags fd offset k = .ok r k') : k'.shared = k.shared := by
  cases hcur : k.current with
  | some proc =>
    obtain ⟨mm, base, -, hfill⟩ := sys_mmap_cases hcur h
    rw [shared_quiet (quiet_mmap_fill _ _ _ _ _ _) hfill]
    rfl
  | none =>
    unfold sys_mmap at h
    rw [Prog.bind_run, Prog.get_run] at h
    simp only [hcur] at h
    obtain ⟨⟨⟩, k1, hbase, h⟩ := Prog.bind_eq_ok.mp h
    cases hbase
    obtain ⟨⟨⟩, k2, hfill, h⟩ := Prog.bind_eq_ok.mp h
    cases h
    rw [shared_quiet (quiet_mmap_fill _ _ _ _ _ _) hfill]
    rfl

/-- **The calls that change processes** leave the descriptors, and a new process has
    a parent. -/
theorem dispatch_shared (h : dispatch env num a k = .ok r k') (hnum : num ∈ processCalls) :
    k'.io.fd_table = k.io.fd_table ∧
      ∀ q, q ∈ k'.procs → q ∈ k.procs ∨ k.current_pid ∈ k.procs := by
  -- in most cases nothing of the two changes
  have hsame : k'.shared = k.shared → k'.io.fd_table = k.io.fd_table ∧
      ∀ q, q ∈ k'.procs → q ∈ k.procs ∨ k.current_pid ∈ k.procs := by
    intro hshared
    refine ⟨congrArg Prod.fst hshared, fun q hq => Or.inl ?_⟩
    have hcontains : k'.procs.contains q = k.procs.contains q := congrFun (congrArg Prod.snd hshared) q
    rw [Std.TreeMap.mem_iff_contains] at hq ⊢
    exact hcontains ▸ hq
  cases dispatch_cases h with
  | io c hn => exact absurd hnum hn
  | quiet hn => exact absurd hnum hn
  | exit hn hexit =>
    rw [sys_exit_eq] at hexit
    cases hexit
    exact hsame ((shared_modify _ _ { k with procs := k.procs.modify _ _ }).trans (shared_modify _ _ k))
  | brk hn hbrk => exact hsame ((shared_sys_brk _).of_ok hbrk)
  | clone hn hclone =>
    rcases sys_clone_cases hclone with ⟨-, mm, -, rfl⟩ |
      ⟨-, parent, pt, kstack, mm1, mm2, hcur, -, -, -, -, -, -, -, hio, -⟩
    · exact hsame rfl
    · refine ⟨by rw [hio], fun q _ => Or.inr ?_⟩
      exact Std.TreeMap.mem_iff_isSome_getElem?.mpr (by rw [show k.procs[k.current_pid]? = _ from hcur]; rfl)
  | execve hn hexec => exact hsame ((shared_sys_execve _ _ _ _).of_ok hexec)
  | mmap hn hmmap => exact hsame (sys_mmap_shared hmmap)
  | wait4 hn hwait =>
    rcases sys_wait4_cases hwait with ⟨z, proc, k1, -, -, hzero, hstore, rfl⟩ | ⟨-, -, rfl⟩
    · have hk1 : k1.shared = k.shared := by
        by_cases hw : a.a1 = 0
        · rw [hzero hw]
        · exact shared_quiet (Quiet.storeBytes _ _) (hstore hw)
      have hcontains : ∀ q, k1.procs.contains q = k.procs.contains q := congrFun (congrArg Prod.snd hk1)
      refine ⟨congrArg Prod.fst hk1, fun q hq => Or.inl ?_⟩
      have hmem : q ∈ k1.procs := Std.TreeMap.mem_of_mem_erase hq
      rw [Std.TreeMap.mem_iff_contains] at hmem ⊢
      exact hcontains q ▸ hmem
    · exact hsame rfl

/-- **All other calls** but the opening ones leave what descriptors denote. -/
theorem dispatch_denotes (h : dispatch env num a k = .ok r k') (hnum : num ∉ openingCalls) :
    k'.io.fd_table.denotes = k.io.fd_table.denotes := by
  by_cases hproc : num ∈ processCalls
  · rw [(dispatch_shared h hproc).1]
  · cases dispatch_cases h with
    | io c hn hio hc =>
      obtain ⟨s, hs, rfl⟩ := KM.io_eq_ok.mp hio
      rcases hc with hc | rfl
      · exact (io_call_steady hc hnum).run hs rfl
      · have hwarn : ∀ bs, Apart (do print bs; return -1 : IoM Int) := fun bs =>
          ((Outer.print bs).bind fun _ => Outer.pure (-1)).apart
        exact congrArg FdTable.denotes ((hwarn _ k.io).ok hs).1
    | quiet hn hk => rw [hk]
    | exit hn => exact absurd (by rcases hn with rfl | rfl <;> decide) hproc
    | brk hn => exact absurd (hn ▸ by decide) hproc
    | clone hn => exact absurd (hn ▸ by decide) hproc
    | execve hn => exact absurd (hn ▸ by decide) hproc
    | mmap hn => exact absurd (hn ▸ by decide) hproc
    | wait4 hn => exact absurd (hn ▸ by decide) hproc

/-- And they leave the processes. -/
theorem dispatch_same_procs (h : dispatch env num a k = .ok r k') (hnum : num ∉ processCalls) :
    k'.procs = k.procs := by
  cases dispatch_cases h with
  | io c hn hio hc =>
    obtain ⟨s, hs, rfl⟩ := KM.io_eq_ok.mp hio
    rfl
  | quiet hn hk => rw [hk]
  | exit hn => exact absurd (by rcases hn with rfl | rfl <;> decide) hnum
  | brk hn => exact absurd (hn ▸ by decide) hnum
  | clone hn => exact absurd (hn ▸ by decide) hnum
  | execve hn => exact absurd (hn ▸ by decide) hnum
  | mmap hn => exact absurd (hn ▸ by decide) hnum
  | wait4 hn => exact absurd (hn ▸ by decide) hnum

theorem handler_finish_shared {tf : Nat} {ret : Int} (h : handler_finish tf num ret k = .ok () k') :
    k'.shared = k.shared := by
  obtain ⟨m, hrun, -⟩ := handler_finish_run tf num ret k
  cases hrun.symm.trans h
  split
  · exact shared_modify _ _ k
  · rfl

theorem do_schedule_shared {tf sp : Nat} (h : do_schedule tf k = .ok sp k') : k'.shared = k.shared := by
  have hsave : (k.save (read_raw k.mm.mem tf)).shared = k.shared := shared_modify _ _ k
  cases do_schedule_cases h with
  | idle p hpick hcur hstate hsp hk => rw [hk, shared_modify, hsave]
  | missing hpick hcur hsp hk => rw [hk, hsave]
  | same hpick hsp hk => rw [hk, hsave]
  | switch next p hpick hne hnext hsp hk =>
    rw [hk]
    unfold Kernel.shared at hsave ⊢
    simp only [contains_modify]
    exact hsave

/-- The end of a trap. -/
theorem trap_exit_shared {cpu cpu' : Cpu} {ret : Int} (h : trap_exit cpu ret k = .ok cpu' k') :
    k'.shared = k.shared := by
  obtain ⟨k1, sp, hfinish, hsched, -⟩ := trap_exit_cases h
  rw [do_schedule_shared hsched, handler_finish_shared hfinish]

end Shared

/-! ## Section 2: One trap -/

/-- What a descriptor denotes for the calls of a process.  They all look it up in
    `FD_TABLE`, whichever process makes them. -/
def Kernel.denotes (k : Kernel) (pid fd : Nat) : Option OpenFile :=
  if pid ∈ k.procs then k.io.fd_table.denotes fd else none

/-- A trap of the current process leaves the descriptors of all others, and a new
    process starts with those of its parent. -/
structure Separate (k k' : Kernel) : Prop where
  others : ∀ q, q ∈ k.procs → q ∈ k'.procs → q ≠ k.current_pid → ∀ fd, k'.denotes q fd = k.denotes q fd
  child : ∀ q, q ∉ k.procs → q ∈ k'.procs → ∀ fd, k'.denotes q fd = k.denotes k.current_pid fd

/-- The call opens and closes nothing: it is none of the opening calls, the path of
    `openat` names no file, the descriptor of `close` is not open in the table, or
    that of `dup2` is not open or the copy is the same. -/
def Harmless (k : Kernel) (num : Nat) (a : Args) : Prop :=
  num ∉ openingCalls ∨
  (num = 56 ∧ ∀ name s, run (machine k.satp) (cstr (user a.a1)) k.view = .ok name s → k.io.fs.lookup name = none) ∨
  (num = 57 ∧ (0 ≤ toIsize a.a0 ∧ toIsize a.a0 < 3 ∨ ofIsize (toIsize a.a0) ∈ k.io.fake_fds ∨
    k.io.fd_table.get (ofIsize (toIsize a.a0)) = none)) ∨
  ((num = 23 ∨ num = 24) ∧ (k.io.fd_table.get (ofIsize (toIsize a.a0)) = none ∨
    k.io.fd_table.denotes (ofIsize (toIsize a.a1)) = k.io.fd_table.denotes (ofIsize (toIsize a.a0))))

/-- There is no other process, or the call is harmless. -/
def ShareCond (k : Kernel) (num : Nat) (a : Args) : Prop :=
  (∀ q, q ∈ k.procs → q = k.current_pid) ∨ Harmless k num a

section Trap

variable {env : Env} {num : Nat} {a : Args} {k k' : Kernel} {r : Int}

/-- An `openat` that returns has found a file just if it returns a descriptor. -/
theorem openat_found {M : Machine HeapAllocator Halt} {s t : St HeapAllocator Io} {path : Ptr} {flags : Int}
    (h : run M (sys_openat path flags) s = .ok r t) :
    ∃ name u, run M (cstr path) s = .ok name u ∧ (s.st.fs.lookup name = none → r = -2) ∧
      (s.st.fs.lookup name ≠ none → 0 ≤ r) := by
  obtain ⟨name, u, hname, hrest⟩ := (run_bind_ok _).mp h
  have hu : u.st = s.st := (quiet_cstr path s.st).ok hname
  rw [run_get_bind, hu] at hrest
  refine ⟨name, u, hname, ?_, ?_⟩
  · intro hnone
    simp only [hnone, run_pure] at hrest
    exact (EStateM.Result.ok.inj hrest).1.symm
  · intro hsome
    obtain ⟨inode, hinode⟩ := Option.ne_none_iff_exists'.mp hsome
    simp only [hinode, run_get_bind] at hrest
    obtain ⟨⟨t', fd⟩, v, -, hrest⟩ := (run_bind_ok _).mp hrest
    obtain ⟨-, w, -, hrest⟩ := (run_bind_ok _).mp hrest
    have hr := (EStateM.Result.ok.inj hrest).1
    omega

theorem FdTable.denotes_of_get {t t' : FdTable} {fd fd' : Nat} (h : t'.get fd = t.get fd') :
    t'.denotes fd = t.denotes fd' := by
  unfold FdTable.denotes
  rw [h]

theorem FdTable.Takes.denotes_ne {t t' : FdTable} {fd : Nat} {file : OpenFile} (h : t.Takes fd file t') :
    t'.denotes ≠ t.denotes := by
  intro heq
  have hfd := congrFun heq fd
  rw [FdTable.denotes, FdTable.denotes, h.get, if_pos rfl, h.empty] at hfd
  cases hfd

/-- `openat` changes the table just if it finds the file. -/
theorem openat_denotes_iff (h : KM.io (sys_openat (user a.a1) (toIsize a.a2)) k = .ok r k') :
    k'.io.fd_table.denotes = k.io.fd_table.denotes ↔ ∀ name s,
      run (machine k.satp) (cstr (user a.a1)) k.view = .ok name s → k.io.fs.lookup name = none := by
  obtain ⟨t, ht, rfl⟩ := KM.io_eq_ok.mp h
  obtain ⟨name, u, hname, hnone, hsome⟩ := openat_found ht
  have hpost : r = -2 ∧ t.st = k.io ∨ ∃ inode fd t', k.io.fd_table.Takes fd (openFile inode (toIsize a.a2)) t' ∧
      r = fd ∧ t.st = { k.io with fd_table := t' } := (post_openat _ _).ok ht
  constructor
  · intro hsame name' s hname'
    obtain ⟨rfl, -⟩ := EStateM.Result.ok.inj (hname.symm.trans hname')
    by_contra hlookup
    have hpos := hsome hlookup
    rcases hpost with ⟨hr, -⟩ | ⟨inode, fd, t', htakes, -, hst⟩
    · omega
    · apply htakes.denotes_ne
      have hsame : t.st.fd_table.denotes = k.io.fd_table.denotes := hsame
      rwa [hst] at hsame
  · intro hall
    have hr := hnone (hall name u hname)
    show t.st.fd_table.denotes = _
    rcases hpost with ⟨-, hst⟩ | ⟨inode, fd, t', -, hfd, -⟩
    · rw [hst]
    · omega

/-- `close` changes the table just if it closes an open file. -/
theorem close_denotes_iff {fd : Int} (h : KM.io (sys_close fd) k = .ok r k') :
    k'.io.fd_table.denotes = k.io.fd_table.denotes ↔
      0 ≤ fd ∧ fd < 3 ∨ ofIsize fd ∈ k.io.fake_fds ∨ k.io.fd_table.get (ofIsize fd) = none := by
  obtain ⟨t, ht, rfl⟩ := KM.io_eq_ok.mp h
  show t.st.fd_table.denotes = _ ↔ _
  have hpost : (0 ≤ fd ∧ fd < 3 ∨ ofIsize fd ∈ k.io.fake_fds) ∧ t.st.store = k.io.store ∨
      ¬ (0 ≤ fd ∧ fd < 3) ∧ ofIsize fd ∉ k.io.fake_fds ∧
        t.st = { k.io with fd_table := k.io.fd_table.close (ofIsize fd) } := (post_close fd).ok ht
  rcases hpost with ⟨hkind, hst⟩ | ⟨hstd, hfake, hst⟩
  · have htable : t.st.fd_table = k.io.fd_table := congrArg Prod.fst hst
    rw [htable]
    exact ⟨fun _ => by rcases hkind with h | h <;> simp [h], fun _ => rfl⟩
  · rw [hst]
    constructor
    · intro hsame
      have hfd := congrFun hsame (ofIsize fd)
      have hnone : (k.io.fd_table.close (ofIsize fd)).denotes (ofIsize fd) = none := by
        rw [FdTable.denotes, FdTable.get_close, if_pos rfl]
        rfl
      rw [hnone] at hfd
      exact Or.inr (Or.inr (FdTable.denotes_eq_none.mp hfd.symm))
    · intro hcases
      have hnone := (hcases.resolve_left hstd).resolve_left hfake
      funext fd'
      apply FdTable.denotes_of_get
      rw [FdTable.get_close]
      split
      · next heq => rw [heq, hnone]
      · rfl

/-- `dup2` changes the table just if the copy is another file. -/
theorem dup2_denotes_iff {oldfd newfd : Int} (h : KM.io (sys_dup2 oldfd newfd) k = .ok r k') :
    k'.io.fd_table.denotes = k.io.fd_table.denotes ↔ k.io.fd_table.get (ofIsize oldfd) = none ∨
      k.io.fd_table.denotes (ofIsize newfd) = k.io.fd_table.denotes (ofIsize oldfd) := by
  obtain ⟨t, ht, rfl⟩ := KM.io_eq_ok.mp h
  show t.st.fd_table.denotes = _ ↔ _
  have hpost : k.io.fd_table.get (ofIsize oldfd) = none ∧ r = -1 ∧ t.st = k.io ∨
      ∃ file t', k.io.fd_table.get (ofIsize oldfd) = some file ∧ r = newfd ∧ t.st = { k.io with fd_table := t' } ∧
        ∀ i, t'.get i = if i = ofIsize newfd then some file else k.io.fd_table.get i := (post_dup2 oldfd newfd).ok ht
  rcases hpost with ⟨hnone, -, hst⟩ | ⟨file, t', hfile, -, hst, hget⟩
  · rw [hst]
    exact ⟨fun _ => Or.inl hnone, fun _ => rfl⟩
  · rw [hst]
    have hcopy : t'.denotes (ofIsize newfd) = k.io.fd_table.denotes (ofIsize oldfd) := by
      apply FdTable.denotes_of_get
      rw [hget, if_pos rfl, hfile]
    constructor
    · intro hsame
      have hfd : t'.denotes (ofIsize newfd) = k.io.fd_table.denotes (ofIsize newfd) := congrFun hsame _
      exact Or.inr (hfd.symm.trans hcopy)
    · intro hcases
      have hsame := hcases.resolve_left (by rw [hfile]; exact Option.some_ne_none _)
      funext fd'
      by_cases hfd : fd' = ofIsize newfd
      · rw [hfd]
        exact hcopy.trans hsame.symm
      · apply FdTable.denotes_of_get
        rw [hget, if_neg hfd]

/-- `pipe2` always changes the table. -/
theorem pipe2_denotes_ne {p : Ptr} (h : KM.io (sys_pipe2 p) k = .ok r k') :
    k'.io.fd_table.denotes ≠ k.io.fd_table.denotes := by
  obtain ⟨t, ht, rfl⟩ := KM.io_eq_ok.mp h
  obtain ⟨rfd, wfd, t1, t2, hread, hwrite, -, hst, -⟩ := (post_pipe2 p).ok ht
  show t.st.fd_table.denotes ≠ _
  rw [hst]
  intro hsame
  -- the first of the two slots was empty, and is not any more
  have hfd : t2.denotes rfd = k.io.fd_table.denotes rfd := congrFun hsame rfd
  have hnone : k.io.fd_table.get rfd = none := hread.empty
  rw [FdTable.denotes_eq_none.mpr hnone, FdTable.denotes_eq_none, hwrite.get] at hfd
  split at hfd
  · cases hfd
  · rw [hread.get, if_pos rfl] at hfd
    cases hfd

/-- **A call** leaves what descriptors denote just if it is harmless. -/
theorem harmless_iff (h : dispatch env num a k = .ok r k') :
    k'.io.fd_table.denotes = k.io.fd_table.denotes ↔ Harmless k num a := by
  by_cases hnum : num ∈ openingCalls
  swap
  · exact ⟨fun _ => Or.inl hnum, fun _ => dispatch_denotes h hnum⟩
  simp only [openingCalls, List.mem_cons, List.not_mem_nil, or_false] at hnum
  unfold Harmless
  rcases hnum with rfl | rfl | rfl | rfl | rfl
  · have hcall : KM.io (sys_dup2 (toIsize a.a0) (toIsize a.a1)) k = .ok r k' := h
    rw [dup2_denotes_iff hcall]
    simp [openingCalls]
  · have hcall : KM.io (sys_dup2 (toIsize a.a0) (toIsize a.a1)) k = .ok r k' := h
    rw [dup2_denotes_iff hcall]
    simp [openingCalls]
  · have hcall : KM.io (sys_openat (user a.a1) (toIsize a.a2)) k = .ok r k' := h
    rw [openat_denotes_iff hcall]
    simp [openingCalls]
  · have hcall : KM.io (sys_close (toIsize a.a0)) k = .ok r k' := h
    rw [close_denotes_iff hcall]
    simp [openingCalls]
  · have hcall : KM.io (sys_pipe2 (user a.a0)) k = .ok r k' := h
    have hne := pipe2_denotes_ne hcall
    simp [openingCalls, hne]

end Trap

/-- **Separate descriptors.**  A trap leaves the descriptors of all other processes,
    and gives a new process those of its parent, just if there is no other process
    or the call is harmless. -/
theorem descriptors_separate_iff (env : Env) {s t : System} {l : Trap} {m : Mem}
    (hm : user_stores s.k.satp s.k.mm.mem l.burst.stores = some m) (hstep : Step env s l t) :
    Separate s.k t.k ↔
      ShareCond ((s.k.withMem m).enter (s.trapCpu l)) (s.trapCpu l).num (s.trapCpu l).args := by
  obtain ⟨m', k1, hm', hd, hexit⟩ := step_iff.mp hstep
  obtain rfl := Option.some.inj (hm.symm.trans hm')
  have hio : ((s.k.withMem m).enter (s.trapCpu l)).io = s.k.io := rfl
  have hprocs : ((s.k.withMem m).enter (s.trapCpu l)).procs = s.k.procs := rfl
  have hcur : ((s.k.withMem m).enter (s.trapCpu l)).current_pid = s.k.current_pid := rfl
  generalize (s.k.withMem m).enter (s.trapCpu l) = k0 at hd hio hprocs hcur ⊢
  generalize (s.trapCpu l).num = num at hd ⊢
  generalize (s.trapCpu l).args = a at hd ⊢
  have hshared := trap_exit_shared hexit
  have htable : t.k.io.fd_table = k1.io.fd_table := congrArg Prod.fst hshared
  have hmem : ∀ q, q ∈ t.k.procs ↔ q ∈ k1.procs := by
    intro q
    rw [Std.TreeMap.mem_iff_contains, Std.TreeMap.mem_iff_contains]
    exact iff_of_eq (congrArg (· = true) (congrFun (congrArg Prod.snd hshared) q))
  have hharmless : t.k.io.fd_table.denotes = s.k.io.fd_table.denotes ↔ Harmless k0 num a := by
    rw [htable, ← hio]
    exact harmless_iff hd
  unfold ShareCond
  rw [hprocs, hcur]
  constructor
  · intro hsep
    by_contra hcond
    rw [not_or] at hcond
    obtain ⟨hothers, hharm⟩ := hcond
    have hnum : num ∈ openingCalls := by
      by_contra hnum
      exact hharm (Or.inl hnum)
    -- some other process is there before and after, and sees the change
    obtain ⟨q, hq, hne⟩ : ∃ q, q ∈ s.k.procs ∧ q ≠ s.k.current_pid := by
      by_contra hnone
      apply hothers
      intro q hq
      by_contra hne
      exact hnone ⟨q, hq, hne⟩
    have hq' : q ∈ t.k.procs := by
      have hcall : num ∉ processCalls := by
        simp only [openingCalls, List.mem_cons, List.not_mem_nil, or_false] at hnum
        rcases hnum with rfl | rfl | rfl | rfl | rfl <;> decide
      rw [hmem, dispatch_same_procs hd hcall, hprocs]
      exact hq
    apply hharm
    rw [← hharmless]
    funext fd
    have hfd := hsep.others q hq hq' hne fd
    rwa [Kernel.denotes, Kernel.denotes, if_pos hq, if_pos hq'] at hfd
  · intro hcond
    refine ⟨?_, ?_⟩
    · intro q hq hq' hne fd
      rcases hcond with hone | hharm
      · exact absurd (hone q hq) hne
      · rw [Kernel.denotes, Kernel.denotes, if_pos hq, if_pos hq', hharmless.mpr hharm]
    · intro q hq hq' fd
      rw [hmem] at hq'
      -- only `clone` makes a process
      have hproc : num ∈ processCalls := by
        by_contra hproc
        rw [dispatch_same_procs hd hproc, hprocs] at hq'
        exact hq hq'
      obtain ⟨hfds, hnew⟩ := dispatch_shared hd hproc
      rw [hprocs, hcur] at hnew
      have hparent := (hnew q hq').resolve_left hq
      rw [Kernel.denotes, Kernel.denotes, if_pos ((hmem q).mpr hq'), if_pos hparent, htable, hfds, hio]

/-! ## Section 3: A parent and its child -/

theorem Step.fd_table {env : Env} {s t : System} {l : Trap} (h : Step env s l t)
    (hnum : (s.trapCpu l).num ∈ processCalls) : t.k.io.fd_table = s.k.io.fd_table := by
  obtain ⟨m, k1, -, hd, hexit⟩ := step_iff.mp h
  have htable : t.k.io.fd_table = k1.io.fd_table := congrArg Prod.fst (trap_exit_shared hexit)
  exact htable.trans (dispatch_shared hd hnum).1

/-- The first process has cloned itself, and the child runs. -/
def clonedTable : Table := ⟨[(1, ⟨1, 0, .Ready, 0⟩), (2, ⟨2, 1, .Running, 0⟩)], 2, 3⟩

theorem clone_from_start : ∃ s t l, CalmStart Env.quiet s ∧ Step Env.quiet s l t ∧ (s.trapCpu l).num = 220 ∧
    t.k.table = clonedTable ∧ t.k.io.fd_table = FdTable.new := by
  obtain ⟨s, hs, hroom, -, hio⟩ := start_exists fun _ => 0
  have htable := hs.start.table
  obtain ⟨t, ⟨l, hl, hshow, -⟩, -, -, htable'⟩ := script_step Env.quiet (fun _ _ => 0) .clone
    ⟨1, 220, ⟨0, 0, 0, 0, 0, 0⟩, 2, false⟩ clonedTable hs.inv hroom (by rw [htable]; decide +kernel)
  have hnum : (s.trapCpu l).num = 220 := hshow.num.symm
  have hfds : t.k.io.fd_table = s.k.io.fd_table := hl.fd_table (by rw [hnum]; decide)
  exact ⟨s, t, l, hs, hl, hnum, htable', by rw [hfds, hio]; rfl⟩

/-- A `clone` leaves all descriptors, and the child starts with those of its parent. -/
theorem descriptors_separate_clone : ∃ s t l, CalmStart Env.quiet s ∧ Step Env.quiet s l t ∧
    t.k.table = clonedTable ∧ Separate s.k t.k := by
  obtain ⟨s, t, l, hs, hl, hnum, htable, -⟩ := clone_from_start
  obtain ⟨m, -, hm, -⟩ := step_iff.mp hl
  refine ⟨s, t, l, hs, hl, htable, (descriptors_separate_iff Env.quiet hm hl).mpr (Or.inr (Or.inl ?_))⟩
  rw [hnum]
  decide

/-- Standard input is copied to the next number. -/
theorem run_dup2_new {M : Machine HeapAllocator Halt} {s : St HeapAllocator Io} (h : s.st.fd_table = FdTable.new) :
    ∃ t, run M (sys_dup2 (toIsize 0) (toIsize 3)) s = .ok 3 t ∧ t.st.fd_table.get 3 = some FdTable.stdio := by
  refine ⟨{ s with st := { s.st with fd_table := ⟨FdTable.new.files ++ [some FdTable.stdio], 64⟩ } }, ?_, rfl⟩
  have hdup : run M (FdTable.new.dup2 0 3 : IoM (FdTable × Bool)) s =
      .ok (⟨FdTable.new.files ++ [some FdTable.stdio], 64⟩, true) s := by
    have hresize : run M (FdTable.new.resize 4 : IoM FdTable) s = .ok ⟨FdTable.new.files ++ [none], 64⟩ s := rfl
    unfold FdTable.dup2
    rw [show FdTable.new.get 0 = some FdTable.stdio from rfl]
    dsimp only
    rw [if_pos (by decide), wadd_of_lt (by decide), run_bind_of_ok _ hresize]
    rfl
  unfold sys_dup2
  rw [run_get_bind, h, show ofIsize (toIsize 0) = 0 by decide, show ofIsize (toIsize 3) = 3 by decide,
    run_bind_of_ok _ hdup]
  rfl

/-- A step that makes an input or output call. -/
theorem io_step_exists (env : Env) {s : System} {r : Request} {ret : Int} {c : IoM Int} {T : Table}
    (hnum : s.k.table.Numbered) (hc : io_call env r.num.toNat r.args = some c)
    (hrun : ∀ k : Kernel, k.io = s.k.io → ∃ v, run (machine k.satp) c k.view = .ok ret v)
    (htrap : s.k.table.trap r.num.toNat r.args ret = some T) :
    ∃ t l, Step env s l t ∧ (s.trapCpu l).num = r.num.toNat ∧ (s.trapCpu l).args = r.args ∧ t.k.table = T := by
  have hn : (s.trapCpu ⟨s.request r 0, ret⟩).num = r.num.toNat := rfl
  have ha : (s.trapCpu ⟨s.request r 0, ret⟩).args = r.args := rfl
  have hio : ((s.k.withMem s.k.mm.mem).enter (s.trapCpu ⟨s.request r 0, ret⟩)).io = s.k.io := rfl
  have hd : ∃ k', dispatch env (s.trapCpu ⟨s.request r 0, ret⟩).num (s.trapCpu ⟨s.request r 0, ret⟩).args
      ((s.k.withMem s.k.mm.mem).enter (s.trapCpu ⟨s.request r 0, ret⟩)) = .ok ret k' := by
    rw [hn, ha]
    generalize (s.k.withMem s.k.mm.mem).enter (s.trapCpu ⟨s.request r 0, ret⟩) = k at hio
    obtain ⟨v, hv⟩ := hrun k hio
    refine ⟨k.setView v, ?_⟩
    unfold dispatch
    simp only [hc]
    exact KM.io_eq_ok.mpr ⟨v, hv, rfl⟩
  obtain ⟨k', hd⟩ := hd
  rw [← hn, ← ha] at htrap
  obtain ⟨t, hstep, htable⟩ := step_exists hnum rfl hd htrap
  exact ⟨t, _, hstep, hn, ha, htable⟩

/-- **Counterexample**: the child copies standard input to 3, and 3 is open for the
    parent, for which it was not. -/
theorem dup2_seen_by_parent : ∃ s t u l l', CalmStart Env.quiet s ∧ Step Env.quiet s l t ∧
    Step Env.quiet t l' u ∧ t.k.current_pid = 2 ∧ (t.trapCpu l').num = 24 ∧
    (t.trapCpu l').args = ⟨0, 3, 0, 0, 0, 0⟩ ∧ 1 ∈ t.k.procs ∧ 1 ∈ u.k.procs ∧
    t.k.denotes 1 3 = none ∧ u.k.denotes 1 3 ≠ none ∧ ¬ Separate t.k u.k := by
  obtain ⟨s, t, l, hs, hl, -, htable, hfds⟩ := clone_from_start
  have hnumbered : t.k.table.Numbered := by
    rw [htable]
    show ∀ p ∈ clonedTable.procs, p.1 < clonedTable.next_pid
    decide
  have hdup : ∀ k : Kernel, k.io = t.k.io →
      ∃ v, run (machine k.satp) (sys_dup2 (toIsize 0) (toIsize 3)) k.view = .ok 3 v := by
    intro k hk
    have hnew : k.view.st.fd_table = FdTable.new := (congrArg Io.fd_table hk).trans hfds
    obtain ⟨v, hv, -⟩ := run_dup2_new hnew
    exact ⟨v, hv⟩
  have htrap : t.k.table.trap 24 ⟨0, 3, 0, 0, 0, 0⟩ 3 =
      some ⟨[(1, ⟨1, 0, .Running, 0⟩), (2, ⟨2, 1, .Ready, 0⟩)], 1, 3⟩ := by
    rw [htable]
    decide +kernel
  obtain ⟨u, l', hu, hnum, hargs, htable'⟩ := io_step_exists Env.quiet (s := t) (r := ⟨24, 0, 3, 0⟩) hnumbered rfl hdup
    htrap
  have hcur : t.k.current_pid = 2 := congrArg Table.current htable
  have hmem : ∀ (k : Kernel) (T : Table), k.table = T → (T.get 1).isSome → 1 ∈ k.procs := by
    intro k T hT hget
    rw [← hT, Kernel.table_get, Option.isSome_map] at hget
    exact Std.TreeMap.mem_iff_isSome_getElem?.mpr hget
  have hparent : 1 ∈ t.k.procs := hmem t.k _ htable (by decide +kernel)
  have hparent' : 1 ∈ u.k.procs := hmem u.k _ htable' (by decide +kernel)
  have hclosed : t.k.denotes 1 3 = none := by
    rw [Kernel.denotes, if_pos hparent, hfds]
    rfl
  -- the call has copied standard input
  have hopen : u.k.denotes 1 3 ≠ none := by
    obtain ⟨m, k1, -, hd, hexit⟩ := step_iff.mp hu
    have hio : ((t.k.withMem m).enter (t.trapCpu l')).io = t.k.io := rfl
    rw [hnum, hargs] at hd
    generalize (t.k.withMem m).enter (t.trapCpu l') = k0 at hd hio
    have hcall : KM.io (sys_dup2 (toIsize 0) (toIsize 3)) k0 = .ok l'.ret k1 := hd
    obtain ⟨v, hv, rfl⟩ := KM.io_eq_ok.mp hcall
    obtain ⟨v', hv', hget⟩ := run_dup2_new (M := machine k0.satp) (s := k0.view)
      ((congrArg Io.fd_table hio).trans hfds)
    obtain ⟨-, rfl⟩ := EStateM.Result.ok.inj (hv.symm.trans hv')
    have htab : u.k.io.fd_table = v.st.fd_table := congrArg Prod.fst (trap_exit_shared hexit)
    rw [Kernel.denotes, if_pos hparent', ne_eq, FdTable.denotes_eq_none, htab, hget]
    exact Option.some_ne_none _
  refine ⟨s, t, u, l, l', hs, hl, hu, hcur, hnum, hargs, hparent, hparent', hclosed, hopen, ?_⟩
  intro hsep
  apply hopen
  rw [hsep.others 1 hparent hparent' (by omega) 3, hclosed]

end Rvos

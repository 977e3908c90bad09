import Rvos.Kernel.Boot

/-! # Traps that return

    A trap whose call returns comes back to user code unless no process is left to
    run (`step_exists`).  The plain calls of the process interface (`getpid`,
    `clone`, `exit`, `wait4` without a status) return as long as there are frames
    for the copies (`plain_step`), with the result and the table that can be
    computed from the table before. -/

namespace Rvos

open Access ByteMem Usize

/-! ## Section 1: The scheduler returns -/

section Schedule

variable {k k' : Kernel} {T : Table}

theorem ready_pids_get {pid : Nat} (h : pid ∈ k.ready_pids) : ∃ p, k.procs[pid]? = some p := by
  unfold Kernel.ready_pids at h
  obtain ⟨⟨q, p⟩, hmem, rfl⟩ := List.mem_map.mp h
  refine ⟨p, ?_⟩
  rw [← Assoc.lookup_toList]
  exact (Assoc.ascending_toList k.procs).lookup_of_mem (List.mem_filter.mp hmem).1

/-- The scheduler halts only if its caller is a zombie and no process is ready. -/
theorem do_schedule_returns (tf : Nat) (h : (k.table.set_state k.table.current Table.yield).pick = some T) :
    ∃ sp k', do_schedule tf k = .ok sp k' := by
  rw [← Kernel.table_save k (read_raw k.mm.mem tf)] at h
  rw [do_schedule_eq]
  have hcur1 : k.current_pid = (k.save (read_raw k.mm.mem tf)).current_pid := rfl
  rw [hcur1]
  generalize k.save (read_raw k.mm.mem tf) = k1 at h
  unfold Table.pick at h
  rw [Kernel.table_ready, show k1.table.get k1.table.current = k1.current.map Process.entry from
    k1.table_get _] at h
  unfold schedule_saved
  rw [Prog.bind_run, Prog.get_run]
  have hpid : k1.table.current = k1.current_pid := rfl
  rw [hpid] at h
  cases hpick : pick_next k1.ready_pids k1.current_pid with
  | none =>
    cases hcur : k1.current with
    | none =>
      simp only [hpick, hcur]
      exact ⟨_, _, rfl⟩
    | some p =>
      have hz : p.state ≠ .Zombie := by
        intro hz
        have hentry : p.entry.state = .Zombie := hz
        simp [hpick, hcur, hentry] at h
      simp only [hpick, hcur, if_neg hz]
      exact ⟨_, _, rfl⟩
  | some next =>
    by_cases hne : next = k1.current_pid
    · simp only [hpick, if_pos hne]
      exact ⟨_, _, rfl⟩
    · obtain ⟨p, hp⟩ := ready_pids_get (Table.pick_next_mem hpick)
      simp only [hpick, if_neg hne, hp]
      exact ⟨_, _, rfl⟩

/-- **A step**: if the call returns and the table says that a process can go on. -/
theorem step_exists {env : Env} {s : System} {b : Burst} {ret : Int} {m : Mem}
    (hnum : s.k.table.Numbered) (hm : user_stores s.k.satp s.k.mm.mem b.stores = some m)
    (hd : dispatch env (s.trapCpu ⟨b, ret⟩).num (s.trapCpu ⟨b, ret⟩).args
      ((s.k.withMem m).enter (s.trapCpu ⟨b, ret⟩)) = .ok ret k')
    (htrap : s.k.table.trap (s.trapCpu ⟨b, ret⟩).num (s.trapCpu ⟨b, ret⟩).args ret = some T) :
    ∃ t, Step env s ⟨b, ret⟩ t ∧ t.k.table = T := by
  have hcall := dispatch_table (k := (s.k.withMem m).enter (s.trapCpu ⟨b, ret⟩)) hnum hd
  obtain ⟨k1, hfinish⟩ : ∃ k1, handler_finish (s.trapCpu ⟨b, ret⟩).tf (s.trapCpu ⟨b, ret⟩).num ret k' =
      .ok () k1 := by
    obtain ⟨m2, hfinish, -⟩ := handler_finish_run (s.trapCpu ⟨b, ret⟩).tf
      (s.trapCpu ⟨b, ret⟩).num ret k'
    exact ⟨_, hfinish⟩
  have hblock := handler_finish_table hfinish
  rw [hcall] at hblock
  have hpick : (k1.table.set_state k1.table.current Table.yield).pick = some T := by
    rw [hblock, Table.block_current, Table.call_current]
    exact htrap
  obtain ⟨sp, k2, hsched⟩ := do_schedule_returns (s.trapCpu ⟨b, ret⟩).tf hpick
  have hexit : trap_exit (s.trapCpu ⟨b, ret⟩) ret k' =
      .ok ((s.trapCpu ⟨b, ret⟩).restore (read_raw k2.mm.mem sp) sp) k2 := by
    unfold trap_exit
    rw [Prog.bind_of_ok hfinish, Prog.bind_of_ok hsched]
    rfl
  have hstep : Step env s ⟨b, ret⟩ ⟨k2, (s.trapCpu ⟨b, ret⟩).restore (read_raw k2.mm.mem sp) sp⟩ :=
    step_iff.mpr ⟨m, k', hm, hd, hexit⟩
  refine ⟨_, hstep, ?_⟩
  have htable := hstep.table hnum
  rw [htrap] at htable
  exact (Option.some.inj htable).symm

end Schedule

/-! ## Section 2: Plain calls -/

/-- `getpid`, `clone`, `exit`, and `wait4` without a status. -/
def Plain (num : Nat) (a : Args) : Prop :=
  num = 172 ∨ num = 220 ∨ num = 93 ∨ (num = 260 ∧ a.a1 = 0)

instance (num : Nat) (a : Args) : Decidable (Plain num a) := inferInstanceAs (Decidable (_ ∨ _))

/-- What a plain call returns. -/
def Table.answer (T : Table) (num : Nat) (a : Args) : Int :=
  if num = 220 then T.next_pid
  else if num = 93 then 0
  else if num = 260 then T.wait_result (toIsize a.a0) (toIsize a.a2)
  else T.current

/-- The user pages of one process. -/
def pagesBound : Nat := 162

/-- There is room for `n` more copies, of small address spaces. -/
structure Kernel.Roomy (k : Kernel) (n : Nat) : Prop where
  end_eq : k.mm.pages.end_ = 0x8800_0000
  users : ∀ r ∈ roots k.home, (userPages k.mm.mem r).ncard ≤ pagesBound
  room : k.mm.pages.current + 4096 * (640 * n) ≤ 0x8600_0000

section PlainCalls

variable {env : Env} {k k' : Kernel} {num n : Nat} {a : Args}

theorem userPages_same {m m' : Mem} {r : Nat} (h : SameEntries m m' r 2) :
    userPages m' r = userPages m r := by
  ext v
  unfold userPages
  simp only [Set.mem_ofPred_eq]
  rw [userLeaf_congr (leaf_of_same h v)]

theorem Kernel.Roomy.same (h : k.Roomy n) (hpages : k'.mm.pages = k.mm.pages)
    (hroots : roots k'.home ⊆ roots k.home)
    (hsame : ∀ r ∈ roots k.home, SameEntries k.mm.mem k'.mm.mem r 2) : k'.Roomy n where
  end_eq := by rw [hpages]; exact h.end_eq
  users := by
    intro r hr
    rw [userPages_same (hsame r (hroots hr))]
    exact h.users r (hroots hr)
  room := by rw [hpages]; exact h.room

/-- Fewer processes. -/
theorem Kernel.Roomy.sub (h : k.Roomy n) (hmm : k'.mm = k.mm)
    (hsub : ∀ q x, k'.home q = some x → k.home q = some x) : k'.Roomy n := by
  refine h.same (by rw [hmm]) ?_ ?_
  · rintro r ⟨q, x, hx, rfl⟩
    exact ⟨q, x, hsub q x hx, rfl⟩
  · intro r _ p g _ _ i
    rw [hmm]

theorem Kernel.Roomy.mono {n' : Nat} (h : k.Roomy n') (hn : n ≤ n') : k.Roomy n :=
  ⟨h.end_eq, h.users, by have := h.room; omega⟩

/-- Nothing but kernel stacks has changed: the tables are the same. -/
theorem Kernel.Inv.same_of_stackOnly (h : k.Inv) (hs : k.StackOnly k') :
    ∀ r ∈ roots k.home, SameEntries k.mm.mem k'.mm.mem r 2 := by
  refine (h.spaces.write (m := k'.mm.mem) fun a hne => ?_).2
  by_contra hloose
  refine hne (hs.mem a fun f hf hin => hloose (Or.inr (Or.inl ⟨f, hf, hin⟩)))

theorem plain_guard (h : k.Roomy n) (hp : Plain num a) : Guard env k num a := by
  have hroom := h.room
  refine ⟨by omega, ?_, ?_, ?_, ?_⟩
  · intro hnum ha
    rcases hp with rfl | rfl | rfl | ⟨-, h0⟩
    · cases hnum
    · cases hnum
    · cases hnum
    · exact absurd h0 ha
  · rintro rfl
    simp [Plain] at hp
  · rintro rfl
    simp [Plain] at hp
  · intro c hc
    rcases hp with rfl | rfl | rfl | ⟨rfl, -⟩ <;> cases hc

/-- The copy of a small address space. -/
theorem clone_returns (h : k.Inv) (hr : k.Roomy (n + 1)) :
    ∃ r' mm1, PageTable.clone_user_space ⟨k.satp⟩ k.mm = .ok (some ⟨r'⟩) mm1 ∧
      Builds k.mm (roots k.home) (kernelStacks k.home) r' mm1 ∧
      CopyOf k.mm.mem k.satp Set.univ mm1.mem r' ∧
      mm1.pages.current + 4096 * (640 * n) + 8192 ≤ 0x8600_0000 := by
  have hroom := hr.room
  have hend := hr.end_eq
  have hcard := hr.users k.satp h.root_mem
  have hframes : cloneFrames k.mm.mem k.satp ≤ 619 := by
    unfold cloneFrames
    unfold pagesBound at hcard
    omega
  obtain ⟨o, mm1, hrun, hq⟩ := (clone_user_space_wp h.spaces.own h.root_mem).total (by
    intro _ _ he
    have := he (h.spaces.kernel _ h.root_mem)
    omega)
  rcases hq with ⟨r', rfl, -, hb, -, hcopy, hused⟩ | ⟨-, -, -, -, -, hfull⟩
  · exact ⟨r', mm1, hrun, hb, hcopy, by linarith⟩
  · omega

theorem userPages_copy {m m' : Mem} {r r' : Nat} (h : CopyOf m r Set.univ m' r') :
    userPages m' r' = userPages m r := by
  ext v
  unfold userPages
  simp only [Set.mem_ofPred_eq]
  cases he : userLeaf m r v with
  | none => simp [h.others v (Or.inr he)]
  | some e =>
    obtain ⟨f, e', he', -⟩ := h.copied v (Set.mem_univ v) e he
    simp [he']

/-- **`clone`** returns, and leaves room for one copy less. -/
theorem sys_clone_returns (h : k.Inv) (hr : k.Roomy (n + 1)) (stack : Nat) :
    ∃ k', sys_clone stack k = .ok k.next_pid k' ∧ k'.Roomy n := by
  obtain ⟨parent, hcur, hpt, hhome⟩ := h.current
  obtain ⟨r', mm1, hclone, hb, hcopy, hroom⟩ := clone_returns h hr
  have hend : mm1.pages.end_ = 0x8800_0000 := hb.end_eq.trans hr.end_eq
  rcases alloc_pages_two_cases hb.own.tables.ok with ⟨hfree, halloc⟩ | ⟨hfull, -⟩
  · obtain ⟨k', hrun⟩ : ∃ k', sys_clone stack k = .ok (k.next_pid : Int) k' := by
      obtain ⟨k1, hfork⟩ : ∃ k1, fork_process k.current_trap_frame k = .ok (some k.next_pid) k1 := by
        unfold fork_process
        rw [Prog.bind_run, Prog.get_run]
        simp only [hcur, hpt]
        rw [Prog.bind_of_ok (KM.mm_of_ok hclone)]
        simp only
        rw [Prog.bind_of_ok (KM.mm_of_ok halloc)]
        exact ⟨_, rfl⟩
      unfold sys_clone
      rw [Prog.bind_run, Prog.get_run]
      simp only
      rw [Prog.bind_of_ok hfork]
      by_cases hs : stack = 0
      · simp only [hs, ne_eq, not_true_eq_false, if_false]
        exact ⟨_, rfl⟩
      · simp only [ne_eq, hs, not_false_eq_true, if_true]
        exact ⟨_, rfl⟩
    refine ⟨k', hrun, ?_⟩
    rcases sys_clone_cases hrun with ⟨hr1, -⟩ |
      ⟨-, p, pt, kstack, mma, mmb, hp, hc, hs, hmm, -, hprocs, -⟩
    · omega
    · rw [hcur] at hp
      cases hp
      rw [hpt, hclone] at hc
      cases hc
      rw [halloc] at hs
      cases hs
      obtain ⟨hb2, hsame2⟩ := hb.stackPages hfree
      have hroots : ∀ r ∈ roots k'.home, r = r' ∨ r ∈ roots k.home := by
        rintro r ⟨q, x, hx, rfl⟩
        unfold Kernel.home at hx
        rw [hprocs] at hx
        split at hx
        · left
          obtain rfl := Option.some.inj hx
          rw [Process.home_onStack]
          rfl
        · exact Or.inr ⟨q, x, hx, rfl⟩
      refine ⟨by rw [hmm]; exact hend, ?_, ?_⟩
      · intro r hr'
        rw [hmm]
        rcases hroots r hr' with rfl | hold
        · rw [userPages_same (hsame2 r hb.root), userPages_copy hcopy]
          exact hr.users _ h.root_mem
        · rw [userPages_same (hb2.same hold)]
          exact hr.users r hold
      · rw [hmm]
        show mm1.pages.current + 4096 + 4096 + 4096 * (640 * n) ≤ _
        linarith
  · omega

/-- **`wait4`** without a status returns. -/
theorem sys_wait4_returns (k : Kernel) (pid options : Int) :
    ∃ k', sys_wait4 pid 0 options k = .ok (k.table.wait_result pid options) k' ∧ k'.mm = k.mm ∧
      ∀ q x, k'.home q = some x → k.home q = some x := by
  unfold sys_wait4 Table.wait_result
  rw [Prog.bind_run, Prog.get_run, Kernel.table_find_zombie]
  cases hz : k.find_zombie pid with
  | none =>
    simp only [hz]
    exact ⟨k, rfl, rfl, fun _ _ hx => hx⟩
  | some zp =>
    simp only [hz, ne_eq, not_true_eq_false, if_false]
    refine ⟨_, rfl, rfl, fun q x hx => ?_⟩
    unfold Kernel.home at hx ⊢
    rw [Assoc.get_erase] at hx
    split at hx
    · cases hx
    · exact hx

/-- **Plain calls return.** -/
theorem plain_dispatch (env : Env) (h : k.Inv) (hr : k.Roomy (n + 1)) (hp : Plain num a) :
    ∃ k', dispatch env num a k = .ok (k.table.answer num a) k' ∧ k'.Roomy n := by
  have hr0 : k.Roomy n := hr.mono (Nat.le_succ n)
  rcases hp with rfl | rfl | rfl | ⟨rfl, ha⟩
  · exact ⟨k, rfl, hr0⟩
  · exact sys_clone_returns h hr a.a1
  · refine ⟨_, sys_exit_eq _ k, hr0.sub rfl fun q x hx => ?_⟩
    have hwoken : ∀ p : Process, p.woken.home = p.home := by
      intro p
      unfold Process.woken
      split <;> rfl
    have hexited : ∀ p : Process, (p.exited (toIsize a.a0)).home = p.home := fun _ => rfl
    rw [home_modify hwoken { k with procs := k.procs.modify k.current_pid (Process.exited _) },
      home_modify hexited] at hx
    exact hx
  · obtain ⟨k', hrun, hmm, hhome⟩ := sys_wait4_returns k (toIsize a.a0) (toIsize a.a2)
    refine ⟨k', ?_, hr0.sub hmm hhome⟩
    show sys_wait4 (toIsize a.a0) a.a1 (toIsize a.a2) k = _
    rw [ha, hrun]
    rfl

variable {s t : System} {b : Burst} {T : Table}

theorem Kernel.Roomy.stackOnly (h : k.Roomy n) (hi : k.Inv) (hs : k.StackOnly k') : k'.Roomy n :=
  h.same hs.pages (by rw [hs.home]) (hi.same_of_stackOnly hs)

/-- The kernel at a call of user code that stores nothing. -/
theorem System.Inv.at_call {l : Trap} (h : s.Inv) (hb : l.burst.stores = []) (hcall : s.AtCall l k) :
    k = s.k.enter (s.trapCpu l) ∧ k.Inv ∧ s.k.StackOnly k := by
  obtain ⟨m, hm, rfl⟩ := hcall
  rw [hb] at hm
  obtain rfl := Option.some.inj hm
  obtain ⟨p, hcur, -, hhome⟩ := h.kernel.current
  have htf : (s.trapCpu l).tf = wsub p.kernel_stack frameSize :=
    congrArg (wsub · frameSize) (h.scratch p hcur)
  refine ⟨rfl, h.kernel.enterAt hhome htf _, h.kernel.stack_only hhome rfl rfl ?_⟩
  intro a ha
  exact enter_out (htf.symm ▸ ha)

/-- **A plain call** of user code that stores nothing: the step exists if a process
    can go on, and its result and table are those computed from the table. -/
theorem plain_step (env : Env) (h : s.Inv) (hr : s.k.Roomy (n + 1)) (hb : b.stores = [])
    (hnum : num = (b.cpu s.cpu.sscratch).num) (ha : a = (b.cpu s.cpu.sscratch).args)
    (hp : Plain num a) (htrap : s.k.table.trap num a (s.k.table.answer num a) = some T) :
    ∃ t, Step env s ⟨b, s.k.table.answer num a⟩ t ∧
      s.Guarded env ⟨b, s.k.table.answer num a⟩ ∧ t.Inv ∧ t.k.Roomy n ∧ t.k.table = T := by
  have hm : user_stores s.k.satp s.k.mm.mem b.stores = some s.k.mm.mem := by
    rw [hb]
    rfl
  subst hnum
  subst ha
  generalize hret : s.k.table.answer (b.cpu s.cpu.sscratch).num (b.cpu s.cpu.sscratch).args = ret at *
  obtain ⟨-, hinv, hstack⟩ := h.at_call (l := ⟨b, ret⟩) hb ⟨_, hm, rfl⟩
  have hroomy := hr.stackOnly h.kernel hstack
  obtain ⟨k', hd, hr'⟩ := plain_dispatch env hinv hroomy hp
  have htable1 : ((s.k.withMem s.k.mm.mem).enter (s.trapCpu ⟨b, ret⟩)).table = s.k.table := rfl
  rw [htable1, hret] at hd
  have hguard : s.Guarded env ⟨b, ret⟩ := by
    intro k1 hcall
    obtain ⟨rfl, -, hstack1⟩ := h.at_call hb hcall
    exact plain_guard (hr.stackOnly h.kernel hstack1) hp
  obtain ⟨t, hstep, htable⟩ := step_exists h.live.ok.numbered hm hd htrap
  obtain ⟨ht, k1, k2, hin, -⟩ := Step.keeps h hguard hstep
  refine ⟨t, hstep, hguard, ht, ?_, htable⟩
  obtain ⟨rfl, -, -⟩ := h.at_call hb hin.call
  obtain rfl : k' = k2 := by
    have hd2 := hin.run
    exact (EStateM.Result.ok.inj (hd.symm.trans hd2)).2
  exact hr'.stackOnly hin.after hin.rest

end PlainCalls

/-! ## Section 3: A first process -/

section First

/-- As many user pages as frames between `lo` and the cursor. -/
theorem userPages_ncard_le {s : Mm} {R K : Set Nat} {r n : Nat} (lo : Nat) (h : Own s R K) (hr : r ∈ R)
    (hlo : ∀ v f, UserPage s.mem r v f → 4096 * lo ≤ 4096 * f)
    (hcur : s.pages.current ≤ 4096 * (lo + n)) : (userPages s.mem r).ncard ≤ n := by
  have hframe : ∀ v ∈ userPages s.mem r, ∃ f, UserPage s.mem r v f := by
    intro v hv
    obtain ⟨e, he⟩ := Option.ne_none_iff_exists'.mp hv
    exact ⟨e.ppn, e, he, rfl⟩
  choose! frame hpage using hframe
  have hmaps : ∀ v ∈ userPages s.mem r, frame v ∈ Set.Ico lo (lo + n) := by
    intro v hv
    have h1 := hlo v _ (hpage v hv)
    have h2 := h.user_below r hr v _ (hpage v hv)
    exact Set.mem_Ico.mpr ⟨by omega, by omega⟩
  have hinj : Set.InjOn frame (userPages s.mem r) := by
    intro v hv w hw hvw
    have hw' := hpage w hw
    rw [← hvw] at hw'
    exact (h.user_one r hr r hr v w _ (hpage v hv) hw').2
  calc (userPages s.mem r).ncard ≤ (Set.Ico lo (lo + n)).ncard :=
        Set.ncard_le_ncard_of_injOn frame hmaps hinj (Set.finite_Ico _ _)
    _ = n := by rw [Set.ncard_eq_toFinset_card', Set.toFinset_Ico, Nat.card_Ico]; omega

/-- A world in which every file is an empty program. -/
def Env.quiet : Env := { Env.idle with parse_elf := fun _ => some ⟨0x10000, 64, 56, []⟩ }

/-- The kernel when `init_user_proc` is called, in a memory full of zeros. -/
def bootKernel : Kernel where
  mm := ⟨fun _ => 0, ⟨0x8020_0000, 0x8800_0000⟩⟩
  heap := init_heap
  satp := 0
  procs := ∅
  current_pid := 0
  next_pid := 1
  current_trap_frame := .new
  mmap_base := 0
  io := .new

theorem bootKernel_boot : Boot bootKernel where
  frames := ⟨by decide, by decide, by decide⟩
  frames_lo := by decide
  frames_end := rfl
  heap_lo := by decide
  heap_hi := by decide
  heap_end := rfl
  procs := rfl
  mmap_base := rfl

/-- The statics behind descriptors can hold anything at boot. -/
theorem Boot.with_io {k : Kernel} (h : Boot k) (io : Io) : Boot { k with io := io } :=
  ⟨h.frames, h.frames_lo, h.frames_end, h.heap_lo, h.heap_hi, h.heap_end, h.procs, h.mmap_base⟩

theorem quiet_image : ¬ ImageFails Env.quiet init_heap [] := by
  rintro (h | h)
  · revert h
    decide +kernel
  · exact h _ rfl rfl

/-- The registers that `run_user` leaves: those of the trap frame. -/
def Process.cpu (p : Process) (f : Regs) : Cpu where
  x := setReg p.trap_frame.regs 0 0
  f := f
  pc := p.trap_frame.sepc
  sstatus := p.trap_frame.sstatus
  sscratch := p.kernel_stack

/-- The environment of the first process fits its stack. -/
theorem path_fits : StackFits ([] ++ [utf8 "PATH=/bin"]) := by
  have hlen : (utf8 "PATH=/bin").length = 9 := by decide +kernel
  intro i str hi
  cases i with
  | zero =>
    obtain rfl := Option.some.inj hi
    omega
  | succ i => cases hi

/-- The first process starts to run, in an address space of its own from the
    first frame on, and with room for many copies. -/
structure First (f : Regs) (io : Io) (s : System) : Prop where
  calm : CalmStart Env.quiet s
  roomy : s.k.Roomy 30
  fregs : s.cpu.f = f
  io : s.k.io = io
  satp : s.k.satp = 0x80200
  home : s.k.home = oneHome ⟨0x80200, 0x8020_3000⟩
  nodes : ∀ p g, p.length ≤ 2 → node s.k.mm.mem 0x80200 p = some g → 0x80200 ≤ g

/-- **There is a first process**, with any floating-point registers and any statics
    behind descriptors. -/
theorem first_exists (f : Regs) (io : Io) : ∃ s, First f io s := by
  have hfit := path_fits
  -- of the kernel at boot only these facts are used
  obtain ⟨k0, hboot, hio0, hheap0, hcur0⟩ : ∃ k0, Boot k0 ∧ k0.io = io ∧ k0.heap = init_heap ∧
      k0.mm.pages.current = 0x8020_0000 :=
    ⟨{ bootKernel with io := io }, bootKernel_boot.with_io io, rfl, rfl, rfl⟩
  have hnext : k0.mm.next = 0x80200 := by
    unfold Mm.next
    rw [hcur0]
  have hroom : k0.mm.pages.current + 4096 * bootFrames ≤ 0x8600_0000 := by
    rw [hcur0]
    decide
  have himage : ¬ ImageFails Env.quiet k0.heap [] := hheap0 ▸ quiet_image
  obtain ⟨o, k1, hinit, hsome, hnone, hused⟩ :=
    (init_user_proc_wp hboot Env.quiet [] hroom hfit).total fun _ _ => himage
  cases o with
  | none => exact absurd (hnone rfl) himage
  | some u =>
    obtain ⟨hsound, hb, hhome⟩ := hsome rfl
    rw [hnext] at hb hhome
    rw [hcur0] at hhome hused
    have hused := hused.resolve_left himage
    obtain ⟨proc, elf, max_end, ka, kb, hnew, hload, hk1⟩ := init_user_proc_cases hinit
    have hpid : k1.current_pid = 1 := by rw [hk1]
    have hio : k1.io = io := by
      have hrest := ((rest_load_program _ _ _ _ _).of_ok hload).trans ((rest_mm _).of_ok hnew)
      simp only [Kernel.rest, Prod.mk.injEq] at hrest
      rw [hk1, ← hio0]
      exact hrest.2.2.2.2.2.2
    obtain ⟨p, hp⟩ : ∃ p, k1.procs[1]? = some p := by
      rw [hk1]
      exact ⟨_, by rw [Assoc.get_insert, if_pos rfl]⟩
    have hcur : ({ k1 with satp := p.page_table.root_ppn } : Kernel).current = some p := by
      show k1.procs[k1.current_pid]? = some p
      rw [hpid, hp]
    have hroot : p.page_table.root_ppn = 0x80200 := by
      have hx : k1.home 1 = some p.home := by
        unfold Kernel.home
        rw [hp]
        rfl
      rw [hhome, oneHome, if_pos rfl] at hx
      exact (congrArg Home.root (Option.some.inj hx)).symm
    refine ⟨⟨{ k1 with satp := p.page_table.root_ppn }, p.cpu f⟩, ?_, ?_, rfl, hio, hroot, hhome, ?_⟩
    · refine ⟨_, k1, [], [], _, hboot, hroom, hfit, hinit, rfl,
        ⟨p, hcur, rfl, rfl, rfl, rfl, ?_⟩, ?_⟩
      · rfl
      · rfl
    · refine ⟨hb.end_eq.trans hboot.frames_end, ?_, ?_⟩
      · rintro r ⟨q, x, hx, rfl⟩
        have hx' : k1.home q = some x := hx
        rw [hhome] at hx'
        unfold oneHome at hx'
        split at hx'
        · cases hx'
          refine userPages_ncard_le 0x80200 hb.own hb.root ?_ ?_
          · intro v g hu
            have := hb.users v g hu
            omega
          · exact hused
        · cases hx'
      · have hbound : k1.mm.pages.current ≤ 0x8020_0000 + 4096 * 162 := hused
        show k1.mm.pages.current + 4096 * (640 * 30) ≤ _
        omega
    · intro q g hq hg
      have := hb.nodes q g hq hg
      omega

/-- The first process of a kernel whose statics are at their start. -/
theorem start_exists (f : Regs) :
    ∃ s, CalmStart Env.quiet s ∧ s.k.Roomy 30 ∧ s.cpu.f = f ∧ s.k.io = .new := by
  obtain ⟨s, hs⟩ := first_exists f .new
  exact ⟨s, hs.calm, hs.roomy, hs.fregs, hs.io⟩

end First

/-! ## Section 4: Scripts -/

/-- A plain call of user code. -/
structure Request where
  num : Word
  a0 : Word
  a1 : Word
  a2 : Word
  deriving DecidableEq

def Request.args (r : Request) : Args := ⟨r.a0.toNat, r.a1.toNat, r.a2.toNat, 0, 0, 0⟩

def Request.getpid : Request := ⟨172, 0, 0, 0⟩

def Request.clone : Request := ⟨220, 0, 0, 0⟩

def Request.exit (code : Word) : Request := ⟨93, code, 0, 0⟩

def Request.wait4 (pid options : Word) : Request := ⟨260, pid, 0, options⟩

/-- What is seen of the call in a state with the table `T`. -/
def Request.event (r : Request) (T : Table) : Event :=
  ⟨T.current, r.num.toNat, r.args, T.answer r.num.toNat r.args, false⟩

/-- Calls in a row: what is seen of them, and the table at the end; `none` if one
    of them is not plain, or if no process is left to run. -/
def Table.script : Table → List Request → Option (List Event × Table)
  | T, [] => some ([], T)
  | T, r :: rs =>
    if Plain r.num.toNat r.args then
      (T.trap r.num.toNat r.args (T.answer r.num.toNat r.args)).bind fun T' =>
        (T'.script rs).map fun p => (r.event T :: p.1, p.2)
    else none

/-- User code that makes the call, with all other registers changed. -/
def System.request (s : System) (r : Request) (f : Regs) : Burst where
  x := fun i =>
    if i = 17 then r.num else if i = 10 then r.a0 else if i = 11 then r.a1 else if i = 12 then r.a2
    else if i = 13 ∨ i = 14 ∨ i = 15 then 0 else s.cpu.x i + 1
  f := f
  pc := s.cpu.pc
  sstatus := s.cpu.sstatus
  stores := []

/-- A step with all that is known of it: its guard, and the floating-point
    registers of its process. -/
def Performs (env : Env) (fs : Nat → Regs) (s : System) (e : Event) (t : System) : Prop :=
  ∃ l, Step env s l t ∧ l.Shows s e ∧ s.Guarded env l ∧ l.burst.f = fs e.pid

section Scripts

variable {env : Env} {fs : Nat → Regs} {s t : System} {e : Event} {es : List Event} {T : Table}

theorem Performs.happens (h : Performs env fs s e t) : Happens env s e t := by
  obtain ⟨l, hstep, hshow, -, -⟩ := h
  exact ⟨l, hstep, hshow⟩

theorem Performs.run (h : LTS.Steps (Performs env fs) s es t) : LTS.Steps (Happens env) s es t :=
  h.mono fun _ _ _ hl => hl.happens

theorem System.request_ne_idle (s : System) (r : Request) (f : Regs) : s.request r f ≠ s.idle := by
  intro h
  have h5 : s.cpu.x 5 + 1 = s.cpu.x 5 := congrFun (congrArg Burst.x h) 5
  simp at h5

/-- One call of a script. -/
theorem script_step (env : Env) (fs : Nat → Regs) (r : Request) (e : Event) (T : Table) {n : Nat}
    (h : s.Inv) (hr : s.k.Roomy (n + 1))
    (hscript : s.k.table.script [r] = some ([e], T)) :
    ∃ t, Performs env fs s e t ∧ t.Inv ∧ t.k.Roomy n ∧ t.k.table = T := by
  unfold Table.script at hscript
  split at hscript
  · next hp =>
    obtain ⟨T', htrap, hrest⟩ := Option.bind_eq_some_iff.mp hscript
    cases hrest
    obtain ⟨u, hstep, hguard, hu, hroomy, htable⟩ := plain_step env
      (b := s.request r (fs s.k.current_pid)) h hr rfl rfl rfl hp htrap
    refine ⟨u, ⟨_, hstep, ⟨rfl, rfl, rfl, rfl, ?_⟩, hguard, rfl⟩, hu, hroomy, htable⟩
    simp only [Request.event, Bool.false_eq_true, false_iff]
    exact s.request_ne_idle r _
  · cases hscript

theorem script_cons {r : Request} {rs : List Request} {T0 : Table}
    (h : T0.script (r :: rs) = some (es, T)) :
    ∃ e es' T', es = e :: es' ∧ T0.script [r] = some ([e], T') ∧ T'.script rs = some (es', T) := by
  unfold Table.script at h
  split at h
  · next hp =>
    obtain ⟨T', htrap, hrest⟩ := Option.bind_eq_some_iff.mp h
    obtain ⟨⟨es', T2⟩, hscript', heq⟩ := Option.map_eq_some_iff.mp hrest
    cases heq
    refine ⟨_, es', T', rfl, ?_, hscript'⟩
    unfold Table.script
    rw [if_pos hp, htrap]
    rfl
  · cases h

/-- **Scripts run.** -/
theorem script_run (env : Env) (fs : Nat → Regs) : ∀ {rs : List Request} {s : System} {es : List Event} {n : Nat}, s.Inv →
    s.k.Roomy (n + rs.length) → s.k.table.script rs = some (es, T) →
    ∃ t, LTS.Steps (Performs env fs) s es t ∧ t.Inv ∧ t.k.Roomy n ∧ t.k.table = T := by
  intro rs
  induction rs with
  | nil =>
    intro s es n h hr hscript
    cases hscript
    exact ⟨s, LTS.Steps.nil s, h, hr, rfl⟩
  | cons r rs ih =>
    intro s es n h hr hscript
    obtain ⟨e, es', T', rfl, hone, hrest⟩ := script_cons hscript
    obtain ⟨u, hstep, hu, hroomy, htable⟩ := script_step env fs r e T' h hr hone
    obtain ⟨t, hrun, ht⟩ := ih hu hroomy (by rw [htable]; exact hrest)
    exact ⟨t, LTS.Steps.cons hstep hrun, ht⟩

/-- A script from the start. -/
theorem script_start (fs : Nat → Regs) (rs : List Request) (es : List Event) (T : Table)
    (hlen : rs.length ≤ 30)
    (h : firstTable.script rs = some (es, T)) :
    ∃ s t, CalmStart Env.quiet s ∧ LTS.Steps (Performs Env.quiet fs) s es t ∧ t.Inv ∧
      t.k.Roomy (30 - rs.length) ∧ t.k.table = T := by
  obtain ⟨s, hs, hr, -⟩ := start_exists (fun _ => 0)
  have hsum : 30 - rs.length + rs.length = 30 := by omega
  obtain ⟨t, hrun, ht⟩ := script_run Env.quiet fs (n := 30 - rs.length) hs.inv
    (hsum.symm ▸ hr) (by rw [hs.start.table]; exact h)
  exact ⟨s, t, hs, hrun, ht⟩

end Scripts

end Rvos

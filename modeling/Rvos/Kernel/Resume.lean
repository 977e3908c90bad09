import Rvos.Kernel.Reach

/-! # Registers across traps

    While a process does not run, its registers are in three places: in the frame
    on its kernel stack, in `CURRENT_TRAP_FRAME`, and in the process table.  Seen
    from outside none of this shows: a process that is resumed finds the
    registers of its own last trap, with the result of the call in `a0`.

    * `Follows` : how the registers of a process follow from the traps so far.
    * `registers_resumed` : they do so in every run that meets its guards.
    * `register_overwritten` : without the guard, a call can store into the frame
      of its own caller. -/

namespace Rvos

open Access ByteMem Usize

/-! ## Section 1: The traps of a run -/

/-- A trap: who made it, with which registers, and the step it belongs to. -/
structure Entered where
  pid : Nat
  cpu : Cpu
  trap : Trap

/-- One step, with its trap. -/
def Enters (env : Env) (s : System) (e : Entered) (t : System) : Prop :=
  Step env s e.trap t ∧ e.pid = s.k.current_pid ∧ e.cpu = s.trapCpu e.trap

/-- The condition on a step: its call meets its guard. -/
def Entered.Calm (env : Env) (s : System) (e : Entered) : Prop := s.Guarded env e.trap

/-- The last trap of a process. -/
def lastTrap (pid : Nat) (es : List Entered) : Option Entered :=
  (es.filter fun e => e.pid = pid).getLast?

/-- The registers with which the trap returns: the result in `a0` and the next
    instruction, the same instruction after a `wait4` that blocks, and a new
    instruction and stack pointer after a successful `execve`. -/
def Entered.Returns (e : Entered) (c : Context) : Prop :=
  ∃ entry sp, c = e.cpu.context.returned e.cpu.num e.trap.ret entry sp

/-- How the registers of `pid` follow from the traps so far: from its own last
    one, or, before its first, from the `clone` that created it. -/
def Follows (es : List Entered) (pid : Nat) (c : Context) : Prop :=
  (∃ e, lastTrap pid es = some e ∧ e.Returns c) ∨
  (lastTrap pid es = none ∧ ∃ e ∈ es, e.cpu.num = 220 ∧ e.trap.ret = pid ∧
    c = e.cpu.context.forked e.cpu.args.a1)

/-- What user code is resumed with: the table and the kernel stack of the current
    process, and the registers that follow from the traps so far. -/
def Resumed (es : List Entered) (t : System) : Prop :=
  ∃ p, t.k.current = some p ∧ t.k.satp = p.page_table.root_ppn ∧ t.cpu.sscratch = p.kernel_stack ∧
    Follows es t.k.current_pid t.cpu.context

theorem lastTrap_snoc (pid : Nat) (es : List Entered) (e : Entered) :
    lastTrap pid (es ++ [e]) = if e.pid = pid then some e else lastTrap pid es := by
  unfold lastTrap
  rw [List.filter_append]
  by_cases h : e.pid = pid <;> simp [h]

theorem lastTrap_none {pid : Nat} {es : List Entered} (h : ∀ e ∈ es, e.pid ≠ pid) :
    lastTrap pid es = none := by
  unfold lastTrap
  rw [List.filter_eq_nil_iff.mpr]
  · rfl
  · intro e he
    simpa using h e he

/-- The trap of another process changes nothing. -/
theorem Follows.other {es : List Entered} {pid : Nat} {c : Context} {e : Entered}
    (h : Follows es pid c) (hne : e.pid ≠ pid) : Follows (es ++ [e]) pid c := by
  unfold Follows
  rw [lastTrap_snoc, if_neg hne]
  rcases h with h | ⟨hnone, e', he', h⟩
  · exact Or.inl h
  · exact Or.inr ⟨hnone, e', List.mem_append_left _ he', h⟩

/-! ## Section 2: One step -/

/-- What is kept along a run: every process has registers that follow from its
    traps, except the first one before its first trap. -/
structure Tracked (es : List Entered) (t : System) : Prop where
  inv : t.Inv
  pids : ∀ e ∈ es, e.pid < t.k.next_pid
  follows : ∀ q c, t.context q = some c → (es = [] ∧ q = t.k.current_pid) ∨ Follows es q c

section Step

variable {env : Env} {s t : System} {e : Entered} {es : List Entered} {k k' : Kernel}

/-- The registers of a new child are those that its parent trapped with. -/
theorem forked_context (parent : Process) (cpu : Cpu) (tf : TrapFrame) (pid ppid kstack stack : Nat)
    (pt : PageTable) (hx : tf.regs = cpu.x) (hpc : tf.sepc = cpu.pc) (hst : tf.sstatus = cpu.sstatus) :
    ((parent.forked tf pid ppid pt kstack).onStack stack).trap_frame.context =
      cpu.context.forked stack := by
  unfold Process.onStack Process.forked TrapFrame.context Context.forked Cpu.context
  have h10 : (10 : Fin 32) ≠ 0 := by decide
  have h2 : (2 : Fin 32) ≠ 0 := by decide
  by_cases hs : stack = 0
  · simp only [hs, ne_eq, not_true_eq_false, if_false, hx, hpc, hst]
    rw [setReg_comm cpu.x h10.symm, setReg_idem]
  · simp only [hs, ne_eq, not_false_eq_true, if_true, hx, hpc, hst]
    rw [setReg_comm cpu.x h10.symm, setReg_comm _ h2.symm, setReg_idem]

/-- Process numbers are never given back. -/
theorem Step.next_pid_le {l : Trap} (h : s.Inv) (hstep : Step env s l t) :
    s.k.next_pid ≤ t.k.next_pid := by
  obtain ⟨e, he⟩ := l.exists_event s
  have hn := Happens.next h.live.ok.numbered ⟨l, hstep, he⟩
  obtain ⟨hkept, -, -⟩ := h.live.next hn
  have hacted : s.k.table.next_pid ≤ (s.k.table.acted e).next_pid := by
    cases Table.acted_cases hn.returns with
    | exit hexit hT => rw [hT]; exact Nat.le_refl _
    | fork hnum hret hT => rw [hT]; exact Nat.le_succ _
    | reap z hnum hz hret hT => rw [hT]; exact Nat.le_refl _
    | block hblock hz hT => rw [hT]; exact Nat.le_refl _
    | other hexit hclone hwait hT => rw [hT]
  exact hacted.trans (Nat.le_of_eq hkept.next_pid.symm)

/-- The registers that the child of a `clone` finds. -/
theorem Inside.child_context {l : Trap} {k1 k2 : Kernel} {p : Process} (h : Inside env s l t k1 k2)
    (hnum : (s.trapCpu l).num = 220) (hret : l.ret = k1.next_pid)
    (hp : k2.procs[k1.next_pid]? = some p) :
    p.trap_frame.context = (s.trapCpu l).context.forked (s.trapCpu l).args.a1 := by
  have hrun := h.run
  rw [hnum] at hrun
  rcases sys_clone_cases (show sys_clone (s.trapCpu l).args.a1 k1 = .ok l.ret k2 from hrun) with
    ⟨hfail, -⟩ | ⟨-, parent, pt, kstack, mm1, mm2, -, -, -, -, -, hprocs, -⟩
  · omega
  · rw [hprocs, if_pos rfl] at hp
    cases hp
    -- `CURRENT_TRAP_FRAME` holds the registers of this trap
    obtain ⟨m, -, rfl⟩ := h.call
    exact forked_context parent (s.trapCpu l) _ _ _ _ _ _ rfl rfl rfl

/-- The registers of a process that did not trap: it has kept them, or it is the
    child that the call has created. -/
theorem Inside.other_context {l : Trap} {k1 k2 : Kernel} {q : Nat} {c : Context}
    (h : Inside env s l t k1 k2) (hregs : Inside.Registers s l t k2) (hq : q ≠ s.k.current_pid)
    (hc : t.context q = some c) :
    s.context q = some c ∨ ((s.trapCpu l).num = 220 ∧ q = s.k.next_pid ∧ l.ret = q ∧
      c = (s.trapCpu l).context.forked (s.trapCpu l).args.a1) := by
  rw [hregs q, if_neg hq] at hc
  obtain ⟨p, hp, rfl⟩ := Option.map_eq_some_iff.mp hc
  have hsame : k1.current_pid = s.k.current_pid ∧ k1.procs = s.k.procs ∧ k1.next_pid = s.k.next_pid := by
    obtain ⟨m, -, rfl⟩ := h.call
    exact ⟨rfl, rfl, rfl⟩
  rcases h.procs q p hp with ⟨p0, hp0, -, halike⟩ | ⟨hnum, hq', hret⟩
  · left
    rw [hsame.2.1] at hp0
    unfold System.context
    rw [if_neg hq, hp0, (halike (Or.inl (hsame.1 ▸ hq))).trap_frame]
    rfl
  · right
    exact ⟨hnum, hq'.trans hsame.2.2, hret, h.child_context hnum (hq' ▸ hret) (hq' ▸ hp)⟩

/-- **One step** keeps the registers of every process, and changes those of the
    caller as its call says. -/
theorem Tracked.step (h : Tracked es s) (hstep : LTS.guarded (Entered.Calm env) (Enters env) s e t) :
    Tracked (es ++ [e]) t := by
  obtain ⟨hcalm, hl, hpid, hcpu⟩ := hstep
  obtain ⟨ht, k1, k2, hin, hregs⟩ := hl.keeps h.inv hcalm
  have hnext := hl.next_pid_le h.inv
  have hcur : e.pid < s.k.next_pid := hpid ▸ h.inv.live.current_lt
  refine ⟨ht, ?_, ?_⟩
  · intro e' he'
    rcases List.mem_append.mp he' with he' | he'
    · exact Nat.lt_of_lt_of_le (h.pids e' he') hnext
    · obtain rfl := List.mem_singleton.mp he'
      exact Nat.lt_of_lt_of_le hcur hnext
  · intro q c hc
    right
    by_cases hq : q = s.k.current_pid
    · -- the caller itself
      rw [hregs q, if_pos hq] at hc
      left
      refine ⟨e, ?_, ?_⟩
      · rw [lastTrap_snoc, if_pos (hpid.trans hq.symm)]
      · rw [← Option.some.inj hc]
        unfold Entered.Returns
        rw [hcpu]
        exact ⟨_, _, rfl⟩
    · have hne : e.pid ≠ q := fun hh => hq (hh.symm.trans hpid)
      rcases hin.other_context hregs hq hc with hold | ⟨hnum, hnew, hret, hchild⟩
      · rcases h.follows q c hold with ⟨-, hcur'⟩ | hfollows
        · exact absurd hcur' hq
        · exact hfollows.other hne
      · -- the new child: no trap of the run so far is its own
        right
        refine ⟨lastTrap_none ?_, e, by simp, ?_, hret, ?_⟩
        · intro e' he'
          rcases List.mem_append.mp he' with he' | he'
          · have := h.pids e' he'
            omega
          · obtain rfl := List.mem_singleton.mp he'
            exact hne
        · rw [hcpu]
          exact hnum
        · rw [hcpu]
          exact hchild

end Step

/-! ## Section 3: Whole runs -/

theorem CalmStart.tracked {env : Env} {s : System} (h : CalmStart env s) : Tracked [] s := by
  refine ⟨h.inv, ?_, ?_⟩
  · intro e he
    cases he
  · intro q c hc
    left
    refine ⟨rfl, ?_⟩
    by_contra hne
    -- there is one process only
    unfold System.context at hc
    rw [if_neg hne] at hc
    obtain ⟨p, hp, -⟩ := Option.map_eq_some_iff.mp hc
    have hget := s.k.table_get q
    rw [hp, h.start.table] at hget
    have hcur : s.k.current_pid = 1 := congrArg Table.current h.start.table
    simp only [Table.get, firstTable, Assoc.lookup] at hget
    simp at hget
    exact hne (hget.1.symm.trans hcur.symm)

/-- **Registers across traps.**  In every run whose calls meet their guards, each
    time user code is resumed, the current process has its own table and kernel
    stack and finds the registers of its last trap, with the result of the call;
    a new child finds those of its parent's `clone`. -/
theorem registers_resumed {env : Env} {s t : System} {es : List Entered} {e : Entered}
    (hstart : CalmStart env s)
    (hrun : LTS.Steps (LTS.guarded (Entered.Calm env) (Enters env)) s (es ++ [e]) t) :
    Resumed (es ++ [e]) t := by
  have h := hrun.history Tracked (fun ls s e t h hstep => h.step hstep) hstart.tracked
  obtain ⟨p, hcur, hpt, -⟩ := h.inv.kernel.current
  have hctx : t.context t.k.current_pid = some t.cpu.context := if_pos rfl
  rcases h.follows _ _ hctx with ⟨hnil, -⟩ | hfollows
  · simp at hnil
  · exact ⟨p, hcur, by rw [hpt], h.inv.scratch p hcur, hfollows⟩

/-- After its `clone` the first process gives way to its child, which finds its
    parent's registers. -/
theorem registers_resumed_child : ∃ s t e, CalmStart Env.quiet s ∧
    LTS.Steps (LTS.guarded (Entered.Calm Env.quiet) (Enters Env.quiet)) s ([] ++ [e]) t ∧
    t.k.current_pid = 2 ∧ Resumed ([] ++ [e]) t := by
  obtain ⟨s, hs, hroom, -⟩ := start_exists fun _ => 0
  obtain ⟨t, ⟨l, hl, -, hguard, -⟩, -, -, htable⟩ := script_step Env.quiet
    (fun _ _ => 0) .clone ⟨1, 220, ⟨0, 0, 0, 0, 0, 0⟩, 2, false⟩
    ⟨[(1, ⟨1, 0, .Ready, 0⟩), (2, ⟨2, 1, .Running, 0⟩)], 2, 3⟩ hs.inv hroom
    (by rw [hs.start.table]; decide +kernel)
  have hrun : LTS.Steps (LTS.guarded (Entered.Calm Env.quiet) (Enters Env.quiet)) s
      ([] ++ [⟨s.k.current_pid, s.trapCpu l, l⟩]) t :=
    LTS.Steps.snoc _ (LTS.Steps.nil s) ⟨hguard, hl, rfl, rfl⟩
  exact ⟨s, t, _, hs, hrun, congrArg Table.current htable, registers_resumed hs hrun⟩

/-- A word whose lowest byte is not zero is not zero. -/
theorem read64_ne_zero {m : Mem} {a : Nat} (h : m a ≠ 0) : read64 m a ≠ 0 := by
  intro hzero
  apply h
  have hread : readLE m a 8 = 0 := by
    have hlt := readLE_lt m 8 a
    have hnat := congrArg BitVec.toNat hzero
    rw [read64, BitVec.toNat_ofNat, Nat.mod_eq_of_lt (by omega)] at hnat
    exact hnat
  have hbyte : UInt8.ofNat (readLE m a 8 / 256 ^ 0) = m (a + 0) := readLE_byte (by omega)
  rw [hread] at hbyte
  exact hbyte.symm

/-- The frame of the first process. -/
theorem First.frame {f : Regs} {io : Io} {s : System} (h : First f io s) (l : Trap) :
    (s.trapCpu l).tf = 0x8020_2EE0 := by
  obtain ⟨p, hcur, -, hhome⟩ := h.calm.inv.kernel.current
  have hpid : s.k.current_pid = 1 := congrArg Table.current h.calm.start.table
  rw [h.home, hpid, oneHome, if_pos rfl] at hhome
  have hstack : p.kernel_stack = 0x8020_3000 := (congrArg Home.stack (Option.some.inj hhome)).symm
  show wsub s.cpu.sscratch frameSize = _
  rw [h.calm.inv.scratch p hcur, hstack]
  exact wsub_of_le (by decide) (by decide)

/-- **A register is overwritten**: `getrandom` is told to store one byte where the
    caller's own `x5` is saved, and `x5` is no longer zero when it returns. -/
theorem register_overwritten : ∃ s t e, CalmStart Env.quiet s ∧
    LTS.Steps (Enters Env.quiet) s ([] ++ [e]) t ∧ e.cpu.num = 278 ∧ e.pid = 1 ∧
    t.k.current_pid = 1 ∧ e.cpu.x 5 = 0 ∧ t.cpu.x 5 ≠ 0 ∧ ¬ Resumed ([] ++ [e]) t := by
  obtain ⟨s, hs⟩ := first_exists (fun _ => 0) .new
  have hinv := hs.calm.inv
  have htable := hs.calm.start.table
  have hpid : s.k.current_pid = 1 := congrArg Table.current htable
  obtain ⟨l, hl⟩ : ∃ l : Trap, l = ⟨bareCall 278 0x8020_2F08 1 0 0 0, 1⟩ := ⟨_, rfl⟩
  have hnum : (s.trapCpu l).num = 278 := by rw [hl]; rfl
  have hargs : (s.trapCpu l).args = ⟨0x8020_2F08, 1, 0, 0, 0, 0⟩ := by rw [hl]; rfl
  have hx5 : (s.trapCpu l).x 5 = 0 := by rw [hl]; rfl
  have htf := hs.frame l
  -- the saved register is on the kernel stack, which is no page-table node
  have hapart : ∀ p f, p <+: [(Vpn.of 0x8020_2F08).i, (Vpn.of 0x8020_2F08).j] →
      node s.k.mm.mem s.k.satp p = some f → ¬ InFrame f 0x8020_2F08 := by
    intro p f hp hf hin
    have hlen := hp.length_le
    simp only [List.length_cons, List.length_nil] at hlen
    have hstack : f ∈ kernelStacks s.k.home := by
      refine ⟨1, ⟨0x80200, 0x8020_3000⟩, by rw [hs.home]; rfl, ?_⟩
      unfold InFrame at hin
      simp only [stackFrames, Set.mem_insert_iff, Set.mem_singleton_iff]
      omega
    exact hinv.kernel.spaces.own.stack_node f hstack _ hinv.kernel.root_mem p (by omega) hf
  obtain ⟨t, hstep, htable', hexit⟩ := random_step Env.quiet (T := ⟨[(1, ⟨1, 0, .Ready, 0⟩)], 1, 2⟩) hinv
    (by rw [hl]; rfl) hnum hargs (by rw [hl]) (by decide) (by decide) hapart
    (by rw [htable]; decide +kernel)
  have hpid' : t.k.current_pid = 1 := congrArg Table.current htable'
  have hreturned := trap_exit_returned hexit (hpid'.trans hpid.symm)
  have hregs := hreturned.regs
  rw [htf, hnum] at hregs
  -- what is restored is what was stored
  have hne : t.cpu.x 5 ≠ 0 := by
    have hmem : t.cpu.x 5 = read64 (Function.update (s.k.enter (s.trapCpu l)).mm.mem 0x8020_2F08 0xab)
        0x8020_2F08 := by
      rw [hregs, read_raw_words]
      rfl
    rw [hmem]
    apply read64_ne_zero
    rw [Function.update_self]
    decide
  refine ⟨s, t, ⟨1, s.trapCpu l, l⟩, hs.calm, LTS.Steps.snoc _ (LTS.Steps.nil s) ⟨hstep, hpid.symm, rfl⟩,
    hnum, rfl, hpid', hx5, hne, ?_⟩
  rintro ⟨p, -, -, -, hfollows⟩
  rw [hpid'] at hfollows
  have hlast : lastTrap 1 ([] ++ [⟨1, s.trapCpu l, l⟩]) = some ⟨1, s.trapCpu l, l⟩ := rfl
  rcases hfollows with ⟨e, he, entry, sp, hc⟩ | ⟨hnone, -⟩
  · obtain rfl := Option.some.inj (hlast.symm.trans he)
    apply hne
    have h5 := congrFun (congrArg Context.x hc) 5
    dsimp only at h5
    rw [hnum] at h5
    have hleft : t.cpu.context.x 5 = t.cpu.x 5 := rfl
    have hright : ((s.trapCpu l).context.returned 278 l.ret entry sp).x 5 = (s.trapCpu l).x 5 := rfl
    rw [← hleft, h5, hright, hx5]
  · cases hnone

end Rvos

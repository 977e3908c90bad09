import Rvos.Kernel.Resume
import Rvos.Kernel.Wait

/-! # Calls that are executed again

    A `wait4` that blocks is rolled back: its caller executes the `ecall` again
    when it is woken.  But the result of the first execution, -11, is in `a0` by
    then, where the number of the child was.

    * `wait4_returns_requested` : when a call still returns the child that it was
      asked for.
    * `wait4_returns_other` : a call that returns another one. -/

namespace Rvos

open Access ByteMem Usize Assoc

/-! ## Section 1: The child that was asked for -/

/-- The child that the `wait4` in progress was first asked for, after one more
    event of the process. -/
def asked (o : Option Int) (e : Event) : Option Int :=
  if e.Blocks then some (if e.again then o.getD e.target else e.target) else none

/-- The child that the `wait4` of `pid` in progress was first asked for. -/
def pending (pid : Nat) (ls : List Event) : Option Int :=
  (ls.filter fun e => e.pid = pid).foldl asked none

/-- The child that the call `e` after the events `ls` was first asked for. -/
def Event.requested (ls : List Event) (e : Event) : Int :=
  if e.again then (pending e.pid ls).getD e.target else e.target

/-- No child of the current process is a zombie but possibly `q`. -/
def Kernel.OnlyZombie (k : Kernel) (q : Int) : Prop :=
  ∀ (c : Nat) child, k.procs[c]? = some child → child.ppid = k.current_pid →
    child.state = .Zombie → (c : Int) = q

/-- The call is not a blocked one that is executed again, or no child but the one
    it was asked for is a zombie. -/
def Undisturbed (ls : List Event) (k : Kernel) (e : Event) : Prop :=
  e.again = false ∨ pending e.pid ls = none ∨ k.OnlyZombie (e.requested ls)

section Runs

variable {env : Env} {s t : System} {ls : List Event}

/-- **`wait4` returns the child it was asked for**, in every state that a run
    reaches, if the call was not rolled back in between, or if no other child of
    the caller is a zombie when it is executed again. -/
theorem wait4_returns_requested (hstart : Start env s) (hrun : LTS.Steps (Happens env) s ls t)
    {e : Event} {u : System} (hstep : Happens env t e u) (hnum : e.num = 260) (hret : 0 < e.ret)
    (hreq : 0 < e.requested ls) (hcond : Undisturbed ls t.k e) : e.ret = e.requested ls := by
  have hlive := (lifecycle_run hstart hrun).live
  have hwait := (hstep.next hlive.ok.numbered).returns.wait4 hnum
  unfold Table.wait_result at hwait
  cases hz : t.k.table.find_zombie (toIsize e.args.a0) with
  | none =>
    simp only [hz] at hwait
    split at hwait <;> omega
  | some z =>
    simp only [hz] at hwait
    obtain ⟨ze, hw⟩ := Table.find_zombie_some hlive.ok hz
    obtain ⟨hget, hppid, hzombie, hm⟩ := (e.waited_iff _ z ze).mp hw
    rw [Kernel.table_get] at hget
    obtain ⟨p, hp, rfl⟩ := Option.map_eq_some_iff.mp hget
    -- the argument of the call is still the child it was asked for
    have hself : e.requested ls = e.target → e.ret = e.requested ls := by
      intro heq
      rw [heq] at hreq ⊢
      rcases hm with hm | hm <;> omega
    rcases hcond with hfirst | hnone | honly
    · apply hself
      unfold Event.requested
      rw [hfirst]
      rfl
    · apply hself
      unfold Event.requested
      rw [hnone]
      simp
    · rw [hwait]
      exact honly z p hp hppid hzombie

/-- The child exits before its parent waits for it. -/
theorem wait4_returns_requested_first : ∃ s t u ls e, Start Env.quiet s ∧
    LTS.Steps (Happens Env.quiet) s ls t ∧ Happens Env.quiet t e u ∧ e.num = 260 ∧
    e.requested ls = 2 ∧ e.ret = e.requested ls := by
  obtain ⟨s, t, hs, hrun, ht, hroom, htable⟩ := script_start (fun _ _ => 0) [.clone, .exit 0]
    [⟨1, 220, ⟨0, 0, 0, 0, 0, 0⟩, 2, false⟩, ⟨2, 93, ⟨0, 0, 0, 0, 0, 0⟩, 0, false⟩]
    ⟨[(1, ⟨1, 0, .Running, 0⟩), (2, ⟨2, 1, .Zombie, 0⟩)], 1, 3⟩ (by decide) (by decide +kernel)
  obtain ⟨u, hu, -⟩ := script_step Env.quiet (fun _ _ => 0) (.wait4 2 0)
    ⟨1, 260, ⟨2, 0, 0, 0, 0, 0⟩, 2, false⟩ ⟨[(1, ⟨1, 0, .Ready, 0⟩)], 1, 3⟩ ht hroom
    (by rw [htable]; decide +kernel)
  exact ⟨s, t, u, _, _, hs.start, Performs.run hrun, hu.happens, rfl, by decide,
    wait4_returns_requested hs.start (Performs.run hrun) hu.happens rfl (by decide) (by decide) (Or.inl rfl)⟩

end Runs

/-! ## Section 2: A parent that is woken by another child -/

/-- The number and the arguments of the call that the registers would make. -/
def Context.num (c : Context) : Nat := (c.x 17).toNat

def Context.args (c : Context) : Args where
  a0 := (c.x 10).toNat
  a1 := (c.x 11).toNat
  a2 := (c.x 12).toNat
  a3 := (c.x 13).toNat
  a4 := (c.x 14).toNat
  a5 := (c.x 15).toNat

section Again

variable {env : Env} {s t : System} {c : Context} {q : Nat}

/-- A process keeps its registers while another one makes a plain call other than
    `clone`. -/
theorem Performs.keeps_context {fs : Nat → Regs} {e : Event} (h : s.Inv) (hstep : Performs env fs s e t)
    (hq : q ≠ s.k.current_pid) (hnum : e.num ≠ 220) (hc : t.context q = some c) : s.context q = some c := by
  obtain ⟨l, hl, hshow, hguard, -⟩ := hstep
  obtain ⟨-, k1, k2, hin, hregs⟩ := hl.keeps h hguard
  rcases hin.other_context hregs hq hc with hold | ⟨hclone, -⟩
  · exact hold
  · exact absurd (hshow.num.trans hclone) hnum

/-- The registers of a caller that blocks: its result in place of the argument. -/
theorem Performs.blocked_context {fs : Nat → Regs} {e : Event} (h : s.Inv) (hstep : Performs env fs s e t)
    (hblock : e.Blocks) : ∃ c : Context, t.context s.k.current_pid = some c ∧ c.num = 260 ∧
      c.args = { e.args with a0 := 2 ^ 64 - 11 } := by
  obtain ⟨l, hl, hshow, hguard, -⟩ := hstep
  obtain ⟨-, k1, k2, hin, hregs⟩ := hl.keeps h hguard
  have hnum : (s.trapCpu l).num = 260 := hshow.num.symm.trans hblock.1
  have hret : l.ret = -11 := hshow.ret.symm.trans hblock.2
  refine ⟨_, (hregs _).trans (if_pos rfl), ?_⟩
  rw [hshow.args, hnum, hret]
  exact ⟨hnum, rfl⟩

/-- **The call is executed again** by a caller that has done nothing since it was
    resumed: with -11 in place of its first argument. -/
theorem again_step (env : Env) {n : Nat} {T : Table} (h : s.Inv) (hr : s.k.Roomy (n + 1))
    (hc : s.context s.k.current_pid = some c) (hnum : c.num = 260)
    (hargs : c.args = ⟨2 ^ 64 - 11, 0, 0, 0, 0, 0⟩)
    (htrap : s.k.table.trap 260 ⟨2 ^ 64 - 11, 0, 0, 0, 0, 0⟩
      (s.k.table.answer 260 ⟨2 ^ 64 - 11, 0, 0, 0, 0, 0⟩) = some T) :
    ∃ t, Happens env s ⟨s.k.current_pid, 260, ⟨2 ^ 64 - 11, 0, 0, 0, 0, 0⟩,
      s.k.table.answer 260 ⟨2 ^ 64 - 11, 0, 0, 0, 0, 0⟩, true⟩ t := by
  have hcontext : s.cpu.context = c := by
    unfold System.context at hc
    rw [if_pos rfl] at hc
    exact Option.some.inj hc
  rw [← hcontext] at hnum hargs
  have hidle : (260 : Nat) = (s.idle.cpu s.cpu.sscratch).num := hnum.symm
  have hidle' : (⟨2 ^ 64 - 11, 0, 0, 0, 0, 0⟩ : Args) = (s.idle.cpu s.cpu.sscratch).args := hargs.symm
  obtain ⟨t, hstep, -⟩ := plain_step env (b := s.idle) h hr rfl hidle hidle' (by decide) htrap
  exact ⟨t, _, hstep, rfl, hidle, hidle', rfl, by simp⟩

end Again

/-- The first process has two children and waits for the second; the first child
    exits. -/
def otherExits : List Event :=
  [⟨1, 220, ⟨0, 0, 0, 0, 0, 0⟩, 2, false⟩, ⟨2, 172, ⟨0, 0, 0, 0, 0, 0⟩, 2, false⟩,
    ⟨1, 220, ⟨0, 0, 0, 0, 0, 0⟩, 3, false⟩, ⟨2, 172, ⟨0, 0, 0, 0, 0, 0⟩, 2, false⟩,
    ⟨3, 172, ⟨0, 0, 0, 0, 0, 0⟩, 3, false⟩, ⟨1, 260, ⟨3, 0, 0, 0, 0, 0⟩, -11, false⟩,
    ⟨2, 93, ⟨0, 0, 0, 0, 0, 0⟩, 0, false⟩, ⟨3, 172, ⟨0, 0, 0, 0, 0, 0⟩, 3, false⟩]

/-- **`wait4` returns another child**: the parent asked for 3, was woken when 2 had
    exited, and is given 2. -/
theorem wait4_returns_other : ∃ s t u e, Start Env.quiet s ∧
    LTS.Steps (Happens Env.quiet) s otherExits t ∧ Happens Env.quiet t e u ∧ e.num = 260 ∧
    e.requested otherExits = 3 ∧ e.ret = 2 ∧ ¬ Undisturbed otherExits t.k e := by
  -- both children exist, and it is the parent's turn
  obtain ⟨s, t5, hs, hrun5, h5, hroom5, htable5⟩ := script_start (fun _ _ => 0)
    [.clone, .getpid, .clone, .getpid, .getpid] (otherExits.take 5)
    ⟨[(1, ⟨1, 0, .Running, 0⟩), (2, ⟨2, 1, .Ready, 0⟩), (3, ⟨3, 1, .Ready, 0⟩)], 1, 4⟩
    (by decide) (by decide +kernel)
  -- the parent blocks
  obtain ⟨t6, hstep6, h6, hroom6, htable6⟩ := script_step Env.quiet (fun _ _ => 0) (.wait4 3 0)
    ⟨1, 260, ⟨3, 0, 0, 0, 0, 0⟩, -11, false⟩
    ⟨[(1, ⟨1, 0, .Waiting, 0⟩), (2, ⟨2, 1, .Running, 0⟩), (3, ⟨3, 1, .Ready, 0⟩)], 2, 4⟩ h5 hroom5
    (by rw [htable5]; decide +kernel)
  -- the child that it did not ask for exits
  obtain ⟨t7, hstep7, h7, hroom7, htable7⟩ := script_step Env.quiet (fun _ _ => 0) (.exit 0)
    ⟨2, 93, ⟨0, 0, 0, 0, 0, 0⟩, 0, false⟩
    ⟨[(1, ⟨1, 0, .Ready, 0⟩), (2, ⟨2, 1, .Zombie, 0⟩), (3, ⟨3, 1, .Running, 0⟩)], 3, 4⟩ h6 hroom6
    (by rw [htable6]; decide +kernel)
  obtain ⟨t8, hstep8, h8, hroom8, htable8⟩ := script_step Env.quiet (fun _ _ => 0) .getpid
    ⟨3, 172, ⟨0, 0, 0, 0, 0, 0⟩, 3, false⟩
    ⟨[(1, ⟨1, 0, .Running, 0⟩), (2, ⟨2, 1, .Zombie, 0⟩), (3, ⟨3, 1, .Ready, 0⟩)], 1, 4⟩ h7 hroom7
    (by rw [htable7]; decide +kernel)
  have hrun : LTS.Steps (Performs Env.quiet fun _ _ => 0) s otherExits t8 :=
    LTS.Steps.snoc _ (LTS.Steps.snoc _ (LTS.Steps.snoc _ hrun5 hstep6) hstep7) hstep8
  have hpid5 : t5.k.current_pid = 1 := congrArg Table.current htable5
  have hpid6 : t6.k.current_pid = 2 := congrArg Table.current htable6
  have hpid7 : t7.k.current_pid = 3 := congrArg Table.current htable7
  have hpid8 : t8.k.current_pid = 1 := congrArg Table.current htable8
  -- the parent keeps the registers with which it blocked
  obtain ⟨c6, hc6, hnum, hargs⟩ := hstep6.blocked_context h5 ⟨rfl, rfl⟩
  rw [hpid5] at hc6
  have hc8 : t8.context t8.k.current_pid = some t8.cpu.context := if_pos rfl
  have hc7 := hstep8.keeps_context (q := 1) h7 (by omega) (by decide) (hpid8 ▸ hc8)
  have hc6' := hstep7.keeps_context (q := 1) h6 (by omega) (by decide) hc7
  rw [hc6] at hc6'
  rw [← Option.some.inj hc6'] at hc8
  have hanswer : t8.k.table.answer 260 ⟨2 ^ 64 - 11, 0, 0, 0, 0, 0⟩ = 2 := by
    rw [htable8]
    decide +kernel
  obtain ⟨u, hu⟩ := again_step Env.quiet (T := ⟨[(1, ⟨1, 0, .Ready, 0⟩), (3, ⟨3, 1, .Running, 0⟩)], 3, 4⟩) h8
    hroom8 hc8 hnum hargs (by rw [hanswer, htable8]; decide +kernel)
  rw [hanswer, hpid8] at hu
  refine ⟨s, t8, u, _, hs.start, Performs.run hrun, hu, rfl, by decide, rfl, ?_⟩
  rintro (hfirst | hnone | honly)
  · cases hfirst
  · revert hnone
    decide
  · have hget := t8.k.table_get 2
    rw [htable8] at hget
    obtain ⟨p, hp, hentry⟩ := Option.map_eq_some_iff.mp hget.symm
    have hppid : p.ppid = t8.k.current_pid := (congrArg Entry.ppid hentry).trans hpid8.symm
    have htwo := honly 2 p hp hppid (congrArg Entry.state hentry)
    revert htwo
    decide

end Rvos

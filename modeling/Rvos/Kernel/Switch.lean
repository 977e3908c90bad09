import Rvos.Kernel.Family

/-! # Switching between processes

    * `running_after_schedule` : which process `do_schedule` leaves marked as
      running.
    * `fp_registers_kept` : what a process finds in its floating-point
      registers, which no trap saves. -/

namespace Rvos

open Access ByteMem Usize Assoc

/-! ## Section 1: The mark of the running process -/

/-- The current process is marked as running, and no other is. -/
def Kernel.RunsAlone (k : Kernel) : Prop :=
  (∃ p, k.procs[k.current_pid]? = some p ∧ p.state = .Running) ∧
    ∀ pid p, k.procs[pid]? = some p → p.state = .Running → pid = k.current_pid

/-- `do_schedule`, called on `k`, has another process to run, or the current one
    has blocked or exited. -/
def Kernel.MustMark (k : Kernel) : Prop :=
  (∃ q p, q ≠ k.current_pid ∧ k.procs[q]? = some p ∧ p.state = .Ready) ∨
    ∀ p, k.procs[k.current_pid]? = some p → p.state ≠ .Running ∧ p.state ≠ .Ready

section Mark

variable {T T' : Table}

open Table

/-- The current process is marked as running. -/
def Table.Marked (T : Table) : Prop := ∃ e, T.get T.current = some e ∧ e.state = .Running

/-- The scheduler, from the table it is called on. -/
theorem marked_after_pick (h : T.Ok) (hcur : T.get T.current ≠ none)
    (hpick : (T.set_state T.current Table.yield).pick = some T') :
    T'.Marked ↔ (∃ q e, q ≠ T.current ∧ T.get q = some e ∧ e.state = .Ready) ∨
      ∀ e, T.get T.current = some e → e.state ≠ .Running ∧ e.state ≠ .Ready := by
  have hget := fun p => get_set_state (T := T) T.current Table.yield p
  have hyield : ∀ s, Table.yield s = .Ready ↔ s = .Running ∨ s = .Ready := by
    intro s
    cases s <;> simp [Table.yield]
  -- the current process is ready after `yield` if it ran or was ready
  have hready : ∀ e, T.get T.current = some e →
      ((∃ e1, (T.set_state T.current Table.yield).get T.current = some e1 ∧ e1.state = .Ready) ↔
        e.state = .Running ∨ e.state = .Ready) := by
    intro e he
    rw [hget, if_pos rfl, he]
    simp [hyield]
  have hother : ∀ q, q ≠ T.current → (T.set_state T.current Table.yield).get q = T.get q := by
    intro q hq
    rw [hget, if_neg hq]
  have hcur1 : (T.set_state T.current Table.yield).get T.current ≠ none := by
    rw [hget, if_pos rfl]
    simpa using hcur
  have hcurrent : (T.set_state T.current Table.yield).current = T.current := rfl
  obtain ⟨c, hc⟩ := Option.ne_none_iff_exists'.mp hcur
  have hok := h.yield.1
  generalize T.set_state T.current Table.yield = T1 at *
  cases pick_cases hok (by rw [hcurrent]; exact hcur1) hpick with
  | idle e hidle hc1 hstate hT =>
    rw [hcurrent] at hc1
    constructor
    · intro _
      right
      intro e' he'
      have hnot : ¬ (e'.state = .Running ∨ e'.state = .Ready) := by
        rw [← hready e' he']
        rintro ⟨e1, he1, hs1⟩
        exact hidle _ e1 he1 hs1
      tauto
    · intro _
      rw [hT, hcurrent]
      refine ⟨{ e with state := .Running }, ?_, rfl⟩
      show (T1.resume T.current).get T.current = _
      rw [get_resume, if_pos rfl, hc1]
      rfl
  | same e hc1 hstate hsame hT =>
    rw [hcurrent] at hc1
    have hnow := (hready c hc).mp ⟨e, hc1, hstate⟩
    constructor
    · rintro ⟨e', he', hrun⟩
      rw [hT, hcurrent, hc1] at he'
      cases he'
      rw [hstate] at hrun
      cases hrun
    · intro hor
      rcases hor with ⟨q, e', hq, he', hs'⟩ | hall
      · refine absurd (hsame q e' ?_ hs') (by rw [hcurrent]; exact hq)
        rw [hother q hq, he']
      · have := hall c hc
        tauto
  | switch next e hne hnext hstate hT =>
    rw [hcurrent] at hne
    constructor
    · intro _
      exact Or.inl ⟨next, e, hne, by rw [← hother next hne, hnext], hstate⟩
    · intro _
      rw [hT]
      refine ⟨{ e with state := .Running }, ?_, rfl⟩
      show (T1.resume next).get next = _
      rw [get_resume, if_pos rfl, hnext]
      rfl

end Mark

section Runs

variable {env : Env} {s t : System} {ls : List Event}

/-- **The mark of the running process.**  After each call of `do_schedule` in a
    run, no process but the current one is marked as running; the current one is,
    exactly if another process was ready or it had itself blocked or exited.
    Otherwise it goes on running, marked as ready. -/
theorem running_after_schedule (hstart : Start env s) (hrun : LTS.Steps (Happens env) s ls t)
    {l : Trap} {k k' : Kernel} {sp : Nat} (hk : t.AtSchedule env l k)
    (hsched : do_schedule (t.trapCpu l).tf k = .ok sp k') : k'.RunsAlone ↔ k.MustMark := by
  have hlive := (lifecycle_run hstart hrun).live
  obtain ⟨e, hshow⟩ := l.exists_event t
  have htable := hk.table hlive.ok.numbered hshow
  obtain ⟨hok, hcur⟩ := hlive.acted (hk.returns hlive.ok.numbered hshow)
  have hcurrent : (t.k.table.acted e).current = t.k.table.current := by simp [Table.acted]
  rw [← hcurrent] at hcur
  rw [← htable] at hok hcur
  have hpick := do_schedule_table hsched
  obtain ⟨-, -, hlive'⟩ := hok.scheduled hcur hpick
  have hmark := marked_after_pick hok hcur hpick
  unfold Kernel.RunsAlone Kernel.MustMark
  have hleft : (∃ p, k'.procs[k'.current_pid]? = some p ∧ p.state = .Running) ↔ k'.table.Marked :=
    (Kernel.table_state (q := (· = .Running))).symm
  have hother : (∃ q e, q ≠ k.table.current ∧ k.table.get q = some e ∧ e.state = .Ready) ↔
      ∃ q p, q ≠ k.current_pid ∧ k.procs[q]? = some p ∧ p.state = .Ready := by
    refine exists_congr fun q => ?_
    rw [exists_and_left, exists_and_left]
    exact and_congr_right fun _ => Kernel.table_state (q := (· = .Ready))
  have hself : (∀ e, k.table.get k.table.current = some e → e.state ≠ .Running ∧ e.state ≠ .Ready) ↔
      ∀ p, k.procs[k.current_pid]? = some p → p.state ≠ .Running ∧ p.state ≠ .Ready := by
    have := not_congr (@Kernel.table_state k k.current_pid
      fun s => ¬ (s ≠ .Running ∧ s ≠ .Ready))
    push Not at this
    exact this
  rw [hother, hself] at hmark
  rw [hleft, ← hmark]
  refine ⟨And.left, fun h => ⟨h, ?_⟩⟩
  intro pid p hp hrun'
  refine hlive'.ok.alone pid p.entry ?_ hrun'
  rw [Kernel.table_get, hp]
  rfl

/-- After its `clone`, the first process gives way to its child. -/
theorem running_after_schedule_clone : ∃ s l k k' sp, Start Env.quiet s ∧
    s.AtSchedule Env.quiet l k ∧ do_schedule (s.trapCpu l).tf k = .ok sp k' ∧ k'.RunsAlone := by
  obtain ⟨s, hs, hroom, -⟩ := start_exists fun _ => 0
  have htable := hs.start.table
  obtain ⟨t, ⟨l, hl, hshow, -⟩, -⟩ := script_step Env.quiet (fun _ _ => 0) .clone
    ⟨1, 220, ⟨0, 0, 0, 0, 0, 0⟩, 2, false⟩
    ⟨[(1, ⟨1, 0, .Ready, 0⟩), (2, ⟨2, 1, .Running, 0⟩)], 2, 3⟩ hs.inv hroom
    (by rw [htable]; decide +kernel)
  obtain ⟨k, sp, hk, hsched⟩ := hl.at_schedule
  have hacted := hk.table (Table.Ok.numbered (htable ▸ firstTable_live.ok)) hshow
  rw [htable] at hacted
  have hready : ∃ e, k.table.get 2 = some e ∧ e.state = .Ready := by
    rw [hacted]
    exact ⟨⟨2, 1, .Ready, 0⟩, by decide +kernel, rfl⟩
  obtain ⟨p, hp, hstate⟩ := (Kernel.table_state (q := (· = .Ready))).mp hready
  have hcur : k.current_pid = 1 := congrArg Table.current hacted
  refine ⟨s, l, k, t.k, sp, hs.start, hk, hsched,
    (running_after_schedule hs.start (LTS.Steps.nil s) hk hsched).mpr (Or.inl ⟨2, p, ?_, hp, hstate⟩)⟩
  omega

/-- **A process that is alone** goes on running, but is marked as ready. -/
theorem running_marked_ready : ∃ s l k k' sp p, Start Env.quiet s ∧
    s.AtSchedule Env.quiet l k ∧ do_schedule (s.trapCpu l).tf k = .ok sp k' ∧
    k'.procs[k'.current_pid]? = some p ∧ p.state = .Ready := by
  obtain ⟨s, hs, hroom, -⟩ := start_exists fun _ => 0
  have htable := hs.start.table
  obtain ⟨t, ⟨l, hl, hshow, -⟩, -, -, htable'⟩ := script_step Env.quiet (fun _ _ => 0) .getpid
    ⟨1, 172, ⟨0, 0, 0, 0, 0, 0⟩, 1, false⟩ ⟨[(1, ⟨1, 0, .Ready, 0⟩)], 1, 2⟩ hs.inv hroom (by rw [htable]; decide +kernel)
  obtain ⟨k, sp, hk, hsched⟩ := hl.at_schedule
  have hready : ∃ e, t.k.table.get t.k.table.current = some e ∧ e.state = .Ready := by
    rw [htable']
    exact ⟨⟨1, 0, .Ready, 0⟩, rfl, rfl⟩
  obtain ⟨p, hp, hstate⟩ := (Kernel.table_state (q := (· = .Ready))).mp hready
  exact ⟨s, l, k, t.k, sp, p, hs.start, hk, hsched, hp, hstate⟩

end Runs

/-! ## Section 2: Floating-point registers -/

section Runs

variable {env : Env} {s t : System} {ls : List Event}


/-- An event, with the floating-point registers at the trap. -/
structure FpEvent extends Event where
  f : Regs

/-- One step, with the floating-point registers at the trap. -/
def FpHappens (env : Env) (s : System) (e : FpEvent) (t : System) : Prop :=
  ∃ l, Step env s l t ∧ l.Shows s e.toEvent ∧ e.f = l.burst.f

/-- The event concerns the registers of `pid`: it is a trap of `pid`, or the
    `clone` that created it. -/
def FpEvent.of (pid : Nat) (e : FpEvent) : Bool := e.pid = pid ∨ (e.num = 220 ∧ e.ret = pid)

/-- The floating-point registers that belong to `pid`: as at its last trap, and
    before its first as at its parent's `clone`. -/
def fpOf (pid : Nat) (ls : List FpEvent) : Option Regs := (ls.filter (·.of pid)).getLast?.map (·.f)

theorem fpOf_snoc (pid : Nat) (ls : List FpEvent) (e : FpEvent) :
    fpOf pid (ls ++ [e]) = if e.of pid then some e.f else fpOf pid ls := by
  unfold fpOf
  rw [List.filter_append]
  by_cases h : e.of pid = true <;> simp [h]

/-- User code has left the floating-point registers as it found them, or no other
    process is alive. -/
def FpQuiet (s : System) (e : FpEvent) : Prop :=
  e.f = s.cpu.f ∨ ∀ pid p, s.k.procs[pid]? = some p → p.state ≠ .Zombie → pid = s.k.current_pid

/-- What the registers of the machine are: those of every process that is alive. -/
structure FpInv (ls : List FpEvent) (t : System) : Prop where
  lifecycle : Lifecycle (ls.map (·.toEvent)) t.k.table
  shared : ∀ pid e g, t.k.table.get pid = some e → e.state ≠ .Zombie → fpOf pid ls = some g →
    t.cpu.f = g

theorem Step.fp {l : Trap} (h : Step env s l t) : t.cpu.f = l.burst.f := by
  obtain ⟨m, k', -, -, hexit⟩ := step_iff.mp h
  obtain ⟨k1, sp, -, -, hcpu⟩ := trap_exit_cases hexit
  rw [hcpu]
  rfl

theorem FpInv.step {ls : List FpEvent} {e : FpEvent} (h : FpInv ls s)
    (hstep : LTS.guarded FpQuiet (FpHappens env) s e t) : FpInv (ls ++ [e]) t := by
  obtain ⟨hquiet, l, hl, hshow, hf⟩ := hstep
  have hn := Happens.next h.lifecycle.live.ok.numbered ⟨l, hl, hshow⟩
  obtain ⟨hkept, -, -⟩ := h.lifecycle.live.next hn
  have hcpu : t.cpu.f = e.f := by rw [hl.fp, hf]
  refine ⟨?_, ?_⟩
  · rw [List.map_append]
    exact h.lifecycle.next hn
  · intro pid pe g hget hz hg
    rw [fpOf_snoc] at hg
    split at hg
    · rw [hcpu]
      exact Option.some.inj hg
    · next hof =>
      -- another process that was alive before
      unfold FpEvent.of at hof
      simp only [decide_eq_true_eq, not_or] at hof
      obtain ⟨hpid, hnew⟩ := hof
      have hne : pid ≠ s.k.table.current := fun hh => hpid (hn.caller.trans hh.symm)
      obtain ⟨e0, he0, hz0⟩ := h.lifecycle.live.survives hn hget hz hne hnew
      rw [hcpu]
      rcases hquiet with hsame | halone
      · rw [hsame]
        exact h.shared pid e0 g he0 hz0 hg
      · obtain ⟨p, hp, hzp⟩ := (Kernel.table_state (q := (· ≠ .Zombie))).mp ⟨e0, he0, hz0⟩
        exact absurd (halone pid p hp hzp) hne

/-- **Floating-point registers.**  In every run in which no process changes the
    floating-point registers while another one is alive, each process that is
    resumed finds its own. -/
theorem fp_registers_kept (hstart : Start env s) {ls : List FpEvent}
    (hrun : LTS.Steps (LTS.guarded FpQuiet (FpHappens env)) s ls t) :
    ∀ g, fpOf t.k.current_pid ls = some g → t.cpu.f = g := by
  have hinv : FpInv ls t := by
    refine hrun.history (fun ls t => FpInv ls t) (fun ls s e t h hstep => h.step hstep) ?_
    refine ⟨lifecycle_run hstart (LTS.Steps.nil s), ?_⟩
    intro pid e g _ _ hg
    cases hg
  intro g hg
  obtain ⟨e, he, hstate⟩ := hinv.lifecycle.live.current
  refine hinv.shared t.k.current_pid e g he ?_ hg
  intro hz
  rcases hstate with hs | hs <;> rw [hz] at hs <;> cases hs

/-- A child finds the registers of its parent. -/
theorem fp_registers_kept_child : ∃ s t e, Start Env.quiet s ∧
    LTS.Steps (LTS.guarded FpQuiet (FpHappens Env.quiet)) s [e] t ∧
    fpOf t.k.current_pid [e] = some (fun _ => 7) ∧ t.cpu.f = fun _ => 7 := by
  obtain ⟨s, hs, hroom, hf, -⟩ := start_exists fun _ => 7
  obtain ⟨t, ⟨l, hl, hshow, -, hlf⟩, -, -, htable⟩ := script_step Env.quiet
    (fun _ _ => 7) .clone ⟨1, 220, ⟨0, 0, 0, 0, 0, 0⟩, 2, false⟩
    ⟨[(1, ⟨1, 0, .Ready, 0⟩), (2, ⟨2, 1, .Running, 0⟩)], 2, 3⟩ hs.inv hroom
    (by rw [hs.start.table]; decide +kernel)
  have hrun : LTS.Steps (LTS.guarded FpQuiet (FpHappens Env.quiet)) s
      [⟨⟨1, 220, ⟨0, 0, 0, 0, 0, 0⟩, 2, false⟩, fun _ => 7⟩] t :=
    LTS.Steps.single ⟨Or.inl hf.symm, l, hl, hshow, hlf.symm⟩
  have hcur : t.k.current_pid = 2 := congrArg Table.current htable
  have hof : fpOf t.k.current_pid [⟨⟨1, 220, ⟨0, 0, 0, 0, 0, 0⟩, 2, false⟩, fun _ => 7⟩] =
      some (fun _ => 7) := by
    rw [hcur]
    rfl
  exact ⟨s, t, _, hs.start, hrun, hof, fp_registers_kept hs.start hrun _ hof⟩

/-- **A parent finds the registers of its child**: the first process traps with
    zeros in all floating-point registers, its child with ones, and then the first
    process goes on with ones. -/
theorem fp_registers_leak : ∃ s t ls, Start Env.quiet s ∧
    LTS.Steps (FpHappens Env.quiet) s ls t ∧ t.k.current_pid = 1 ∧
    fpOf 1 ls = some (fun _ => 0) ∧ t.cpu.f = fun _ => 1 := by
  obtain ⟨s, hs, hroom, -⟩ := start_exists fun _ => 0
  obtain ⟨t, ⟨l, hl, hshow, -, hf⟩, ht, hroom', htable⟩ := script_step Env.quiet
    (fun pid => if pid = 1 then fun _ => 0 else fun _ => 1) .clone
    ⟨1, 220, ⟨0, 0, 0, 0, 0, 0⟩, 2, false⟩
    ⟨[(1, ⟨1, 0, .Ready, 0⟩), (2, ⟨2, 1, .Running, 0⟩)], 2, 3⟩ hs.inv hroom
    (by rw [hs.start.table]; decide +kernel)
  obtain ⟨u, ⟨l', hl', hshow', -, hf'⟩, -, -, htable'⟩ := script_step Env.quiet
    (fun pid => if pid = 1 then fun _ => 0 else fun _ => 1) .getpid
    ⟨2, 172, ⟨0, 0, 0, 0, 0, 0⟩, 2, false⟩
    ⟨[(1, ⟨1, 0, .Running, 0⟩), (2, ⟨2, 1, .Ready, 0⟩)], 1, 3⟩ ht hroom'
    (by rw [htable]; decide +kernel)
  refine ⟨s, u, [⟨_, fun _ => 0⟩] ++ [⟨_, fun _ => 1⟩], hs.start,
    LTS.Steps.snoc _ (LTS.Steps.single ⟨l, hl, hshow, hf.symm⟩) ⟨l', hl', hshow', hf'.symm⟩,
    congrArg Table.current htable', rfl, ?_⟩
  rw [hl'.fp, hf']
  rfl

end Runs

end Rvos

import Rvos.Kernel.Family

/-! # Waiting for children

    `wait4` does not wait: if no child can be removed it returns -11, and the
    trap handler rolls `sepc` back and marks the caller as waiting, so that the
    `ecall` is executed again after a child has exited.

    * `no_lost_wakeup` : a process that sleeps has no child it could remove.
    * `wait4_childless` : what becomes of a caller that has no child at all. -/

namespace Rvos

open Access ByteMem Usize Assoc

/-! ## Section 1: Calls in progress -/

/-- The last event of a process. -/
def lastOf (pid : Nat) (ls : List Event) : Option Event :=
  (ls.filter fun e => e.pid = pid).getLast?

theorem lastOf_snoc (pid : Nat) (ls : List Event) (e : Event) :
    lastOf pid (ls ++ [e]) = if e.pid = pid then some e else lastOf pid ls := by
  unfold lastOf
  rw [List.filter_append]
  by_cases h : e.pid = pid <;> simp [h]

/-- The process that the argument `q` of `wait4` names. -/
def Matches (q : Int) (c : Nat) : Prop := q ≤ 0 ∨ (c : Int) = q

instance (q : Int) (c : Nat) : Decidable (Matches q c) := inferInstanceAs (Decidable (_ ∨ _))

/-- A positive `isize` and its `usize` are the same number. -/
theorem ofIsize_of_pos {x : Nat} (h : 0 < toIsize x) : (ofIsize (toIsize x) : Int) = toIsize x := by
  unfold ofIsize toIsize at *
  rw [BitVec.ofInt_toInt]
  rw [BitVec.toInt_eq_toNat_cond] at h ⊢
  split at h
  · next hlt => rw [if_pos hlt]
  · have := (BitVec.ofNat 64 x).isLt
    omega

theorem matches_iff (x c : Nat) :
    Matches (toIsize x) c ↔ (0 < toIsize x → c = ofIsize (toIsize x)) := by
  unfold Matches
  by_cases h : 0 < toIsize x
  · have := ofIsize_of_pos h
    constructor
    · intro hm _
      omega
    · intro hc
      have := hc h
      omega
  · constructor
    · intro _ h0
      exact absurd h0 h
    · intro _
      omega

theorem Event.waited_iff (e : Event) (T : Table) (z : Nat) (ze : Entry) :
    T.Waited e.target z ze ↔
      T.get z = some ze ∧ ze.ppid = T.current ∧ ze.state = .Zombie ∧ Matches e.target z := by
  unfold Table.Waited Event.target
  rw [matches_iff]

/-! ## Section 2: No lost wake-up -/

/-- Every process that sleeps was put to sleep by its last call, and has no
    zombie child that this call could have removed. -/
def Asleep (ls : List Event) (T : Table) : Prop :=
  ∀ p e, T.get p = some e → e.state = .Waiting → ∃ w, lastOf p ls = some w ∧ w.Blocks ∧
    ∀ c child, T.get c = some child → child.ppid = p → child.state = .Zombie →
      ¬ Matches w.target c

section Asleep

variable {ls : List Event} {T T' : Table} {e : Event}

open Table

theorem Asleep.kept (h : Asleep ls T) (hk : Kept T T') (hs : NoSleep T T') : Asleep ls T' := by
  intro p e' hp hw
  obtain ⟨e0, hp0, hw0⟩ := hs p e' hp hw
  obtain ⟨w, hlast, hblock, hall⟩ := h p e0 hp0 hw0
  refine ⟨w, hlast, hblock, ?_⟩
  intro c child hc hppid hz
  obtain ⟨child0, hc0, hsim⟩ := hk.back hc
  exact hall c child0 hc0 (hsim.ppid ▸ hppid) (hsim.zombie.mp hz)

/-- A call by another process that leaves the sleepers' zombie children alone. -/
theorem Asleep.others (h : Asleep ls T) (hpid : e.pid = T.current)
    (hold : ∀ p e', T'.get p = some e' → e'.state = .Waiting → p ≠ T.current ∧
      T.get p = some e' ∧ ∀ c child, T'.get c = some child → child.ppid = p →
        child.state = .Zombie → ∃ child0, T.get c = some child0 ∧ child0.ppid = p ∧
          child0.state = .Zombie) : Asleep (ls ++ [e]) T' := by
  intro p e' hp hw
  obtain ⟨hne, hp0, hkids⟩ := hold p e' hp hw
  obtain ⟨w, hlast, hblock, hall⟩ := h p e' hp0 hw
  refine ⟨w, ?_, hblock, ?_⟩
  · rw [lastOf_snoc, if_neg (by rw [hpid]; exact Ne.symm hne), hlast]
  · intro c child hc hppid hz
    obtain ⟨child0, hc0, hppid0, hz0⟩ := hkids c child hc hppid hz
    exact hall c child0 hc0 hppid0 hz0

theorem Asleep.acted (h : Asleep ls T) (hlive : T.Live) (hpid : e.pid = T.current)
    (hret : T.Returns e.num e.args e.ret) : Asleep (ls ++ [e]) (T.acted e) := by
  obtain ⟨cur, hcur, hstate⟩ := hlive.current
  have hawake : ∀ p e', T.get p = some e' → e'.state = .Waiting → p ≠ T.current := by
    intro p e' hp hw heq
    rw [heq, hcur] at hp
    cases hp
    rcases hstate with hs | hs <;> rw [hs] at hw <;> cases hw
  cases acted_cases hret with
  | exit hexit hT =>
    rw [hT]
    have hget := get_exit (T := T) e.code hlive.parent_ne
    refine h.others hpid ?_
    intro p e' hp hw
    rw [hget] at hp
    split at hp
    · obtain ⟨e0, -, rfl⟩ := Option.map_eq_some_iff.mp hp
      cases hw
    · next hne =>
      split at hp
      · -- the parent has been woken up
        obtain ⟨e0, -, rfl⟩ := Option.map_eq_some_iff.mp hp
        exfalso
        revert hw
        show wake e0.state = .Waiting → False
        cases e0.state <;> simp [wake]
      · next hparent =>
        refine ⟨hne, hp, ?_⟩
        intro c child hc hppid hz
        rw [hget] at hc
        split at hc
        · next hcc =>
          -- the zombie is a child of its parent, not of `p`
          obtain ⟨e0, he0, rfl⟩ := Option.map_eq_some_iff.mp hc
          rw [hcc] at he0
          refine absurd ?_ hparent
          unfold Table.parent
          rw [he0]
          exact hppid.symm
        · split at hc
          · obtain ⟨e0, he0, rfl⟩ := Option.map_eq_some_iff.mp hc
            refine ⟨e0, he0, hppid, ?_⟩
            revert hz
            show wake e0.state = .Zombie → _
            cases e0.state <;> simp [wake]
          · exact ⟨child, hc, hppid, hz⟩
  | fork hnum hret' hT =>
    rw [hT]
    have hget := get_fork hlive.ok
    refine h.others hpid ?_
    intro p e' hp hw
    rw [hget] at hp
    split at hp
    · cases hp
      cases hw
    · refine ⟨hawake p e' hp hw, hp, ?_⟩
      intro c child hc hppid hz
      rw [hget] at hc
      split at hc
      · cases hc
        cases hz
      · exact ⟨child, hc, hppid, hz⟩
  | reap z hnum hz hret' hT =>
    rw [hT]
    have hold : ∀ p e', (T.reap z).get p = some e' → T.get p = some e' := by
      intro p e' hp
      rw [get_reap] at hp
      split at hp
      · cases hp
      · exact hp
    refine h.others hpid ?_
    intro p e' hp hw
    have hp0 := hold p e' hp
    exact ⟨hawake p e' hp0 hw, hp0, fun c child hc hppid hzc => ⟨child, hold c child hc, hppid, hzc⟩⟩
  | block hblock hz hT =>
    rw [hT]
    -- zombie children are the same as before
    have hkids : ∀ c child, (T.set_state T.current fun _ => .Waiting).get c = some child →
        child.state = .Zombie → T.get c = some child := by
      intro c child hc hzc
      rw [get_set_state] at hc
      split at hc
      · obtain ⟨e0, -, rfl⟩ := Option.map_eq_some_iff.mp hc
        cases hzc
      · exact hc
    intro p e' hp hw
    by_cases hpc : p = T.current
    · refine ⟨e, ?_, hblock, ?_⟩
      · rw [lastOf_snoc, if_pos (hpid.trans hpc.symm)]
      · intro c child hc hppid hzc hm
        refine find_zombie_none hz c child ((e.waited_iff T c child).mpr ?_)
        exact ⟨hkids c child hc hzc, hppid.trans hpc, hzc, hm⟩
    · rw [get_set_state, if_neg hpc] at hp
      obtain ⟨w, hlast, hb, hall⟩ := h p e' hp hw
      refine ⟨w, ?_, hb, ?_⟩
      · rw [lastOf_snoc, if_neg (by rw [hpid]; exact Ne.symm hpc), hlast]
      · intro c child hc hppid hzc
        exact hall c child (hkids c child hc hzc) hppid hzc
  | other hexit hclone hwait hT =>
    rw [hT]
    refine h.others hpid ?_
    intro p e' hp hw
    exact ⟨hawake p e' hp hw, hp, fun c child hc hppid hz => ⟨child, hc, hppid, hz⟩⟩

end Asleep

section Runs

variable {env : Env} {s t : System} {ls : List Event}

/-- **No lost wake-up.**  In every state that a run reaches, a process that
    waits was put to sleep by its last call, and no child that this call could
    have removed is a zombie. -/
theorem no_lost_wakeup (hstart : Start env s) (hrun : LTS.Steps (Happens env) s ls t) :
    ∀ pid p, t.k.procs[pid]? = some p → p.state = .Waiting →
      ∃ w, lastOf pid ls = some w ∧ w.Blocks ∧
        ∀ c child, t.k.procs[c]? = some child → child.ppid = pid → Matches w.target c →
          child.state ≠ .Zombie := by
  have hinv : Lifecycle ls t.k.table ∧ Asleep ls t.k.table := by
    refine hrun.history (fun ls t => Lifecycle ls t.k.table ∧ Asleep ls t.k.table) ?_ ?_
    · intro ls s e t h hstep
      have hn := hstep.next h.1.live.ok.numbered
      obtain ⟨hkept, hsleep, -⟩ := h.1.live.next hn
      exact ⟨h.1.next hn, (h.2.acted h.1.live hn.caller hn.returns).kept hkept hsleep⟩
    · refine ⟨lifecycle_run hstart (LTS.Steps.nil s), ?_⟩
      rw [hstart.table]
      intro p e hp hw
      simp only [firstTable, Table.get, lookup_cons, lookup_nil] at hp
      split at hp
      · cases hp
        cases hw
      · cases hp
  intro pid p hp hw
  have hget : ∀ q r, t.k.procs[q]? = some r → t.k.table.get q = some r.entry := by
    intro q r hq
    rw [Kernel.table_get, hq]
    rfl
  obtain ⟨w, hlast, hblock, hall⟩ := hinv.2 pid p.entry (hget pid p hp) hw
  refine ⟨w, hlast, hblock, ?_⟩
  intro c child hc hppid hm hz
  exact hall c child.entry (hget c child hc) hppid hz hm

/-- The first process creates a child and waits for it. -/
def parentWaits : List Event :=
  [⟨1, 220, ⟨0, 0, 0, 0, 0, 0⟩, 2, false⟩, ⟨2, 172, ⟨0, 0, 0, 0, 0, 0⟩, 2, false⟩,
    ⟨1, 260, ⟨2, 0, 0, 0, 0, 0⟩, -11, false⟩]

theorem no_lost_wakeup_parent : ∃ s t p child, Start Env.quiet s ∧
    LTS.Steps (Happens Env.quiet) s parentWaits t ∧ t.k.procs[1]? = some p ∧ p.state = .Waiting ∧
    t.k.procs[2]? = some child ∧ child.ppid = 1 ∧ child.state ≠ .Zombie := by
  obtain ⟨s, t, hs, hrun, -, -, htable⟩ := script_start (fun _ _ => 0)
    [.clone, .getpid, .wait4 2 0] parentWaits
    ⟨[(1, ⟨1, 0, .Waiting, 0⟩), (2, ⟨2, 1, .Running, 0⟩)], 2, 3⟩ (by decide) (by decide +kernel)
  have hget1 := t.k.table_get 1
  have hget2 := t.k.table_get 2
  rw [htable] at hget1 hget2
  obtain ⟨p, hp, hentry⟩ := Option.map_eq_some_iff.mp hget1.symm
  obtain ⟨child, hc, hentry2⟩ := Option.map_eq_some_iff.mp hget2.symm
  have hw : p.state = .Waiting := congrArg Entry.state hentry
  have hppid : child.ppid = 1 := congrArg Entry.ppid hentry2
  obtain ⟨w, hlast, -, hnone⟩ := no_lost_wakeup hs.start (Performs.run hrun) 1 p hp hw
  refine ⟨s, t, p, child, hs.start, Performs.run hrun, hp, hw, hc, hppid,
    hnone 2 child hc hppid ?_⟩
  obtain rfl : _ = w := Option.some.inj hlast
  decide

/-! ## Section 3: Callers without a child -/

/-- The current process has a child that the argument of `wait4` names. -/
def Kernel.HasChild (k : Kernel) (q : Int) : Prop :=
  ∃ c child, k.procs[c]? = some child ∧ child.ppid = k.current_pid ∧ Matches q c

theorem find_zombie_childless {k : Kernel} {e : Event} (hok : k.table.Ok)
    (h : ¬ k.HasChild e.target) : k.table.find_zombie e.target = none := by
  cases hz : k.table.find_zombie e.target with
  | none => rfl
  | some z =>
    obtain ⟨ze, hw⟩ := Table.find_zombie_some hok hz
    obtain ⟨hget, hppid, -, hm⟩ := (e.waited_iff _ z ze).mp hw
    rw [Kernel.table_get] at hget
    obtain ⟨p, hp, rfl⟩ := Option.map_eq_some_iff.mp hget
    exact absurd ⟨z, p, hp, hppid, hm⟩ h

/-- **`wait4` without a child.**  In every state that a run reaches, a `wait4`
    of a caller that has no child it could wait for returns 0 if it must not
    block, and otherwise -11 with the caller put to sleep.  So it returns an
    error without putting the caller to sleep exactly if there is such a child. -/
theorem wait4_childless (hstart : Start env s) (hrun : LTS.Steps (Happens env) s ls t)
    {l : Trap} {e : Event} {k : Kernel} (hshow : l.Shows t e) (hnum : e.num = 260)
    (hk : t.AtSchedule env l k) :
    ((¬ t.k.HasChild e.target →
        e.ret < 0 ∧ ∀ p, k.procs[t.k.current_pid]? = some p → p.state ≠ .Waiting) ↔
      t.k.HasChild e.target) ∧
    (¬ t.k.HasChild e.target →
      if ofIsize (toIsize e.args.a2) &&& 1 != 0 then e.ret = 0
      else e.ret = -11 ∧ ∃ p, k.procs[t.k.current_pid]? = some p ∧ p.state = .Waiting) := by
  have hlive := (lifecycle_run hstart hrun).live
  have htable := hk.table hlive.ok.numbered hshow
  have hreturns := hk.returns hlive.ok.numbered hshow
  have hret : e.ret = t.k.table.wait_result e.target (toIsize e.args.a2) := hreturns.wait4 hnum
  have hdesc : ¬ t.k.HasChild e.target →
      if ofIsize (toIsize e.args.a2) &&& 1 != 0 then e.ret = 0
      else e.ret = -11 ∧ ∃ p, k.procs[t.k.current_pid]? = some p ∧ p.state = .Waiting := by
    intro hno
    have hnone := find_zombie_childless hlive.ok hno
    unfold Table.wait_result at hret
    simp only [hnone] at hret
    split
    · next hflag => rw [hret, if_pos hflag]
    · next hflag =>
      rw [if_neg hflag] at hret
      refine ⟨hret, ?_⟩
      -- the handler puts the caller to sleep
      have hblock := Table.acted_blocks hreturns ⟨hnum, hret⟩
      obtain ⟨c, hcur, -⟩ := hlive.current
      have hget : k.table.get t.k.table.current = some { c with state := .Waiting } := by
        rw [htable, hblock, Table.get_set_state, if_pos rfl, hcur]
        rfl
      rw [Kernel.table_get] at hget
      obtain ⟨p, hp, hentry⟩ := Option.map_eq_some_iff.mp hget
      exact ⟨p, hp, congrArg Entry.state hentry⟩
  refine ⟨⟨?_, fun h hno => absurd h hno⟩, hdesc⟩
  intro h
  by_contra hno
  obtain ⟨hneg, hawake⟩ := h hno
  have hwhat := hdesc hno
  split at hwhat
  · omega
  · obtain ⟨-, p, hp, hw⟩ := hwhat
    exact hawake p hp hw

/-- A parent that asks for its child. -/
theorem wait4_childless_parent : ∃ s t l e k, Start Env.quiet s ∧
    LTS.Steps (Happens Env.quiet) s (parentWaits.take 2) t ∧ l.Shows t e ∧ e.num = 260 ∧
    t.AtSchedule Env.quiet l k ∧ t.k.HasChild e.target ∧
    (¬ t.k.HasChild e.target →
      e.ret < 0 ∧ ∀ p, k.procs[t.k.current_pid]? = some p → p.state ≠ .Waiting) := by
  obtain ⟨s, t, hs, hrun, ht, hroom, htable⟩ := script_start (fun _ _ => 0) [.clone, .getpid]
    (parentWaits.take 2) ⟨[(1, ⟨1, 0, .Running, 0⟩), (2, ⟨2, 1, .Ready, 0⟩)], 1, 3⟩ (by decide) (by decide +kernel)
  obtain ⟨u, ⟨l, hl, hshow, -⟩, -⟩ := script_step Env.quiet (fun _ _ => 0) (.wait4 2 0)
    ⟨1, 260, ⟨2, 0, 0, 0, 0, 0⟩, -11, false⟩
    ⟨[(1, ⟨1, 0, .Waiting, 0⟩), (2, ⟨2, 1, .Running, 0⟩)], 2, 3⟩ ht hroom
    (by rw [htable]; decide +kernel)
  obtain ⟨k, sp, hk, -⟩ := hl.at_schedule
  have hget := t.k.table_get 2
  rw [htable] at hget
  obtain ⟨child, hchild, hentry⟩ := Option.map_eq_some_iff.mp hget.symm
  have hppid : child.ppid = t.k.current_pid :=
    (congrArg Entry.ppid hentry).trans (congrArg Table.current htable).symm
  have hhas : t.k.HasChild 2 := ⟨2, child, hchild, hppid, by decide⟩
  exact ⟨s, t, l, _, k, hs.start, Performs.run hrun, hshow, rfl, hk, hhas,
    (wait4_childless hs.start (Performs.run hrun) hshow rfl hk).1.mpr hhas⟩

/-- **A caller without children** is put to sleep. -/
theorem wait4_sleeps_childless : ∃ s l t k p, Start Env.quiet s ∧ Step Env.quiet s l t ∧
    (s.trapCpu l).num = 260 ∧ (∀ q, ¬ s.k.HasChild q) ∧ s.AtSchedule Env.quiet l k ∧
    k.procs[s.k.current_pid]? = some p ∧ p.state = .Waiting := by
  obtain ⟨s, hs, hroom, -⟩ := start_exists fun _ => 0
  have htable := hs.start.table
  obtain ⟨t, ⟨l, hl, hshow, -⟩, -⟩ := script_step Env.quiet (fun _ _ => 0) (.wait4 (-1) 0)
    ⟨1, 260, ⟨2 ^ 64 - 1, 0, 0, 0, 0, 0⟩, -11, false⟩ firstTable hs.inv hroom (by rw [htable]; decide +kernel)
  obtain ⟨k, sp, hk, -⟩ := hl.at_schedule
  have hnone : ∀ q, ¬ s.k.HasChild q := by
    rintro q ⟨c, child, hc, hppid, -⟩
    have hget := s.k.table_get c
    have hcur : s.k.current_pid = 1 := congrArg Table.current htable
    rw [htable, hc, Table.get, firstTable, Option.map_some] at hget
    simp only [Assoc.lookup_cons, Assoc.lookup_nil] at hget
    split at hget
    · have : 0 = child.ppid := congrArg Entry.ppid (Option.some.inj hget)
      omega
    · cases hget
  -- when the scheduler is called, the handler has put the caller to sleep
  have hacted := hk.table (Table.Ok.numbered (htable ▸ firstTable_live.ok)) hshow
  rw [htable] at hacted
  have hget := k.table_get 1
  rw [hacted, show Table.get _ 1 = some ⟨1, 0, .Waiting, 0⟩ by decide +kernel] at hget
  obtain ⟨p, hp, hentry⟩ := Option.map_eq_some_iff.mp hget.symm
  have hcur : s.k.current_pid = 1 := congrArg Table.current htable
  exact ⟨s, l, t, k, p, hs.start, hl, hshow.num.symm, hnone, hk, hcur ▸ hp,
    congrArg Entry.state hentry⟩

end Runs

end Rvos

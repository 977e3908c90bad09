import Rvos.Kernel.Progress

/-! # Parents and children

    The events of a run say which processes there are, who created them, and
    which have exited or been waited for (`Chronicle`).  From this follows what
    holds of every run, `process_lifecycle`. -/

namespace Rvos

open Access ByteMem Usize Assoc

/-! ## Section 1: The chronicle of a run -/

/-- What the events so far say about the table. -/
structure Chronicle (ls : List Event) (T : Table) : Prop where
  /-- Every process but the first was created by its parent. -/
  created : ∀ p e, T.get p = some e → e.ppid = 0 ∨ ∃ c ∈ ls, c.num = 220 ∧ c.pid = e.ppid ∧ c.ret = p
  /-- No number is given out twice. -/
  numbers : ∀ c ∈ ls, c.num = 220 → c.ret < T.next_pid
  /-- A zombie has exited, with the code in the table. -/
  zombie : ∀ p e, T.get p = some e → e.state = .Zombie →
    ∃ x ∈ ls, x.isExit ∧ x.pid = p ∧ x.code = e.exit_code
  /-- A process that has exited is a zombie or gone. -/
  exited : ∀ x ∈ ls, x.isExit → x.pid < T.next_pid ∧ ∀ e, T.get x.pid = some e → e.state = .Zombie
  /-- A process that was waited for is gone. -/
  reaped : ∀ w ∈ ls, w.num = 260 → ∀ z : Nat, 0 < z → w.ret = z → T.get z = none ∧ z < T.next_pid

section Chronicle

variable {ls : List Event} {T T' : Table} {e : Event}

open Table

theorem chronicle_first : Chronicle [] firstTable := by
  constructor
  · intro p e hget
    left
    simp only [firstTable, Table.get, lookup_cons, lookup_nil] at hget
    split at hget
    · cases hget
      rfl
    · cases hget
  · simp
  · intro p e hget hz
    simp only [firstTable, Table.get, lookup_cons, lookup_nil] at hget
    split at hget
    · cases hget
      cases hz
    · cases hget
  · simp
  · simp

/-- Other changes of states do not matter here. -/
theorem Chronicle.kept (h : Chronicle ls T) (hk : Kept T T') : Chronicle ls T' := by
  have hnext := hk.next_pid
  constructor
  · intro p e' hget
    obtain ⟨e, hget', hsim⟩ := hk.back hget
    rw [hsim.ppid]
    exact h.created p e hget'
  · intro c hc hnum
    rw [hnext]
    exact h.numbers c hc hnum
  · intro p e' hget hz
    obtain ⟨e, hget', hsim⟩ := hk.back hget
    rw [hsim.exit_code]
    exact h.zombie p e hget' (hsim.zombie.mp hz)
  · intro x hx hexit
    obtain ⟨hlt, hz⟩ := h.exited x hx hexit
    refine ⟨hnext ▸ hlt, ?_⟩
    intro e' hget
    obtain ⟨e, hget', hsim⟩ := hk.back hget
    exact hsim.zombie.mpr (hz e hget')
  · intro w hw hnum z h0 hz
    obtain ⟨hnone, hlt⟩ := h.reaped w hw hnum z h0 hz
    exact ⟨hk.none z hnone, hnext ▸ hlt⟩

theorem Chronicle.exit (h : Chronicle ls T) (hlive : T.Live) (hpid : e.pid = T.current)
    (hexit : e.isExit) : Chronicle (ls ++ [e]) (T.exit e.code) := by
  have hget := get_exit (T := T) e.code hlive.parent_ne
  have hwake : ∀ s, wake s = .Zombie ↔ s = .Zombie := by
    intro s
    cases s <;> simp [wake]
  obtain ⟨c, hcur, hstate⟩ := hlive.current
  have hnum : e.num ≠ 220 ∧ e.num ≠ 260 := by
    unfold Event.isExit at hexit
    omega
  constructor
  · intro p e' hp
    have hold : ∃ e0, T.get p = some e0 ∧ e'.ppid = e0.ppid := by
      rw [hget] at hp
      split at hp
      · obtain ⟨e0, he0, rfl⟩ := Option.map_eq_some_iff.mp hp
        exact ⟨e0, he0, rfl⟩
      · split at hp
        · obtain ⟨e0, he0, rfl⟩ := Option.map_eq_some_iff.mp hp
          exact ⟨e0, he0, rfl⟩
        · exact ⟨e', hp, rfl⟩
    obtain ⟨e0, he0, hppid⟩ := hold
    rw [hppid]
    refine (h.created p e0 he0).imp_right ?_
    rintro ⟨c, hc, hrest⟩
    exact ⟨c, List.mem_append_left _ hc, hrest⟩
  · intro c hc hnum'
    rcases List.mem_append.mp hc with hc | hc
    · exact h.numbers c hc hnum'
    · obtain rfl := List.mem_singleton.mp hc
      exact absurd hnum' hnum.1
  · intro p e' hp hz
    rw [hget] at hp
    split at hp
    · next hcurrent =>
      obtain ⟨e0, he0, rfl⟩ := Option.map_eq_some_iff.mp hp
      exact ⟨e, by simp, hexit, hpid.trans hcurrent.symm, rfl⟩
    · have hold : ∃ e0, T.get p = some e0 ∧ e0.state = .Zombie ∧ e'.exit_code = e0.exit_code := by
        split at hp
        · obtain ⟨e0, he0, rfl⟩ := Option.map_eq_some_iff.mp hp
          exact ⟨e0, he0, (hwake _).mp hz, rfl⟩
        · exact ⟨e', hp, hz, rfl⟩
      obtain ⟨e0, he0, hz0, hcode⟩ := hold
      obtain ⟨x, hx, hrest⟩ := h.zombie p e0 he0 hz0
      rw [hcode]
      exact ⟨x, List.mem_append_left _ hx, hrest⟩
  · intro x hx hxexit
    rcases List.mem_append.mp hx with hx | hx
    · obtain ⟨hlt, hz⟩ := h.exited x hx hxexit
      refine ⟨hlt, ?_⟩
      intro e' hp
      rw [hget] at hp
      split at hp
      · obtain ⟨e0, -, rfl⟩ := Option.map_eq_some_iff.mp hp
        rfl
      · split at hp
        · obtain ⟨e0, he0, rfl⟩ := Option.map_eq_some_iff.mp hp
          exact (hwake _).mpr (hz e0 he0)
        · exact hz e' hp
    · obtain rfl := List.mem_singleton.mp hx
      rw [hpid]
      refine ⟨hlive.current_lt, ?_⟩
      intro e' hp
      rw [hget, if_pos rfl, hcur] at hp
      cases hp
      rfl
  · intro w hw hwnum z h0 hz
    rcases List.mem_append.mp hw with hw | hw
    · obtain ⟨hnone, hlt⟩ := h.reaped w hw hwnum z h0 hz
      refine ⟨?_, hlt⟩
      rw [hget, hnone]
      simp
    · obtain rfl := List.mem_singleton.mp hw
      exact absurd hwnum hnum.2

theorem Chronicle.fork (h : Chronicle ls T) (hlive : T.Live) (hpid : e.pid = T.current)
    (hnum : e.num = 220) (hret : e.ret = T.next_pid) : Chronicle (ls ++ [e]) T.fork := by
  have hget := get_fork hlive.ok
  have hnext : T.fork.next_pid = T.next_pid + 1 := rfl
  have hexit : ¬ e.isExit := by
    unfold Event.isExit
    omega
  constructor
  · intro p e' hp
    rw [hget] at hp
    split at hp
    · next hnew =>
      cases hp
      exact Or.inr ⟨e, by simp, hnum, hpid, by rw [hret, hnew]⟩
    · refine (h.created p e' hp).imp_right ?_
      rintro ⟨c, hc, hrest⟩
      exact ⟨c, List.mem_append_left _ hc, hrest⟩
  · intro c hc hnum'
    rcases List.mem_append.mp hc with hc | hc
    · have := h.numbers c hc hnum'
      omega
    · obtain rfl := List.mem_singleton.mp hc
      omega
  · intro p e' hp hz
    rw [hget] at hp
    split at hp
    · cases hp
      cases hz
    · obtain ⟨x, hx, hrest⟩ := h.zombie p e' hp hz
      exact ⟨x, List.mem_append_left _ hx, hrest⟩
  · intro x hx hxexit
    rcases List.mem_append.mp hx with hx | hx
    · obtain ⟨hlt, hz⟩ := h.exited x hx hxexit
      refine ⟨by omega, ?_⟩
      intro e' hp
      rw [hget, if_neg (by omega)] at hp
      exact hz e' hp
    · obtain rfl := List.mem_singleton.mp hx
      exact absurd hxexit hexit
  · intro w hw hwnum z h0 hz
    rcases List.mem_append.mp hw with hw | hw
    · obtain ⟨hnone, hlt⟩ := h.reaped w hw hwnum z h0 hz
      refine ⟨?_, by omega⟩
      rw [hget, if_neg (by omega), hnone]
    · obtain rfl := List.mem_singleton.mp hw
      omega

theorem Chronicle.reap (h : Chronicle ls T) (hlive : T.Live) {z : Nat} (hnum : e.num = 260)
    (hz : T.find_zombie e.target = some z) (hret : e.ret = z) :
    Chronicle (ls ++ [e]) (T.reap z) := by
  have hexit : ¬ e.isExit := by
    unfold Event.isExit
    omega
  have hold : ∀ p e', (T.reap z).get p = some e' → T.get p = some e' := by
    intro p e' hp
    rw [get_reap] at hp
    split at hp
    · cases hp
    · exact hp
  constructor
  · intro p e' hp
    refine (h.created p e' (hold p e' hp)).imp_right ?_
    rintro ⟨c, hc, hrest⟩
    exact ⟨c, List.mem_append_left _ hc, hrest⟩
  · intro c hc hnum'
    rcases List.mem_append.mp hc with hc | hc
    · exact h.numbers c hc hnum'
    · obtain rfl := List.mem_singleton.mp hc
      omega
  · intro p e' hp hzombie
    obtain ⟨x, hx, hrest⟩ := h.zombie p e' (hold p e' hp) hzombie
    exact ⟨x, List.mem_append_left _ hx, hrest⟩
  · intro x hx hxexit
    rcases List.mem_append.mp hx with hx | hx
    · obtain ⟨hlt, hall⟩ := h.exited x hx hxexit
      exact ⟨hlt, fun e' hp => hall e' (hold _ e' hp)⟩
    · obtain rfl := List.mem_singleton.mp hx
      exact absurd hxexit hexit
  · intro w hw hwnum y h0 hy
    rw [get_reap]
    rcases List.mem_append.mp hw with hw | hw
    · obtain ⟨hnone, hlt⟩ := h.reaped w hw hwnum y h0 hy
      refine ⟨?_, hlt⟩
      rw [hnone]
      simp
    · obtain rfl := List.mem_singleton.mp hw
      obtain ⟨e', hget, -⟩ := find_zombie_some hlive.ok hz
      obtain rfl : y = z := by omega
      exact ⟨if_pos rfl, (hlive.ok.entry y e' hget).2.1⟩

/-- Any other call leaves the table as the scheduler might. -/
theorem Chronicle.other (h : Chronicle ls T) (hexit : ¬ e.isExit) (hclone : e.num = 220 → e.ret < 0)
    (hwait : e.num = 260 → e.ret ≤ 0) : Chronicle (ls ++ [e]) T := by
  constructor
  · intro p e' hp
    refine (h.created p e' hp).imp_right ?_
    rintro ⟨c, hc, hrest⟩
    exact ⟨c, List.mem_append_left _ hc, hrest⟩
  · intro c hc hnum
    rcases List.mem_append.mp hc with hc | hc
    · exact h.numbers c hc hnum
    · obtain rfl := List.mem_singleton.mp hc
      have := hclone hnum
      omega
  · intro p e' hp hzombie
    obtain ⟨x, hx, hrest⟩ := h.zombie p e' hp hzombie
    exact ⟨x, List.mem_append_left _ hx, hrest⟩
  · intro x hx hxexit
    rcases List.mem_append.mp hx with hx | hx
    · exact h.exited x hx hxexit
    · obtain rfl := List.mem_singleton.mp hx
      exact absurd hxexit hexit
  · intro w hw hwnum z h0 hz
    rcases List.mem_append.mp hw with hw | hw
    · exact h.reaped w hw hwnum z h0 hz
    · obtain rfl := List.mem_singleton.mp hw
      have := hwait hwnum
      omega

/-- A call is entered into the chronicle. -/
theorem Chronicle.acted (h : Chronicle ls T) (hlive : T.Live) (hpid : e.pid = T.current)
    (hret : T.Returns e.num e.args e.ret) : Chronicle (ls ++ [e]) (T.acted e) := by
  cases acted_cases hret with
  | exit hexit hT =>
    rw [hT]
    exact h.exit hlive hpid hexit
  | fork hnum hret' hT =>
    rw [hT]
    exact h.fork hlive hpid hnum hret'
  | reap z hnum hz hret' hT =>
    rw [hT]
    exact h.reap hlive hnum hz hret'
  | block hblock hz hT =>
    obtain ⟨hnum, hret'⟩ := hblock
    obtain ⟨c, hcur, hstate⟩ := hlive.current
    have hother : Chronicle (ls ++ [e]) T :=
      h.other (by unfold Event.isExit; omega) (by omega) (by omega)
    rw [hT]
    refine hother.kept (Kept.set_state fun e' he' => ?_)
    rw [hcur] at he'
    cases he'
    rcases hstate with hs | hs <;> simp [hs]
  | other hexit hclone hwait hT =>
    rw [hT]
    refine h.other hexit ?_ ?_
    · intro hnum
      have := hclone hnum
      omega
    · intro hnum
      have := (hwait hnum).2
      omega

/-- The invariant of every run. -/
structure Lifecycle (ls : List Event) (T : Table) : Prop where
  live : T.Live
  chronicle : Chronicle ls T

theorem Lifecycle.next (h : Lifecycle ls T) (hn : Next T e T') : Lifecycle (ls ++ [e]) T' := by
  obtain ⟨hkept, -, hlive⟩ := h.live.next hn
  exact ⟨hlive, (h.chronicle.acted h.live hn.caller hn.returns).kept hkept⟩

end Chronicle

/-! ## Section 2: Every run -/

section Runs

variable {env : Env} {s t : System} {ls : List Event}

/-- Every run keeps the invariant. -/
theorem lifecycle_run (hstart : Start env s) (hrun : LTS.Steps (Happens env) s ls t) :
    Lifecycle ls t.k.table := by
  refine hrun.history (fun ls t => Lifecycle ls t.k.table) ?_ ?_
  · intro ls s e t h hstep
    exact h.next (hstep.next h.live.ok.numbered)
  · rw [hstart.table]
    exact ⟨firstTable_live, chronicle_first⟩

/-- The status that `wait4` stores. -/
theorem sys_wait4_stores {pid options r : Int} {wstatus : Nat} {k k' : Kernel}
    (h : sys_wait4 pid wstatus options k = .ok r k') (hr : 0 < r) :
    ∃ z p, r = (z : Nat) ∧ k.find_zombie pid = some (z, p) ∧ (wstatus ≠ 0 →
      run (machine k.satp) (Code.storeBytes ⟨wstatus, false⟩ (word (wait_status p.exit_code)))
        k.view = .ok () k'.view) := by
  rcases sys_wait4_cases h with ⟨z, p, k1, hz, hz', -, hstore, rfl⟩ | ⟨-, hr', -⟩
  · refine ⟨z, p, hz', hz, fun hw => ?_⟩
    obtain ⟨v, hv, rfl⟩ := KM.io_eq_ok.mp (hstore hw)
    exact hv
  · split at hr' <;> omega

theorem wait_status_eq (code : Int) : wait_status code = (ofIsize code &&& 0xff) <<< 8 := by
  unfold wait_status
  rw [Nat.shiftLeft_eq, show (0xff : Nat) = 2 ^ 8 - 1 from rfl, Nat.and_two_pow_sub_one_eq_mod]

/-- **The life of a process.**  In every run: the current process is in the
    table; the keys of the table are the numbers of its processes, below the next
    number; a process that has called `exit` is never resumed; no number is given
    out twice; and when `wait4` returns a process, that process is a child that
    the caller created, it has exited, the status stored is the one for its exit
    code, it is removed from the table, and no earlier `wait4` returned it. -/
theorem process_lifecycle (hstart : Start env s) (hrun : LTS.Steps (Happens env) s ls t) :
    (∃ p, t.k.procs[t.k.current_pid]? = some p) ∧
    (∀ pid p, t.k.procs[pid]? = some p → p.pid = pid ∧ pid < t.k.next_pid) ∧
    (∀ x ∈ ls, x.isExit → x.pid ≠ t.k.current_pid) ∧
    (∀ e u, Happens env t e u → e.num = 220 → ∀ c ∈ ls, c.num = 220 → 0 ≤ c.ret → c.ret ≠ e.ret) ∧
    ∀ l e u, Step env t l u → l.Shows t e → e.num = 260 → 0 < e.ret →
      ∃ (z : Nat) (x : Event) (k k' : Kernel), e.ret = z ∧
        (∃ c ∈ ls, c.num = 220 ∧ c.pid = e.pid ∧ c.ret = z) ∧
        (x ∈ ls ∧ x.isExit ∧ x.pid = z) ∧
        (t.AtCall l k ∧ dispatch env e.num e.args k = .ok e.ret k' ∧
          (e.args.a1 ≠ 0 → run (machine k.satp) (Code.storeBytes ⟨e.args.a1, false⟩
            (word ((ofIsize x.code &&& 0xff) <<< 8))) k.view = .ok () k'.view)) ∧
        u.k.procs[z]? = none ∧
        ∀ w ∈ ls, w.num = 260 → w.ret ≠ z := by
  have hinv := lifecycle_run hstart hrun
  have hget : ∀ pid p, t.k.procs[pid]? = some p → t.k.table.get pid = some p.entry := by
    intro pid p hp
    rw [Kernel.table_get, hp]
    rfl
  refine ⟨?_, ?_, ?_, ?_, ?_⟩
  · obtain ⟨e, he, -⟩ := hinv.live.current
    rw [Kernel.table_get] at he
    obtain ⟨p, hp, -⟩ := Option.map_eq_some_iff.mp he
    exact ⟨p, hp⟩
  · intro pid p hp
    obtain ⟨h1, h2, -⟩ := hinv.live.ok.entry pid _ (hget pid p hp)
    exact ⟨h1, h2⟩
  · intro x hx hexit heq
    obtain ⟨e, he, hstate⟩ := hinv.live.current
    have hz := (hinv.chronicle.exited x hx hexit).2 e (heq ▸ he)
    rcases hstate with hs | hs <;> rw [hs] at hz <;> cases hz
  · intro e u hstep hnum c hc hcnum h0 heq
    have hnext := hstep.next hinv.live.ok.numbered
    have hlt := hinv.chronicle.numbers c hc hcnum
    rcases hnext.returns.clone hnum with hret | hret <;> omega
  · intro l e u hstep hshow hnum hpos
    have hnext := Happens.next hinv.live.ok.numbered ⟨l, hstep, hshow⟩
    have hafter := hinv.next hnext
    obtain ⟨m, k', hm, hd, -⟩ := step_iff.mp hstep
    generalize hk : (t.k.withMem m).enter (t.trapCpu l) = k at hd
    have htable : k.table = t.k.table := by rw [← hk]; rfl
    rw [← hshow.num, ← hshow.args, ← hshow.ret] at hd
    have hwait : sys_wait4 e.target e.args.a1 (toIsize e.args.a2) k = .ok e.ret k' := by
      rw [hnum] at hd
      exact hd
    obtain ⟨z, p, hret, hz, hstore⟩ := sys_wait4_stores hwait hpos
    have hfind : t.k.table.find_zombie e.target = some z := by
      rw [← htable, Kernel.table_find_zombie, hz]
      rfl
    obtain ⟨ze, hzget, hppid, hzombie, -⟩ := Table.find_zombie_some hinv.live.ok hfind
    have hentry : p.entry = ze := by
      have hmem := Std.TreeMap.mem_toList_iff_getElem?_eq_some.mp (List.mem_of_find?_eq_some hz)
      have : k.table.get z = some p.entry := by
        rw [Kernel.table_get, hmem]
        rfl
      rw [htable, hzget] at this
      exact (Option.some.inj this).symm
    obtain ⟨x, hx, hexit, hxpid, hcode⟩ := hinv.chronicle.zombie z ze hzget hzombie
    refine ⟨z, x, k, k', hret, ?_, ⟨hx, hexit, hxpid⟩, ⟨⟨m, hm, hk.symm⟩, hd, ?_⟩, ?_, ?_⟩
    · obtain ⟨c, hc, hcstate⟩ := hinv.live.current
      have hpos' := (hinv.live.ok.entry _ c hc).2.2
      rcases hinv.chronicle.created z ze hzget with h0 | ⟨c, hc, hcnum, hcpid, hcret⟩
      · omega
      · exact ⟨c, hc, hcnum, by rw [hcpid, hppid, hnext.caller], hcret⟩
    · intro hne
      have := hstore hne
      rw [wait_status_eq, show p.exit_code = x.code by rw [hcode, ← hentry]; rfl] at this
      exact this
    · have hnone := (hafter.chronicle.reaped e (by simp) hnum z (by omega) hret).1
      rw [Kernel.table_get, Option.map_eq_none_iff] at hnone
      exact hnone
    · intro w hw hwnum hwret
      have hnone := (hinv.chronicle.reaped w hw hwnum z (by omega) hwret).1
      rw [hzget] at hnone
      cases hnone

/-- The first process creates a child, which exits with code 7. -/
def childExits : List Event :=
  [⟨1, 220, ⟨0, 0, 0, 0, 0, 0⟩, 2, false⟩, ⟨2, 93, ⟨7, 0, 0, 0, 0, 0⟩, 0, false⟩]

/-- Then it waits for any child. -/
def childReaped : Event := ⟨1, 260, ⟨2 ^ 64 - 1, 0, 0, 0, 0, 0⟩, 2, false⟩

theorem process_lifecycle_child : ∃ s t l u, Start Env.quiet s ∧
    LTS.Steps (Happens Env.quiet) s childExits t ∧ Step Env.quiet t l u ∧ l.Shows t childReaped ∧
    u.k.procs[2]? = none := by
  obtain ⟨s, u, hs, hrun, -⟩ := script_start (fun _ _ => 0)
    [.clone, .exit 7, .wait4 (-1) 0] (childExits ++ [childReaped]) ⟨[(1, ⟨1, 0, .Ready, 0⟩)], 1, 3⟩
    (by decide) (by decide +kernel)
  obtain ⟨t, hrun, l, hl, hshow, -⟩ := hrun.last
  obtain ⟨-, -, -, -, hwait⟩ := process_lifecycle hs.start (Performs.run hrun)
  obtain ⟨z, x, k, k', hz, -, -, -, hgone, -⟩ := hwait l childReaped u hl hshow rfl (by decide)
  obtain rfl : 2 = z := by
    have : (2 : Int) = z := hz
    omega
  exact ⟨s, t, l, u, hs.start, Performs.run hrun, hl, hshow, hgone⟩

end Runs

end Rvos

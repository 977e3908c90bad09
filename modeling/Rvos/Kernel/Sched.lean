import Rvos.Kernel.Load
import Rvos.Kernel.Machine
import Rvos.Lib.Assoc

/-! # The process table

    What the kernel does to the process table depends on little: who is the
    parent of whom, which state each process is in, the number of the call and
    its result.  `Table` keeps just that, and every operation on it can be
    computed.  `Step.table` shows that each step of the machine is the step of
    its table, whatever happens to memory, so scheduling and waiting can be
    studied on tables alone. -/

namespace Rvos

open Access ByteMem Usize Assoc

/-! ## Section 1: Tables -/

/-- What matters of a process. -/
structure Entry where
  pid : Nat
  ppid : Nat
  state : ProcState
  exit_code : Int
  deriving DecidableEq, Repr

/-- The processes in the order of their numbers, the one that runs, and the
    number the next one gets. -/
structure Table where
  procs : List (Nat × Entry)
  current : Nat
  next_pid : Nat
  deriving DecidableEq, Repr

namespace Table

variable (T : Table)

def get (pid : Nat) : Option Entry := lookup pid T.procs

def modify (pid : Nat) (f : Entry → Entry) : Table := { T with procs := update pid f T.procs }

def set_state (pid : Nat) (f : ProcState → ProcState) : Table :=
  T.modify pid fun e => { e with state := f e.state }

/-- The current process gets a child. -/
def fork : Table :=
  { T with
    procs := T.procs ++ [(T.next_pid, ⟨T.next_pid, T.current, .Ready, 0⟩)]
    next_pid := T.next_pid + 1 }

/-- A parent that waits is woken up. -/
def wake (s : ProcState) : ProcState := if s = .Waiting then .Ready else s

/-- The parent of the current process; `0` if the table does not hold it. -/
def parent : Nat := ((T.get T.current).map (·.ppid)).getD 0

/-- The current process becomes a zombie. -/
def exit (code : Int) : Table :=
  (T.modify T.current fun e => { e with state := .Zombie, exit_code := code }).set_state
    T.parent wake

/-- The child that `wait4` finds. -/
def find_zombie (pid : Int) : Option Nat :=
  (T.procs.find? fun (cpid, e) =>
    e.ppid == T.current && e.state == .Zombie && !(pid > 0 && cpid != ofIsize pid)).map Prod.fst

def reap (pid : Nat) : Table := { T with procs := remove pid T.procs }

/-- The effect of a system call. -/
def call (num : Nat) (a : Args) (ret : Int) : Table :=
  if num = 93 ∨ num = 94 then T.exit (toIsize a.a0)
  else if num = 220 ∧ 0 ≤ ret then T.fork
  else if num = 260 then
    match T.find_zombie (toIsize a.a0) with
    | some z => T.reap z
    | none => T
  else T

/-- A `wait4` that returned -11 blocks its caller. -/
def block (num : Nat) (ret : Int) : Table :=
  if num = 260 ∧ ret = -11 then T.set_state T.current fun _ => .Waiting else T

/-- A process that has given up the processor is ready again. -/
def yield (s : ProcState) : ProcState := if s = .Running then .Ready else s

def ready : List Nat := (T.procs.filter fun p => p.2.state == .Ready).map Prod.fst

/-- The process `next` is marked as running and becomes the current one. -/
def resume (next : Nat) : Table := { T.set_state next fun _ => .Running with current := next }

/-- The scheduler, after `yield`; `none` if no process is left to run. -/
def pick : Option Table :=
  match pick_next T.ready T.current with
  | none =>
    match T.get T.current with
    | none => some T
    | some e => if e.state = .Zombie then none else some (T.resume T.current)
  | some next =>
    if next = T.current then some T
    else some (T.resume next)

/-- A whole trap. -/
def trap (num : Nat) (a : Args) (ret : Int) : Option Table :=
  (((T.call num a ret).block num ret).set_state T.current yield).pick

@[simp] theorem modify_current (pid : Nat) (f : Entry → Entry) :
    (T.modify pid f).current = T.current := rfl

@[simp] theorem set_state_current (pid : Nat) (f : ProcState → ProcState) :
    (T.set_state pid f).current = T.current := rfl

@[simp] theorem call_current (num : Nat) (a : Args) (ret : Int) :
    (T.call num a ret).current = T.current := by
  unfold call
  split
  · rfl
  · split
    · rfl
    · split
      · cases T.find_zombie (toIsize a.a0) <;> rfl
      · rfl

@[simp] theorem block_current (num : Nat) (ret : Int) : (T.block num ret).current = T.current := by
  unfold block
  split <;> rfl

end Table

def Process.entry (p : Process) : Entry := ⟨p.pid, p.ppid, p.state, p.exit_code⟩

def Kernel.table (k : Kernel) : Table where
  procs := mapVal (fun _ => Process.entry) k.procs.toList
  current := k.current_pid
  next_pid := k.next_pid

/-! ## Section 2: Operations of the kernel on tables -/

section Refine

variable {k k' : Kernel}

theorem Kernel.table_get (k : Kernel) (pid : Nat) :
    k.table.get pid = k.procs[pid]?.map Process.entry := by
  rw [Table.get, Kernel.table, lookup_mapVal, lookup_toList]

theorem Kernel.table_state {k : Kernel} {pid : Nat} {q : ProcState → Prop} :
    (∃ e, k.table.get pid = some e ∧ q e.state) ↔ ∃ p, k.procs[pid]? = some p ∧ q p.state := by
  rw [Kernel.table_get]
  constructor
  · rintro ⟨e, he, hq⟩
    obtain ⟨p, hp, rfl⟩ := Option.map_eq_some_iff.mp he
    exact ⟨p, hp, hq⟩
  · rintro ⟨p, hp, hq⟩
    exact ⟨p.entry, by rw [hp]; rfl, hq⟩

/-- Changing a process of the kernel changes its entry. -/
theorem Kernel.table_modify {pid : Nat} {f : Process → Process} {g : Entry → Entry}
    (h : ∀ p, (f p).entry = g p.entry) (hprocs : k'.procs = k.procs.modify pid f)
    (hcur : k'.current_pid = k.current_pid) (hnext : k'.next_pid = k.next_pid) :
    k'.table = k.table.modify pid g := by
  unfold Kernel.table Table.modify
  rw [hprocs, hcur, hnext, toList_modify, mapVal_update h]

/-- The table depends on three fields only. -/
theorem Kernel.table_congr (hprocs : k'.procs = k.procs) (hcur : k'.current_pid = k.current_pid)
    (hnext : k'.next_pid = k.next_pid) : k'.table = k.table := by
  unfold Kernel.table
  rw [hprocs, hcur, hnext]

theorem Kernel.table_ready (k : Kernel) : k.table.ready = k.ready_pids := by
  unfold Table.ready Kernel.table Kernel.ready_pids mapVal
  rw [List.filter_map, List.map_map]
  rfl

theorem Kernel.table_find_zombie (k : Kernel) (pid : Int) :
    k.table.find_zombie pid = (k.find_zombie pid).map Prod.fst := by
  unfold Table.find_zombie Kernel.find_zombie Kernel.table mapVal
  rw [List.find?_map, Option.map_map]
  rfl

end Refine

/-! ## Section 3: System calls on tables -/

section Fixed

/-- The program does not touch the table. -/
abbrev FixesTable {α : Type} (c : KM α) : Prop := Prog.Fixes Kernel.table c

theorem fixes_io {α : Type} (c : IoM α) : FixesTable (KM.io c) := by
  intro k
  unfold KM.io
  cases run (machine k.satp) c k.view with
  | ok a s => rfl
  | error e s => rfl

theorem fixes_of_rest {α : Type} {c : KM α} (h : Prog.Fixes Kernel.rest c) : FixesTable c := by
  intro k
  have hrest := h k
  simp only [Kernel.rest, Prod.mk.injEq] at hrest
  exact Kernel.table_congr hrest.2.1 hrest.2.2.1 hrest.2.2.2.1

theorem fixes_mm {α : Type} (c : MmM α) : FixesTable (KM.mm c) := fixes_of_rest (rest_mm c)

theorem fixes_load_program (env : Env) (pt : PageTable) (data : List UInt8) (argv envp : List Path) :
    FixesTable (load_program env pt data argv envp) :=
  fixes_of_rest (rest_load_program env pt data argv envp)

theorem fixes_modify_proc (pid : Nat) {f : Process → Process} (h : ∀ p, (f p).entry = p.entry) :
    FixesTable (modify_proc pid f) := by
  refine Prog.Fixes.modify fun k => ?_
  have hid : ({ k with procs := k.procs.modify pid f } : Kernel).table = k.table.modify pid id :=
    Kernel.table_modify h rfl rfl rfl
  rw [hid]
  simp [Table.modify, update]

theorem fixes_exec_process (env : Env) (pid : Nat) (data : List UInt8) (argv envp : List Path) :
    FixesTable (exec_process env pid data argv envp) := by
  unfold exec_process
  refine (fixes_mm _).bind fun o => ?_
  cases o with
  | none => exact Prog.Fixes.pure _
  | some pt =>
    refine (fixes_mm _).bind fun _ => (fixes_load_program _ _ _ _ _).bind fun o => ?_
    cases o with
    | none => exact Prog.Fixes.pure _
    | some r =>
      refine Prog.Fixes.bind ?_ fun _ => Prog.Fixes.pure _
      exact fixes_modify_proc pid fun p => rfl

theorem fixes_sys_execve (env : Env) (path argv envp : Nat) :
    FixesTable (sys_execve env path argv envp) := by
  unfold sys_execve
  refine Prog.Fixes.get.bind fun k => ?_
  split
  · exact Prog.Fixes.pure _
  · split
    · exact (fixes_io _).bind fun _ => Prog.Fixes.pure _
    · refine (fixes_exec_process _ _ _ _ _).bind fun o => ?_
      cases o with
      | none => exact Prog.Fixes.pure _
      | some sp =>
        refine (Prog.Fixes.modify fun k => ?_).bind fun _ => Prog.Fixes.pure _
        cases k.current with
        | none => rfl
        | some proc => rfl

theorem fixes_sys_brk (addr : Nat) : FixesTable (sys_brk addr) := by
  unfold sys_brk
  refine Prog.Fixes.get.bind fun k => ?_
  cases k.current with
  | none => exact Prog.Fixes.pure _
  | some proc =>
    have hset : ∀ b : Nat, FixesTable (modify_proc k.current_pid fun p => { p with brk := b }) :=
      fun b => fixes_modify_proc _ fun p => rfl
    refine Prog.Fixes.bind (hset _) fun _ => ?_
    generalize (if proc.brk = 0 then 0x10000 else proc.brk) = brk
    split
    · exact Prog.Fixes.pure _
    · dsimp only
      split
      · exact Prog.Fixes.bind (fixes_mm _) fun _ => Prog.Fixes.bind (hset _) fun _ => Prog.Fixes.pure _
      · exact Prog.Fixes.bind (hset _) fun _ => Prog.Fixes.pure _

theorem fixes_sys_mmap (addr len : Nat) (prot flags fd : Int) (offset : Nat) :
    FixesTable (sys_mmap addr len prot flags fd offset) := by
  unfold sys_mmap
  refine Prog.Fixes.get.bind fun k => Prog.Fixes.bind (Prog.Fixes.modify ?_) fun _ => ?_
  · intro k
    rfl
  · cases k.current with
    | none => exact Prog.Fixes.bind (fixes_io _) fun _ => Prog.Fixes.pure _
    | some proc =>
      exact Prog.Fixes.bind (fixes_mm _) fun _ => Prog.Fixes.bind (fixes_io _) fun _ => Prog.Fixes.pure _

end Fixed

section Calls

variable {env : Env} {num : Nat} {a : Args} {k k' : Kernel} {r : Int}

/-- Every process has a number below the next one. -/
def Table.Numbered (T : Table) : Prop := ∀ p ∈ T.procs, p.1 < T.next_pid

theorem Kernel.numbered_iff (k : Kernel) :
    k.table.Numbered ↔ ∀ p ∈ k.procs.toList, p.1 < k.next_pid := by
  unfold Table.Numbered Kernel.table mapVal
  simp only [List.mem_map]
  constructor
  · intro h p hp
    exact h (p.1, p.2.entry) ⟨p, hp, rfl⟩
  · rintro h _ ⟨p, hp, rfl⟩
    exact h p hp

theorem sys_clone_table {stack : Nat} (hnum : k.table.Numbered) (h : sys_clone stack k = .ok r k') :
    (r = -1 ∧ k'.table = k.table) ∨ (r = k.next_pid ∧ k'.table = k.table.fork) := by
  rcases sys_clone_cases h with ⟨hr, mm, -, rfl⟩ |
    ⟨hr, parent, pt, kstack, -, -, -, -, -, -, hnext, hprocs, hcur, -⟩
  · exact Or.inl ⟨hr, rfl⟩
  · refine Or.inr ⟨hr, ?_⟩
    have hlist := toList_insert hprocs (k.numbered_iff.mp hnum)
    unfold Kernel.table Table.fork
    rw [hlist, hnext, hcur]
    unfold Process.onStack
    split <;> simp [mapVal, Process.entry, Process.forked]

/-- A process that has exited. -/
def Process.exited (code : Int) (p : Process) : Process :=
  { p with state := .Zombie, exit_code := code }

/-- A process whose child has exited. -/
def Process.woken (p : Process) : Process :=
  if p.state = .Waiting then { p with state := .Ready } else p

theorem sys_exit_eq (code : Int) (k : Kernel) :
    sys_exit code k = .ok 0 { k with
      procs := (k.procs.modify k.current_pid (Process.exited code)).modify
        ((k.current.map (·.ppid)).getD 0) Process.woken } := by
  unfold sys_exit exit_process
  simp only [Prog.bind_run, Prog.get_run, modify_proc, Prog.modify_run, Prog.pure_run]
  cases hcur : k.current with
  | none => rfl
  | some p => rfl

theorem sys_exit_table {code : Int} (h : sys_exit code k = .ok r k') :
    k'.table = k.table.exit code := by
  rw [sys_exit_eq] at h
  cases h
  have hppid : k.table.parent = (k.current.map (·.ppid)).getD 0 := by
    rw [Table.parent, Kernel.table_get, Option.map_map]
    rfl
  have hzombie : ({ k with
      procs := k.procs.modify k.current_pid (Process.exited code) } : Kernel).table =
      k.table.modify k.table.current fun e => { e with state := .Zombie, exit_code := code } :=
    Kernel.table_modify (fun p => rfl) rfl rfl rfl
  unfold Table.exit Table.set_state
  rw [← hzombie, hppid]
  refine Kernel.table_modify (fun p => ?_) rfl rfl rfl
  unfold Table.wake Process.entry Process.woken
  split <;> rfl

theorem sys_wait4_table {pid options : Int} {wstatus : Nat}
    (h : sys_wait4 pid wstatus options k = .ok r k') :
    (∃ z, k.table.find_zombie pid = some z ∧ r = z ∧ k'.table = k.table.reap z) ∨
    (k.table.find_zombie pid = none ∧ r = (if ofIsize options &&& 1 != 0 then 0 else -11) ∧
      k' = k) := by
  rw [Kernel.table_find_zombie]
  rcases sys_wait4_cases h with ⟨z, proc, k1, hz, hr, hsame, hstore, rfl⟩ | ⟨hz, hr, hk⟩
  · refine Or.inl ⟨z, by rw [hz]; rfl, hr, ?_⟩
    have htable : k1.table = k.table := by
      by_cases hw : wstatus = 0
      · rw [hsame hw]
      · exact (fixes_io _).of_ok (hstore hw)
    rw [← htable]
    unfold Table.reap Kernel.table
    simp only [toList_erase, mapVal_remove]
  · exact Or.inr ⟨by rw [hz]; rfl, hr, hk⟩

/-- **`dispatch` on tables**: the effect of a call is determined by its number,
    its arguments and its result. -/
theorem dispatch_table (hnum : k.table.Numbered) (h : dispatch env num a k = .ok r k') :
    k'.table = k.table.call num a r := by
  have hfix : num ∉ processCalls → k.table.call num a r = k.table := by
    intro hn
    simp only [processCalls, List.mem_cons, List.not_mem_nil, or_false, not_or] at hn
    unfold Table.call
    rw [if_neg (by omega), if_neg (by omega), if_neg (by omega)]
  cases dispatch_cases h with
  | io c hn hio hc =>
    rw [hfix hn]
    exact (fixes_io c).of_ok hio
  | quiet hn hk => rw [hfix hn, hk]
  | exit hn hexit =>
    rw [sys_exit_table hexit, Table.call, if_pos hn]
  | brk hn hbrk =>
    subst hn
    exact (fixes_sys_brk _).of_ok hbrk
  | clone hn hclone =>
    subst hn
    rcases sys_clone_table hnum hclone with ⟨rfl, hk⟩ | ⟨rfl, hk⟩
    · exact hk
    · rw [hk, Table.call, if_neg (by decide), if_pos ⟨rfl, Int.natCast_nonneg _⟩]
  | execve hn hexec =>
    subst hn
    exact (fixes_sys_execve _ _ _ _).of_ok hexec
  | mmap hn hmmap =>
    subst hn
    exact (fixes_sys_mmap _ _ _ _ _ _).of_ok hmmap
  | wait4 hn hwait =>
    subst hn
    unfold Table.call
    rw [if_neg (by decide), if_neg (by omega), if_pos rfl]
    rcases sys_wait4_table hwait with ⟨z, hz, -, hk⟩ | ⟨hz, -, rfl⟩
    · rw [hz]
      exact hk
    · rw [hz]

end Calls

/-! ## Section 4: A trap on tables -/

section Traps

variable {k k' : Kernel} {num : Nat} {ret : Int} {tf sp : Nat}

theorem handler_finish_table (h : handler_finish tf num ret k = .ok () k') :
    k'.table = k.table.block num ret := by
  unfold handler_finish at h
  rw [Prog.bind_run, Prog.get_run] at h
  unfold Table.block
  by_cases hblock : num = 260 ∧ ret = -11
  · simp only [if_pos hblock] at h ⊢
    cases h
    exact Kernel.table_modify (fun p => rfl) rfl rfl rfl
  · simp only [if_neg hblock] at h ⊢
    split at h
    · cases h
      rfl
    · split at h
      · cases h
        rfl
      · cases h
        rfl

/-- A process whose registers are saved in the process table. -/
def Process.saved (raw : TrapFrameRaw) (p : Process) : Process :=
  { p with
    state := if p.state = .Running then .Ready else p.state
    trap_frame := p.trap_frame.ofRaw raw }

/-- A process that the scheduler has chosen. -/
def Process.running (p : Process) : Process := { p with state := .Running }

/-- The kernel when the current process's registers are saved. -/
def Kernel.save (k : Kernel) (raw : TrapFrameRaw) : Kernel :=
  { k with procs := k.procs.modify k.current_pid (Process.saved raw) }

/-- What a returning call of `do_schedule` is, from the kernel `k` with the
    current process saved. -/
inductive Scheduled (tf_sp : Nat) (k : Kernel) (sp : Nat) (k' : Kernel) : Prop where
  /-- No process is ready: the current one goes on. -/
  | idle (p : Process) (hpick : pick_next k.ready_pids k.current_pid = none)
      (hcur : k.current = some p) (hstate : p.state ≠ .Zombie) (hsp : sp = tf_sp)
      (hk : k' = { k with procs := k.procs.modify k.current_pid Process.running })
  /-- The current one is not in the table. -/
  | missing (hpick : pick_next k.ready_pids k.current_pid = none) (hcur : k.current = none)
      (hsp : sp = tf_sp) (hk : k' = k)
  /-- The current process is its own successor. -/
  | same (hpick : pick_next k.ready_pids k.current_pid = some k.current_pid) (hsp : sp = tf_sp)
      (hk : k' = k)
  | switch (next : Nat) (p : Process)
      (hpick : pick_next k.ready_pids k.current_pid = some next) (hne : next ≠ k.current_pid)
      (hnext : k.procs[next]? = some p) (hsp : sp = wsub p.kernel_stack frameSize)
      (hk : k' = { k with
        procs := k.procs.modify next Process.running
        current_pid := next
        satp := p.page_table.root_ppn
        mm := { k.mm with
          mem := write_raw k.mm.mem (wsub p.kernel_stack frameSize) p.trap_frame.toRaw } })

/-- `do_schedule` when the current process is saved. -/
def schedule_saved (tf_sp current_pid : Nat) : KM Nat := do
  let k ← get
  match pick_next k.ready_pids current_pid with
  | none =>
    match k.current with
    | none => return tf_sp
    | some proc =>
      if proc.state = .Zombie then
        throw .shutdown
      modify_proc current_pid Process.running
      return tf_sp
  | some next_pid =>
    if next_pid = current_pid then
      return tf_sp
    match k.procs[next_pid]? with
    | none => throw (.panic "next proc missing")
    | some p =>
      let new_tf_sp := wsub p.kernel_stack frameSize
      modify_proc next_pid Process.running
      modify fun k => { k with
        current_pid := next_pid
        satp := p.page_table.root_ppn
        mm := { k.mm with mem := write_raw k.mm.mem new_tf_sp p.trap_frame.toRaw } }
      return new_tf_sp

theorem do_schedule_eq (tf : Nat) (k : Kernel) :
    do_schedule tf k = schedule_saved tf k.current_pid (k.save (read_raw k.mm.mem tf)) := rfl

/-- **Inversion of `do_schedule`.** -/
theorem do_schedule_cases (h : do_schedule tf k = .ok sp k') :
    Scheduled tf (k.save (read_raw k.mm.mem tf)) sp k' := by
  rw [do_schedule_eq] at h
  generalize hk1 : k.save (read_raw k.mm.mem tf) = k1 at h
  have hcur1 : k.current_pid = k1.current_pid := by rw [← hk1]; rfl
  unfold schedule_saved at h
  rw [hcur1, Prog.bind_run, Prog.get_run] at h
  cases hpick : pick_next k1.ready_pids k1.current_pid with
  | none =>
    simp only [hpick] at h
    cases hcur : k1.current with
    | none =>
      simp only [hcur] at h
      cases h
      exact .missing hpick hcur rfl rfl
    | some p =>
      simp only [hcur] at h
      by_cases hz : p.state = .Zombie
      · simp only [if_pos hz] at h
        cases h
      · simp only [if_neg hz] at h
        cases h
        exact .idle p hpick hcur hz rfl rfl
  | some next =>
    simp only [hpick] at h
    by_cases hne : next = k1.current_pid
    · simp only [if_pos hne] at h
      cases h
      exact .same (hne ▸ hpick) rfl rfl
    · simp only [if_neg hne] at h
      cases hnext : k1.procs[next]? with
      | none =>
        simp only [hnext] at h
        cases h
      | some p =>
        simp only [hnext] at h
        cases h
        exact .switch next p hpick hne hnext rfl rfl

theorem Kernel.table_save (k : Kernel) (raw : TrapFrameRaw) :
    (k.save raw).table = k.table.set_state k.table.current Table.yield :=
  Kernel.table_modify (fun _ => rfl) rfl rfl rfl

theorem Kernel.table_running (k : Kernel) (pid : Nat) :
    ({ k with procs := k.procs.modify pid Process.running } : Kernel).table =
      k.table.set_state pid fun _ => .Running :=
  Kernel.table_modify (fun _ => rfl) rfl rfl rfl

theorem do_schedule_table (h : do_schedule tf k = .ok sp k') :
    (k.table.set_state k.table.current Table.yield).pick = some k'.table := by
  rw [← Kernel.table_save k (read_raw k.mm.mem tf)]
  have hcases := do_schedule_cases h
  generalize k.save (read_raw k.mm.mem tf) = k1 at hcases
  unfold Table.pick
  rw [Kernel.table_ready]
  have hget : k1.table.get k1.table.current = k1.current.map Process.entry := k1.table_get _
  cases hcases with
  | idle p hpick hcur hstate hsp hk =>
    have hentry : p.entry.state ≠ .Zombie := hstate
    simp only [show pick_next k1.ready_pids k1.table.current = none from hpick, hget, hcur,
      Option.map_some, if_neg hentry, hk]
    rw [Kernel.table_running]
    rfl
  | missing hpick hcur hsp hk =>
    simp only [show pick_next k1.ready_pids k1.table.current = none from hpick, hget, hcur,
      Option.map_none, hk]
  | same hpick hsp hk =>
    simp only [show pick_next k1.ready_pids k1.table.current = some k1.table.current from hpick,
      if_true, hk]
  | switch next p hpick hne hnext hsp hk =>
    simp only [show pick_next k1.ready_pids k1.table.current = some next from hpick,
      if_neg (show next ≠ k1.table.current from hne), hk, Table.resume]
    rw [← Kernel.table_running]
    rfl

theorem trap_exit_cases {cpu cpu' : Cpu} (h : trap_exit cpu ret k = .ok cpu' k') :
    ∃ k1 sp, handler_finish cpu.tf cpu.num ret k = .ok () k1 ∧ do_schedule cpu.tf k1 = .ok sp k' ∧
      cpu' = cpu.restore (read_raw k'.mm.mem sp) sp := by
  unfold trap_exit at h
  obtain ⟨⟨⟩, k1, hfinish, h⟩ := Prog.bind_eq_ok.mp h
  obtain ⟨sp, k2, hsched, h⟩ := Prog.bind_eq_ok.mp h
  obtain ⟨k3, k4, hget, h⟩ := Prog.bind_eq_ok.mp h
  cases hget
  injection h with hcpu hk
  subst hk
  exact ⟨k1, sp, hfinish, hsched, hcpu.symm⟩

/-- **A step of the machine is the step of its table.** -/
theorem Step.table {env : Env} {s t : System} {l : Trap} (hnum : s.k.table.Numbered)
    (h : Step env s l t) :
    s.k.table.trap (s.trapCpu l).num (s.trapCpu l).args l.ret = some t.k.table := by
  obtain ⟨m, k1, hm, hd, hexit⟩ := step_iff.mp h
  obtain ⟨k2, sp, hfinish, hsched, -⟩ := trap_exit_cases hexit
  have henter : ((s.k.withMem m).enter (s.trapCpu l)).table = s.k.table := rfl
  have hcall := dispatch_table (henter ▸ hnum) hd
  have hblock := handler_finish_table hfinish
  rw [hcall, henter] at hblock
  have hpick := do_schedule_table hsched
  rw [hblock, Table.block_current, Table.call_current] at hpick
  exact hpick

end Traps

end Rvos

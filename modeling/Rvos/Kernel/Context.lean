import Rvos.Kernel.Calls

/-! # Traps and the registers of user code

    `System.Inv` is the invariant while user code runs: the kernel's own
    invariant, a process table in order, and `sscratch` at the current process's
    kernel stack.  A step whose call meets its guard keeps it (`Step.keeps`).

    The registers of a process are in the processor while it runs and in the
    process table otherwise (`System.context`); `Step.context` says what a step
    makes of them. -/

namespace Rvos

open Access ByteMem Usize

/-! ## Section 1: The frame in memory -/

section Frame

variable {m m' : Mem} {sp : Nat} {w : Word}

/-- A frame is its 35 words. -/
theorem read_raw_words (m : Mem) (sp : Nat) :
    read_raw m sp = ⟨fun i => read64 m (sp + 8 * i), read64 m (sp + 8 * 32), read64 m (sp + 8 * 33),
      read64 m (sp + 8 * 34)⟩ := by
  unfold read_raw
  rfl

theorem read_raw_congr (h : ∀ a, sp ≤ a → a < sp + 280 → m' a = m a) :
    read_raw m' sp = read_raw m sp := by
  have hword : ∀ i, i < 35 → read64 m' (sp + 8 * i) = read64 m (sp + 8 * i) := by
    intro i hi
    refine read64_congr fun x hlo hhi => ?_
    exact h _ (by omega) (by omega)
  have hx : (fun i : Fin 32 => read64 m' (sp + 8 * i)) = fun i : Fin 32 => read64 m (sp + 8 * i) := by
    funext i
    exact hword i (by omega)
  rw [read_raw_words, read_raw_words, hx, hword 32 (by omega), hword 33 (by omega),
    hword 34 (by omega)]

/-- The words of a frame are apart. -/
theorem read64_frame (m : Mem) (sp : Nat) (w : Word) (i j : Nat) :
    read64 (write64 m (sp + 8 * i) w) (sp + 8 * j) = if j = i then w else read64 m (sp + 8 * j) := by
  split
  · next h => rw [h, read64_write64_same]
  · next h => exact read64_write64_disjoint (by omega)

/-- Writing a word beyond the registers leaves them alone. -/
theorem read_frame_regs (m : Mem) (sp : Nat) (w : Word) {i : Nat} (hi : 32 ≤ i) :
    (fun j : Fin 32 => read64 (write64 m (sp + 8 * i) w) (sp + 8 * j)) =
      fun j : Fin 32 => read64 m (sp + 8 * j) := by
  funext j
  rw [read64_frame, if_neg (by omega)]

theorem read_raw_sepc (m : Mem) (sp : Nat) (w : Word) :
    read_raw (write64 m (sp + sepcOff) w) sp = { read_raw m sp with sepc := w } := by
  rw [show sepcOff = 8 * 33 from rfl, read_raw_words, read_raw_words, read_frame_regs m sp w (by omega),
    read64_frame, read64_frame, read64_frame]
  simp

theorem read_raw_orig_sp (m : Mem) (sp : Nat) (w : Word) :
    read_raw (write64 m (sp + origSpOff) w) sp = { read_raw m sp with orig_sp := w } := by
  rw [show origSpOff = 8 * 32 from rfl, read_raw_words, read_raw_words,
    read_frame_regs m sp w (by omega), read64_frame, read64_frame, read64_frame]
  simp

theorem read_raw_a0 (m : Mem) (sp : Nat) (w : Word) :
    read_raw (write64 m (sp + a0Off) w) sp =
      { read_raw m sp with x := setReg (read_raw m sp).x 10 w } := by
  have hx : (fun j : Fin 32 => read64 (write64 m (sp + 8 * 10) w) (sp + 8 * j)) =
      setReg (fun j : Fin 32 => read64 m (sp + 8 * j)) 10 w := by
    funext j
    rw [read64_frame]
    unfold setReg
    rw [Function.update_apply]
    have hj : (j : Nat) = 10 ↔ j = 10 := by
      rw [Fin.ext_iff]
      rfl
    simp only [hj]
  rw [show a0Off = 8 * 10 from rfl, read_raw_words, read_raw_words, hx, read64_frame, read64_frame,
    read64_frame]
  simp

end Frame

/-! ## Section 2: Entry and exit of a trap -/

/-- The frame as `trap_vector` and `rust_trap_handler` leave it before the call. -/
def Cpu.entered (cpu : Cpu) (sp : Nat) : TrapFrameRaw :=
  { cpu.toRaw sp with sepc := if cpu.num = 221 then cpu.pc else cpu.pc + 4 }

/-- The frame as `rust_trap_handler` leaves it after a call that returned `ret`. -/
def TrapFrameRaw.finished (f : TrapFrameRaw) (num : Nat) (ret : Int) (ctf : TrapFrame) :
    TrapFrameRaw :=
  let f :=
    if num = 260 ∧ ret = -11 then { f with sepc := f.sepc - 4 }
    else if num = 221 ∧ ret = 0 then { f with sepc := ctf.sepc, orig_sp := ctf.regs 2 }
    else if num = 221 ∧ ret < 0 then { f with sepc := f.sepc + 4 }
    else f
  { f with x := setReg f.x 10 (BitVec.ofInt 64 ret) }

section Exit

variable {k : Kernel} {cpu : Cpu} {sp tf num : Nat} {ret : Int}

theorem enter_frame (k : Kernel) (cpu : Cpu) (sp : Nat) :
    read_raw (k.enterAt cpu sp).mm.mem sp = cpu.entered sp := by
  unfold Kernel.enterAt Cpu.entered
  by_cases h : cpu.num = 221
  · simp only [if_pos h]
    rw [read_write_raw]
    rfl
  · simp only [if_neg h]
    rw [read_raw_sepc, read_write_raw]

theorem enter_out {a : Nat} (h : a < sp ∨ sp + 280 ≤ a) :
    (k.enterAt cpu sp).mm.mem a = k.mm.mem a := by
  unfold Kernel.enterAt
  by_cases hnum : cpu.num = 221
  · simp only [if_pos hnum]
    exact write_raw_out h
  · simp only [if_neg hnum]
    rw [write64_out (by unfold sepcOff; omega), write_raw_out h]

/-- **What `rust_trap_handler` does after the call.** -/
theorem handler_finish_run (tf num : Nat) (ret : Int) (k : Kernel) :
    ∃ m, handler_finish tf num ret k = .ok () { k with
        mm := { k.mm with mem := m }
        procs := if num = 260 ∧ ret = -11 then
          k.procs.modify k.current_pid fun p => { p with state := .Waiting } else k.procs } ∧
      read_raw m tf = (read_raw k.mm.mem tf).finished num ret k.current_trap_frame ∧
      ∀ a, a < tf ∨ tf + 280 ≤ a → m a = k.mm.mem a := by
  have hsepc : read64 k.mm.mem (tf + sepcOff) = (read_raw k.mm.mem tf).sepc := by
    rw [read_raw_words]
    rfl
  unfold handler_finish TrapFrameRaw.finished
  simp only [Prog.bind_run, Prog.get_run, hsepc]
  generalize hf : read_raw k.mm.mem tf = f
  by_cases h1 : num = 260 ∧ ret = -11
  · simp only [if_pos h1]
    refine ⟨write64 (write64 k.mm.mem (tf + sepcOff) (f.sepc - 4)) (tf + a0Off)
      (BitVec.ofInt 64 ret), rfl, ?_, ?_⟩
    · rw [read_raw_a0, read_raw_sepc, hf]
    · intro a ha
      rw [write64_out (by unfold a0Off; omega), write64_out (by unfold sepcOff; omega)]
  · simp only [if_neg h1]
    by_cases h2 : num = 221 ∧ ret = 0
    · simp only [if_pos h2]
      refine ⟨write64 (write64 (write64 (write64 k.mm.mem (tf + sepcOff) k.current_trap_frame.sepc)
        (tf + origSpOff) (k.current_trap_frame.regs 2)) (tf + a0Off) (k.current_trap_frame.regs 10))
        (tf + a0Off) (BitVec.ofInt 64 ret), rfl, ?_, ?_⟩
      · rw [read_raw_a0, read_raw_a0, read_raw_orig_sp, read_raw_sepc, hf]
        simp only [setReg, Function.update_idem]
      · intro a ha
        rw [write64_out (by unfold a0Off; omega), write64_out (by unfold a0Off; omega),
          write64_out (by unfold origSpOff; omega), write64_out (by unfold sepcOff; omega)]
    · simp only [if_neg h2]
      by_cases h3 : num = 221 ∧ ret < 0
      · simp only [if_pos h3]
        refine ⟨write64 (write64 k.mm.mem (tf + sepcOff) (f.sepc + 4)) (tf + a0Off)
          (BitVec.ofInt 64 ret), rfl, ?_, ?_⟩
        · rw [read_raw_a0, read_raw_sepc, hf]
        · intro a ha
          rw [write64_out (by unfold a0Off; omega), write64_out (by unfold sepcOff; omega)]
      · simp only [if_neg h3]
        refine ⟨write64 k.mm.mem (tf + a0Off) (BitVec.ofInt 64 ret), rfl, ?_, ?_⟩
        · rw [read_raw_a0, hf]
        · intro a ha
          rw [write64_out (by unfold a0Off; omega)]

end Exit

/-! ## Section 3: The processes during a call -/

/-- What user code can notice of its process, and the stack on which it is
    interrupted, are the same. -/
structure Process.Alike (p p' : Process) : Prop where
  page_table : p'.page_table = p.page_table
  trap_frame : p'.trap_frame = p.trap_frame
  kernel_stack : p'.kernel_stack = p.kernel_stack
  brk : p'.brk = p.brk

theorem Process.Alike.refl (p : Process) : p.Alike p := ⟨rfl, rfl, rfl, rfl⟩

theorem Process.Alike.trans {p q r : Process} (h1 : p.Alike q) (h2 : q.Alike r) : p.Alike r :=
  ⟨h2.page_table.trans h1.page_table, h2.trap_frame.trans h1.trap_frame,
    h2.kernel_stack.trans h1.kernel_stack, h2.brk.trans h1.brk⟩

/-- Where the processes after a call come from: a process other than the caller
    is as it was, the caller keeps its kernel stack, and `clone` adds one. -/
def ProcsAfter (num : Nat) (ret : Int) (k k' : Kernel) : Prop :=
  ∀ q p', k'.procs[q]? = some p' →
    (∃ p, k.procs[q]? = some p ∧ p'.kernel_stack = p.kernel_stack ∧
      (q ≠ k.current_pid ∨ (num ≠ 214 ∧ num ≠ 221) → p.Alike p')) ∨
    (num = 220 ∧ q = k.next_pid ∧ ret = q)

section Procs

variable {env : Env} {num : Nat} {a : Args} {k k' : Kernel} {ret : Int}

theorem procs_same (h : k'.procs = k.procs) : ProcsAfter num ret k k' := by
  intro q p' hp'
  rw [h] at hp'
  exact Or.inl ⟨p', hp', rfl, fun _ => Process.Alike.refl p'⟩

theorem procs_modify {pid : Nat} {f : Process → Process} (hf : ∀ p : Process, p.Alike (f p))
    (h : k'.procs = k.procs.modify pid f) {q : Nat} {p' : Process} (hp' : k'.procs[q]? = some p') :
    ∃ p, k.procs[q]? = some p ∧ p.Alike p' := by
  rw [h, Assoc.get_modify] at hp'
  split at hp'
  · obtain ⟨p, hp, rfl⟩ := Option.map_eq_some_iff.mp hp'
    exact ⟨p, hp, hf p⟩
  · exact ⟨p', hp', Process.Alike.refl p'⟩

theorem io_procs {α : Type} {c : IoM α} {r : α} (h : KM.io c k = .ok r k') : k'.procs = k.procs := by
  obtain ⟨s, -, rfl⟩ := KM.io_eq_ok.mp h
  rfl

theorem dispatch_procs {proc : Process} (hcur : k.current = some proc)
    (h : dispatch env num a k = .ok ret k') : ProcsAfter num ret k k' := by
  cases dispatch_cases h with
  | io c hnum hio hc => exact procs_same (io_procs hio)
  | quiet hnum hk => exact procs_same (by rw [hk])
  | exit hnum hexit =>
    rw [sys_exit_eq] at hexit
    cases hexit
    intro q p' hp'
    have hwoken : ∀ p : Process, p.Alike p.woken := by
      intro p
      unfold Process.woken
      split
      · exact ⟨rfl, rfl, rfl, rfl⟩
      · exact Process.Alike.refl p
    have hexited : ∀ p : Process, p.Alike (p.exited (toIsize a.a0)) := fun p => ⟨rfl, rfl, rfl, rfl⟩
    obtain ⟨p1, hp1, h1⟩ := procs_modify (k := { k with
      procs := k.procs.modify k.current_pid (Process.exited (toIsize a.a0)) }) hwoken rfl hp'
    obtain ⟨p, hp, h2⟩ := procs_modify (k := k) hexited rfl hp1
    exact Or.inl ⟨p, hp, (h2.trans h1).kernel_stack, fun _ => h2.trans h1⟩
  | brk hnum hbrk =>
    obtain ⟨mm, b, -, -, -, -, -, -, hprocs, -⟩ := sys_brk_cases hcur hbrk
    intro q p' hp'
    rw [hprocs] at hp'
    split at hp'
    · next hq =>
      cases hp'
      exact Or.inl ⟨proc, hq ▸ hcur, rfl, fun hne => by rcases hne with hne | hne <;> tauto⟩
    · exact Or.inl ⟨p', hp', rfl, fun _ => Process.Alike.refl p'⟩
  | clone hnum hclone =>
    rcases sys_clone_cases hclone with ⟨-, mm, -, rfl⟩ |
      ⟨hret, p, pt, kstack, mm1, mm2, -, -, -, -, -, hprocs, -⟩
    · exact procs_same rfl
    · intro q p' hp'
      rw [hprocs] at hp'
      split at hp'
      · next hq => exact Or.inr ⟨hnum, hq, by rw [hq]; exact hret⟩
      · exact Or.inl ⟨p', hp', rfl, fun _ => Process.Alike.refl p'⟩
  | execve hnum hexec =>
    rcases sys_execve_cases hexec with ⟨-, io, rfl⟩ |
      ⟨name, argv', envp', data, o, k1, -, -, hrun, hend⟩
    · exact procs_same rfl
    · -- only the caller's entry is changed
      have h1 : ∀ q p', k1.procs[q]? = some p' → ∃ p, k.procs[q]? = some p ∧
          p'.kernel_stack = p.kernel_stack ∧ (q ≠ k.current_pid → p.Alike p') := by
        intro q p' hp'
        rcases exec_process_cases hrun with ⟨-, mm, -, rfl⟩ |
          ⟨pt, mm1, mm2, loaded, k3, -, -, hload, hdone⟩
        · exact ⟨p', hp', rfl, fun _ => Process.Alike.refl p'⟩
        · have hrest := (rest_load_program env pt data argv' (with_path envp')).of_ok hload
          simp only [Kernel.rest, Prod.mk.injEq] at hrest
          rcases hdone with ⟨-, -, rfl⟩ | ⟨elf, max_end, -, -, rfl⟩
          · rw [hrest.2.1] at hp'
            exact ⟨p', hp', rfl, fun _ => Process.Alike.refl p'⟩
          · simp only [Assoc.get_modify, hrest.2.1] at hp'
            split at hp'
            · next hq =>
              obtain ⟨p, hp, rfl⟩ := Option.map_eq_some_iff.mp hp'
              exact ⟨p, hp, rfl, fun hne => absurd hq hne⟩
            · exact ⟨p', hp', rfl, fun _ => Process.Alike.refl p'⟩
      intro q p' hp'
      have hprocs : k'.procs = k1.procs := by
        rcases hend with ⟨-, -, rfl⟩ | ⟨sp, -, -, rfl⟩
        · rfl
        · unfold Kernel.exec_enter
          split <;> rfl
      rw [hprocs] at hp'
      obtain ⟨p, hp, hks, halike⟩ := h1 q p' hp'
      exact Or.inl ⟨p, hp, hks, fun hne => halike (by rcases hne with hne | hne <;> tauto)⟩
  | mmap hnum hmmap =>
    obtain ⟨mm, base, -, hfill⟩ := sys_mmap_cases hcur hmmap
    have hprocs := io_procs hfill
    exact procs_same hprocs
  | wait4 hnum hwait =>
    rcases sys_wait4_cases hwait with ⟨z, p, k1, -, -, hsame, hstore, rfl⟩ | ⟨-, -, rfl⟩
    · have hprocs : k1.procs = k.procs := by
        by_cases hw : a.a1 = 0
        · rw [hsame hw]
        · exact io_procs (hstore hw)
      intro q p' hp'
      simp only [Assoc.get_erase, hprocs] at hp'
      split at hp'
      · cases hp'
      · exact Or.inl ⟨p', hp', rfl, fun _ => Process.Alike.refl p'⟩
    · exact procs_same rfl

end Procs

/-! ## Section 4: The invariant of the running system -/

/-- The invariant while user code runs. -/
structure System.Inv (s : System) : Prop where
  kernel : s.k.Inv
  live : s.k.table.Live
  scratch : ∀ p, s.k.current = some p → s.cpu.sscratch = p.kernel_stack

/-- Nothing but kernel stacks has changed in memory, and no process has moved. -/
structure Kernel.StackOnly (k k' : Kernel) : Prop where
  home : k'.home = k.home
  pages : k'.mm.pages = k.mm.pages
  mem : ∀ a, (∀ f ∈ kernelStacks k.home, ¬ InFrame f a) → k'.mm.mem a = k.mm.mem a

theorem Kernel.StackOnly.trans {k k' k'' : Kernel} (h1 : k.StackOnly k') (h2 : k'.StackOnly k'') :
    k.StackOnly k'' where
  home := h2.home.trans h1.home
  pages := h2.pages.trans h1.pages
  mem := by
    intro a ha
    rw [h2.mem a (h1.home ▸ ha), h1.mem a ha]

section Trap

variable {k k' : Kernel} {p : Process} {tf sp : Nat}

/-- Where the frame of a process is. -/
theorem Spaces.frame {s : Mm} {home : Nat → Option Home} (h : Spaces s home) {q : Nat} {x : Home}
    (hx : home q = some x) :
    wsub x.stack frameSize = x.stack - 288 ∧ wsub x.stack frameSize + frameSize = x.stack ∧
      8192 ≤ x.stack := by
  obtain ⟨-, hge⟩ := h.top q x hx
  obtain ⟨-, hle⟩ := h.stack_le hx
  have hsub : wsub x.stack frameSize = x.stack - 288 := by
    unfold frameSize
    rw [wsub_of_le (by omega) (by omega)]
  rw [hsub]
  unfold frameSize
  omega

/-- The frame of a process is on its kernel stack. -/
theorem Spaces.frame_stack {s : Mm} {home : Nat → Option Home} (h : Spaces s home) {q : Nat}
    {x : Home} (hx : home q = some x) {a : Nat} (h1 : wsub x.stack frameSize ≤ a)
    (h2 : a < wsub x.stack frameSize + 280) : ∃ f ∈ kernelStacks home, InFrame f a := by
  obtain ⟨hsub, -, hge⟩ := h.frame hx
  obtain ⟨hal, -⟩ := h.top q x hx
  refine ⟨x.stack / 4096 - 1, stack_mem hx (by simp [stackFrames]), ?_⟩
  unfold InFrame
  omega

/-- Writing to the frame of a process. -/
theorem Kernel.Inv.write_frame (h : k.Inv) {q : Nat} {x : Home} (hx : k.home q = some x) {m : Mem}
    (hm : ∀ a, a < wsub x.stack frameSize ∨ wsub x.stack frameSize + 280 ≤ a → m a = k.mm.mem a) :
    (k.withMem m).Inv := by
  obtain ⟨hsub, -, hge⟩ := h.spaces.frame hx
  rw [hsub] at hm
  refine h.write fun a hne => h.spaces.frame_loose hx ?_ ?_
  · by_contra hlt
    exact hne (hm a (Or.inl (by omega)))
  · by_contra hlt
    exact hne (hm a (Or.inr (by omega)))

theorem Kernel.home_of (h : k.procs[q]? = some p) : k.home q = some p.home := by
  unfold Kernel.home
  rw [h]
  rfl

/-- Saving the registers keeps the invariant. -/
theorem Kernel.Inv.save (h : k.Inv) (raw : TrapFrameRaw) : (k.save raw).Inv :=
  h.modify_proc fun _ => rfl

theorem Kernel.Inv.stack_only (h : k.Inv) {q : Nat} {x : Home} (hx : k.home q = some x)
    (hhome : k'.home = k.home) (hpages : k'.mm.pages = k.mm.pages)
    (hm : ∀ a, a < wsub x.stack frameSize ∨ wsub x.stack frameSize + 280 ≤ a →
      k'.mm.mem a = k.mm.mem a) : k.StackOnly k' := by
  refine ⟨hhome, hpages, fun a ha => hm a ?_⟩
  by_contra hin
  obtain ⟨f, hf, hf'⟩ := h.spaces.frame_stack hx (a := a) (by omega) (by omega)
  exact ha f hf hf'

theorem Process.home_running (p : Process) : p.running.home = p.home := rfl

/-- Another process is continued, after its frame has been written. -/
theorem Kernel.Inv.switch (h : k.Inv) {next : Nat} (hnext : k.procs[next]? = some p) {m : Mem}
    (hm : ∀ a, a < wsub p.kernel_stack frameSize ∨ wsub p.kernel_stack frameSize + 280 ≤ a →
      m a = k.mm.mem a) :
    ({ k with
      procs := k.procs.modify next Process.running
      current_pid := next
      satp := p.page_table.root_ppn
      mm := { k.mm with mem := m } } : Kernel).Inv := by
  have hmem := h.write_frame (Kernel.home_of hnext) hm
  have hhome := @home_modify next Process.running Process.home_running k
  refine ⟨⟨?_, ?_, hmem.heap⟩, p.home, ?_, rfl⟩
  · show Spaces _ (Kernel.home { k with procs := k.procs.modify next Process.running })
    rw [hhome]
    exact hmem.spaces
  · show UserFlags _ (roots (Kernel.home { k with procs := k.procs.modify next Process.running }))
    rw [hhome]
    exact hmem.flags
  · show Kernel.home { k with procs := k.procs.modify next Process.running } next = _
    rw [hhome]
    exact Kernel.home_of hnext

theorem Kernel.Inv.switch_stack (h : k.Inv) {next : Nat} (hnext : k.procs[next]? = some p) {m : Mem}
    (hm : ∀ a, a < wsub p.kernel_stack frameSize ∨ wsub p.kernel_stack frameSize + 280 ≤ a →
      m a = k.mm.mem a) :
    k.StackOnly { k with
      procs := k.procs.modify next Process.running
      current_pid := next
      satp := p.page_table.root_ppn
      mm := { k.mm with mem := m } } :=
  h.stack_only (Kernel.home_of hnext) (@home_modify next Process.running Process.home_running k) rfl hm

/-- The process after the scheduler has marked it. -/
theorem get_running {next : Nat} (hnext : k.procs[next]? = some p) :
    (k.procs.modify next Process.running)[next]? = some p.running := by
  rw [Assoc.get_modify, if_pos rfl, hnext]
  rfl

/-- **The scheduler** keeps the invariant and continues on the kernel stack of
    the process it has chosen. -/
theorem Scheduled.keeps (h : k.Inv) (hcur : k.current = some p)
    (htf : tf = wsub p.kernel_stack frameSize) (hs : Scheduled tf k sp k') :
    k'.Inv ∧ k.StackOnly k' ∧ ∃ p', k'.current = some p' ∧ sp = wsub p'.kernel_stack frameSize := by
  have hrunning := fun next => @home_modify next Process.running Process.home_running k
  cases hs with
  | idle p1 hpick hcur1 hstate hsp hk =>
    rw [hk]
    exact ⟨h.modify_proc Process.home_running, ⟨hrunning _, rfl, fun _ _ => rfl⟩, p.running,
      get_running hcur, by rw [hsp, htf]; rfl⟩
  | missing hpick hnone hsp hk =>
    rw [hcur] at hnone
    cases hnone
  | same hpick hsp hk =>
    rw [hk]
    exact ⟨h, ⟨rfl, rfl, fun _ _ => rfl⟩, p, hcur, by rw [hsp, htf]⟩
  | switch next p1 hpick hne hnext hsp hk =>
    rw [hk]
    exact ⟨h.switch hnext fun a ha => write_raw_out ha,
      h.switch_stack hnext fun a ha => write_raw_out ha, p1.running, get_running hnext, hsp⟩

end Trap

/-! ## Section 5: The registers of every process -/

/-- The registers of user code. -/
structure Context where
  x : Regs
  pc : Word
  sstatus : Word

def TrapFrame.context (tf : TrapFrame) : Context := ⟨setReg tf.regs 0 0, tf.sepc, tf.sstatus⟩

def Cpu.context (cpu : Cpu) : Context := ⟨setReg cpu.x 0 0, cpu.pc, cpu.sstatus⟩

/-- The registers of a process: in the processor while it runs, else in the table. -/
def System.context (s : System) (q : Nat) : Option Context :=
  if q = s.k.current_pid then some s.cpu.context
  else s.k.procs[q]?.map fun p => p.trap_frame.context

/-- The registers of the caller after its call: the result in `a0`, and the next
    instruction, except that a blocked `wait4` is executed again and a successful
    `execve` starts at `entry` with the stack pointer `sp`. -/
def Context.returned (c : Context) (num : Nat) (ret : Int) (entry sp : Word) : Context where
  x := setReg (setReg (if num = 221 ∧ ret = 0 then setReg c.x 2 sp else c.x) 10
    (BitVec.ofInt 64 ret)) 0 0
  pc := if num = 260 ∧ ret = -11 then c.pc else if num = 221 ∧ ret = 0 then entry else c.pc + 4
  sstatus := c.sstatus

/-- The registers of the child of a `clone`. -/
def Context.forked (c : Context) (stack : Nat) : Context where
  x := setReg (if stack ≠ 0 then setReg (setReg c.x 10 0) 2 (BitVec.ofNat 64 stack)
    else setReg c.x 10 0) 0 0
  pc := c.pc + 4
  sstatus := c.sstatus

section Registers

variable {k k' : Kernel} {p : Process} {tf sp : Nat}

theorem setReg_comm (x : Regs) {i j : Fin 32} (h : i ≠ j) (v w : Word) :
    setReg (setReg x i v) j w = setReg (setReg x j w) i v := by
  unfold setReg
  exact Function.update_comm h v w x

theorem setReg_idem (x : Regs) (i : Fin 32) (v w : Word) : setReg (setReg x i v) i w = setReg x i w := by
  unfold setReg
  exact Function.update_idem ..

theorem setReg_self (x : Regs) (i : Fin 32) : setReg x i (x i) = x := Function.update_eq_self i x

/-- What is restored from a frame is what the process table would hold. -/
theorem restore_context (cpu : Cpu) (tf : TrapFrame) (raw : TrapFrameRaw) (sp : Nat) :
    (cpu.restore raw sp).context = (tf.ofRaw raw).context := by
  unfold Cpu.restore Cpu.context TrapFrame.ofRaw TrapFrame.context
  simp only [setReg_comm raw.x (show (0 : Fin 32) ≠ 2 by decide), setReg_idem]

theorem ofRaw_toRaw_context (tf tf' : TrapFrame) : (tf'.ofRaw tf.toRaw).context = tf.context := by
  unfold TrapFrame.ofRaw TrapFrame.toRaw TrapFrame.context
  simp only [setReg_self]

/-- **The scheduler and the registers**: whichever process is continued, every
    process has the registers that the process table held. -/
theorem Scheduled.context (hcur : k.current = some p)
    (hraw : ∃ tf' : TrapFrame, p.trap_frame = tf'.ofRaw (read_raw k.mm.mem tf)) (hs : Scheduled tf k sp k')
    (cpu : Cpu) (q : Nat) :
    (System.mk k' (cpu.restore (read_raw k'.mm.mem sp) sp)).context q =
      k.procs[q]?.map fun p => p.trap_frame.context := by
  obtain ⟨tf', htf'⟩ := hraw
  have hcur' : k.procs[k.current_pid]? = some p := hcur
  have hother : ∀ next q, q ≠ next → (k.procs.modify next Process.running)[q]? = k.procs[q]? := by
    intro next q hq
    rw [Assoc.get_modify, if_neg hq]
  unfold System.context
  cases hs with
  | idle p1 hpick hcur1 hstate hsp hk =>
    rw [hk, hsp]
    dsimp only
    split
    · next hq => rw [hq, hcur', restore_context cpu tf', ← htf']; rfl
    · next hq => rw [hother _ _ hq]
  | missing hpick hnone hsp hk =>
    rw [hcur] at hnone
    cases hnone
  | same hpick hsp hk =>
    rw [hk, hsp]
    dsimp only
    split
    · next hq => rw [hq, hcur', restore_context cpu tf', ← htf']; rfl
    · rfl
  | switch next p1 hpick hne hnext hsp hk =>
    rw [hk, hsp]
    dsimp only
    split
    · next hq =>
      rw [hq, hnext, read_write_raw, restore_context cpu tf', ofRaw_toRaw_context]
      rfl
    · next hq => rw [hother _ _ hq]

/-- The frame holds the kernel's stack pointer in place of `x2`. -/
theorem frame_regs (x : Regs) (v w y : Word) :
    setReg (setReg (setReg (setReg x 2 v) 10 w) 2 y) 0 0 =
      setReg (setReg (setReg (setReg x 0 0) 2 y) 10 w) 0 0 := by
  rw [setReg_comm _ (show (2 : Fin 32) ≠ 10 by decide), setReg_idem,
    setReg_comm x (show (0 : Fin 32) ≠ 2 by decide),
    setReg_comm _ (show (0 : Fin 32) ≠ 10 by decide), setReg_idem,
    setReg_comm _ (show (10 : Fin 32) ≠ 2 by decide)]

theorem frame_regs_self (x : Regs) (v w : Word) :
    setReg (setReg (setReg (setReg x 2 v) 10 w) 2 (x 2)) 0 0 =
      setReg (setReg (setReg x 0 0) 10 w) 0 0 := by
  rw [frame_regs, setReg_comm x (show (0 : Fin 32) ≠ 2 by decide), setReg_self]

theorem finished_context (cpu : Cpu) (tf ctf : TrapFrame) (sp : Nat) {ret : Int}
    (hexec : cpu.num = 221 → ret ≤ 0) :
    (tf.ofRaw ((cpu.entered sp).finished cpu.num ret ctf)).context =
      cpu.context.returned cpu.num ret ctf.sepc (ctf.regs 2) := by
  unfold TrapFrame.ofRaw TrapFrame.context TrapFrameRaw.finished Cpu.entered Cpu.toRaw
    Context.returned Cpu.context
  by_cases h1 : cpu.num = 260 ∧ ret = -11
  · have hnum : cpu.num ≠ 221 := by omega
    simp only [if_pos h1, hnum, false_and, if_false, frame_regs_self, add_sub_cancel_right]
  · simp only [if_neg h1]
    by_cases hnum : cpu.num = 221
    · have hle := hexec hnum
      by_cases h2 : ret = 0
      · simp only [hnum, h2, and_self, if_true, frame_regs]
      · have hlt : ret < 0 := by omega
        simp only [hnum, h2, hlt, and_false, and_self, if_false, if_true, frame_regs_self]
    · simp only [hnum, false_and, if_false, frame_regs_self]

end Registers

/-! ## Section 6: A step -/

section Steps

variable {k k' : Kernel} {cpu : Cpu} {sp : Nat}

theorem Kernel.Inv.enterAt (h : k.Inv) {q : Nat} {x : Home} (hx : k.home q = some x)
    (hsp : sp = wsub x.stack frameSize) (cpu : Cpu) : (k.enterAt cpu sp).Inv := by
  have hm : ∀ a, a < wsub x.stack frameSize ∨ wsub x.stack frameSize + 280 ≤ a →
      (k.enterAt cpu sp).mm.mem a = k.mm.mem a := by
    rw [← hsp]
    exact fun a ha => enter_out ha
  exact (h.write_frame hx hm).congr rfl rfl rfl rfl rfl

/-- The handler's exit keeps the invariant. -/
theorem handler_finish_keeps (h : k.Inv) {num : Nat} {ret : Int} {q : Nat} {x : Home}
    (hx : k.home q = some x) (hsp : sp = wsub x.stack frameSize)
    (hrun : handler_finish sp num ret k = .ok () k') :
    k'.Inv ∧ k.StackOnly k' ∧ k'.current_pid = k.current_pid ∧
      read_raw k'.mm.mem sp = (read_raw k.mm.mem sp).finished num ret k.current_trap_frame ∧
      ∀ r, r ≠ k.current_pid → k'.procs[r]? = k.procs[r]? := by
  obtain ⟨m, hrun', hraw, hout⟩ := handler_finish_run sp num ret k
  rw [hrun'] at hrun
  cases hrun
  rw [hsp] at hout
  have hinv := h.write_frame hx hout
  have hwaiting : ∀ p : Process, ({ p with state := .Waiting } : Process).home = p.home :=
    fun _ => rfl
  by_cases hblock : num = 260 ∧ ret = -11
  · simp only [if_pos hblock]
    refine ⟨hinv.modify_proc hwaiting, h.stack_only hx (home_modify hwaiting k) rfl hout, trivial,
      hraw, ?_⟩
    intro r hr
    rw [Assoc.get_modify, if_neg hr]
  · simp only [if_neg hblock]
    exact ⟨hinv, h.stack_only hx rfl rfl hout, trivial, hraw, fun _ _ => trivial⟩

/-- The call of the step from `s` meets its guard. -/
def System.Guarded (env : Env) (s : System) (l : Trap) : Prop :=
  ∀ k, s.AtCall l k → Guard env k (s.trapCpu l).num (s.trapCpu l).args

/-- What is inside a step from `s` to `t`: the kernel `k1` when the call is made
    and `k2` when it has returned. -/
structure Inside (env : Env) (s : System) (l : Trap) (t : System) (k1 k2 : Kernel) : Prop where
  call : s.AtCall l k1
  before : k1.Inv
  run : dispatch env (s.trapCpu l).num (s.trapCpu l).args k1 = .ok l.ret k2
  after : k2.Inv
  kstacks : k1.StacksKept k2
  procs : ProcsAfter (s.trapCpu l).num l.ret k1 k2
  same : k2.current_pid = s.k.current_pid
  rest : k2.StackOnly t.k

/-- The registers after a step. -/
def Inside.Registers (s : System) (l : Trap) (t : System) (k2 : Kernel) : Prop :=
  ∀ q, t.context q = if q = s.k.current_pid then
    some ((s.trapCpu l).context.returned (s.trapCpu l).num l.ret k2.current_trap_frame.sepc
      (k2.current_trap_frame.regs 2))
  else k2.procs[q]?.map fun p => p.trap_frame.context

theorem execve_nonpos {env : Env} {num : Nat} {a : Args} {ret : Int} (hnum : num = 221)
    (h : dispatch env num a k = .ok ret k') : ret ≤ 0 := by
  subst hnum
  rcases sys_execve_cases (show sys_execve env a.a0 a.a1 a.a2 k = .ok ret k' from h) with
    ⟨hneg, -⟩ | ⟨_, _, _, _, _, _, _, _, _, hend⟩
  · omega
  · rcases hend with ⟨-, hr, -⟩ | ⟨sp, -, hr, -⟩ <;> omega

variable {env : Env} {s t : System} {l : Trap}

/-- **A step keeps the invariant**, and what becomes of the registers. -/
theorem Step.keeps (h : s.Inv) (hg : s.Guarded env l) (hstep : Step env s l t) :
    t.Inv ∧ ∃ k1 k2, Inside env s l t k1 k2 ∧ Inside.Registers s l t k2 := by
  have hlive : t.k.table.Live := by
    obtain ⟨e, he⟩ := l.exists_event s
    exact (h.live.next (Happens.next h.live.ok.numbered ⟨l, hstep, he⟩)).2.2
  obtain ⟨m, k2, hm, hd, hexit⟩ := step_iff.mp hstep
  obtain ⟨k3, sp, hfinish, hsched, hcpu⟩ := trap_exit_cases hexit
  -- the frame is at the top of the caller's kernel stack
  obtain ⟨p, hcur, -, hhome⟩ := h.kernel.current
  have htf : (s.trapCpu l).tf = wsub p.kernel_stack frameSize :=
    congrArg (wsub · frameSize) (h.scratch p hcur)
  have h0 : (s.k.withMem m).Inv := h.kernel.user_stores hm
  have h1 : ((s.k.withMem m).enter (s.trapCpu l)).Inv := h0.enterAt hhome htf _
  have hcall : s.AtCall l ((s.k.withMem m).enter (s.trapCpu l)) := ⟨m, hm, rfl⟩
  have hframe1 : read_raw ((s.k.withMem m).enter (s.trapCpu l)).mm.mem (s.trapCpu l).tf =
      (s.trapCpu l).entered (s.trapCpu l).tf := enter_frame _ _ _
  have hhome1 : ((s.k.withMem m).enter (s.trapCpu l)).home s.k.current_pid =
      some ⟨s.k.satp, p.kernel_stack⟩ := hhome
  have hcur1 : ((s.k.withMem m).enter (s.trapCpu l)).current = some p := hcur
  have hlive1 : ((s.k.withMem m).enter (s.trapCpu l)).table.Live := h.live
  have hpid1 : ((s.k.withMem m).enter (s.trapCpu l)).current_pid = s.k.current_pid := rfl
  have hguard := hg _ hcall
  generalize (s.k.withMem m).enter (s.trapCpu l) = k1 at *
  generalize hc : s.trapCpu l = cpu at *
  -- the call
  obtain ⟨h2, hstacks⟩ := dispatch_keeps h1 hlive1 hguard hd
  have hprocs := dispatch_procs hcur1 hd
  have hpid2 : k2.current_pid = k1.current_pid := by
    have := congrArg Table.current (dispatch_table hlive1.ok.numbered hd)
    rwa [Table.call_current] at this
  obtain ⟨p2, hcur2, -, hhome2⟩ := h2.current
  have hks2 : p2.kernel_stack = p.kernel_stack := by
    rcases hprocs _ p2 hcur2 with ⟨p', hp', hks, -⟩ | ⟨-, hq, -⟩
    · rw [hpid2, show k1.procs[k1.current_pid]? = some p from hcur1] at hp'
      cases hp'
      exact hks
    · have := hlive1.current_lt
      exact absurd (hpid2.symm.trans hq) (Nat.ne_of_lt this)
  have hframe2 : read_raw k2.mm.mem cpu.tf = cpu.entered cpu.tf := by
    rw [← hframe1]
    refine read_raw_congr fun a hlo hhi => ?_
    rw [htf] at hlo hhi
    obtain ⟨f, hf, hin⟩ := h1.spaces.frame_stack hhome1 hlo hhi
    exact hstacks f hf a hin
  have htf2 : cpu.tf = wsub p2.kernel_stack frameSize := by rw [htf, hks2]
  -- the exit of the handler
  obtain ⟨h3, hrest3, hpid3, hframe3, hprocs3⟩ := handler_finish_keeps h2 hhome2 htf2 hfinish
  rw [hframe2] at hframe3
  obtain ⟨p3, hcur3, -, hhome3⟩ := h3.current
  have htf3 : cpu.tf = wsub p3.kernel_stack frameSize := by
    rw [hrest3.home, hpid3, hhome2] at hhome3
    rw [htf2]
    exact congrArg (wsub · frameSize) (congrArg Home.stack (Option.some.inj hhome3))
  -- the scheduler
  have hsched := do_schedule_cases hsched
  rw [hframe3] at hsched
  generalize hraw : (cpu.entered cpu.tf).finished cpu.num l.ret k2.current_trap_frame = raw at *
  have hcur4 : (k3.save raw).current = some (p3.saved raw) := by
    unfold Kernel.save Kernel.current
    rw [Assoc.get_modify, if_pos rfl, show k3.procs[k3.current_pid]? = some p3 from hcur3]
    rfl
  obtain ⟨h5, hrest5, p5, hcur5, hsp5⟩ := hsched.keeps (h3.save raw) hcur4 htf3
  have hrest4 : k3.StackOnly (k3.save raw) :=
    ⟨home_modify (f := Process.saved raw) (fun _ => rfl) k3, rfl, fun _ _ => rfl⟩
  refine ⟨⟨h5, hlive, ?_⟩, k1, k2, ⟨hcall, h1, hc ▸ hd, h2, hstacks, hc ▸ hprocs, ?_,
    hrest3.trans (hrest4.trans hrest5)⟩, ?_⟩
  · intro p' hp'
    rw [hcur5] at hp'
    cases hp'
    rw [hcpu]
    show sp + frameSize = _
    rw [hsp5]
    exact (h5.spaces.frame (Kernel.home_of hcur5)).2.1
  · rw [hpid2, hpid1]
  · intro q
    have hctx := hsched.context hcur4 ⟨p3.trap_frame, by
      show p3.trap_frame.ofRaw raw = _
      rw [show (k3.save raw).mm.mem = k3.mm.mem from rfl, hframe3]⟩ cpu q
    have ht : t = System.mk t.k (cpu.restore (read_raw t.k.mm.mem sp) sp) := by
      rw [← hcpu]
    rw [ht, hctx, hc]
    have hpid : k3.current_pid = s.k.current_pid := by rw [hpid3, hpid2, hpid1]
    split
    · next hq =>
      rw [hq, ← hpid, show (k3.save raw).procs[k3.current_pid]? = some (p3.saved raw) from hcur4]
      show some ((p3.trap_frame.ofRaw raw).context) = _
      rw [← hraw, finished_context cpu p3.trap_frame _ _ fun hnum => execve_nonpos hnum hd]
    · next hq =>
      have hq3 : q ≠ k3.current_pid := by rw [hpid]; exact hq
      rw [show (k3.save raw).procs[q]? = k3.procs[q]? by
        unfold Kernel.save
        rw [Assoc.get_modify, if_neg hq3], hprocs3 q (hpid3 ▸ hq3)]

end Steps

end Rvos

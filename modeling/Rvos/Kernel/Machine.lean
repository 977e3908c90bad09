import Rvos.Kernel.Trap
import Rvos.Lib.Run

/-! # The machine as a transition system

    Between two traps the current process runs user code: it changes its
    registers as it likes and stores where its page table lets user code store
    (`Burst`).  A step is such a stretch of user code, ended by an `ecall`, and
    everything the kernel does until user code runs again (`trap_vector`).

    * `Boot`  : the kernel's state when `init_user_proc` is called.
    * `Start` : the first process is about to run its first instruction.
    * `Step`  : one step, labelled with what user code did and with the result
      of the system call.
    * `trap_vector_eq` : a trap is its entry, the call, and its exit. -/

namespace Rvos

open Access ByteMem Usize

/-! ## Section 1: States and steps -/

/-- The kernel while user code runs, and the processor. -/
structure System where
  k : Kernel
  cpu : Cpu

/-- What user code did since it was resumed: the registers it left, and the
    bytes it stored, in order. -/
structure Burst where
  x : Regs
  f : Regs
  pc : Word
  sstatus : Word
  stores : List (Nat × UInt8)

/-- The processor at the trap; `x0` is always zero. -/
def Burst.cpu (b : Burst) (sscratch : Nat) : Cpu :=
  { x := setReg b.x 0 0, f := b.f, pc := b.pc, sstatus := b.sstatus, sscratch := sscratch }

/-- The stores of user code; a refused one is a page fault, not an `ecall`. -/
def user_stores (root : Nat) : Mem → List (Nat × UInt8) → Option Mem
  | m, [] => some m
  | m, (va, v) :: rest =>
    (user_translate m root true va).bind fun a => user_stores root (Function.update m a v) rest

/-- The kernel with another memory. -/
def Kernel.withMem (k : Kernel) (m : Mem) : Kernel := { k with mm := { k.mm with mem := m } }

/-- The number and the arguments of the system call in the registers. -/
def Cpu.num (cpu : Cpu) : Nat := (cpu.x 17).toNat

def Cpu.args (cpu : Cpu) : Args where
  a0 := (cpu.x 10).toNat
  a1 := (cpu.x 11).toNat
  a2 := (cpu.x 12).toNat
  a3 := (cpu.x 13).toNat
  a4 := (cpu.x 14).toNat
  a5 := (cpu.x 15).toNat

/-- Where the trap frame is. -/
def Cpu.tf (cpu : Cpu) : Nat := wsub cpu.sscratch frameSize

/-- The kernel when `dispatch` is called, with the frame at `sp`: the registers
    are saved, and `sepc` is advanced except for `execve`. -/
def Kernel.enterAt (k : Kernel) (cpu : Cpu) (sp : Nat) : Kernel :=
  let saved := write_raw k.mm.mem sp (cpu.toRaw sp)
  { k with
    mm := { k.mm with
      mem := if cpu.num = 221 then saved else write64 saved (sp + sepcOff) (cpu.pc + 4) }
    current_trap_frame := { k.current_trap_frame with
      regs := cpu.x, sepc := cpu.pc, sstatus := cpu.sstatus } }

def Kernel.enter (k : Kernel) (cpu : Cpu) : Kernel := k.enterAt cpu cpu.tf

/-- What `trap_vector` does after `dispatch` has returned `ret`. -/
def trap_exit (cpu : Cpu) (ret : Int) : KM Cpu := do
  handler_finish cpu.tf cpu.num ret
  let sp ← do_schedule cpu.tf
  return cpu.restore (read_raw (← get).mm.mem sp) sp

/-- The label of a step. -/
structure Trap where
  burst : Burst
  ret : Int

/-- The processor at the trap of a step from `s`. -/
def System.trapCpu (s : System) (l : Trap) : Cpu := l.burst.cpu s.cpu.sscratch

/-- One step. -/
def Step (env : Env) (s : System) (l : Trap) (t : System) : Prop :=
  ∃ m, user_stores s.k.satp s.k.mm.mem l.burst.stores = some m ∧
    trap_vector env (s.trapCpu l) (s.k.withMem m) = .ok t.cpu t.k ∧
    ∃ k', dispatch env (s.trapCpu l).num (s.trapCpu l).args ((s.k.withMem m).enter (s.trapCpu l)) =
      .ok l.ret k'

/-- The kernel when `init_user_proc` is called: frames and heap are set up,
    there is no process, and the other statics are at their start. -/
structure Boot (k : Kernel) : Prop where
  frames : k.mm.Ok
  frames_lo : 0x8000_0000 ≤ k.mm.pages.current
  frames_end : k.mm.pages.end_ = 0x8800_0000
  heap_lo : 0x8600_0000 ≤ k.heap.current
  heap_hi : k.heap.current ≤ 0x8700_0000
  heap_end : k.heap.end_ = 0x8700_0000
  procs : k.procs = ∅
  mmap_base : k.mmap_base = 0

/-- `run_user`: the first process, with whatever the other registers hold. -/
structure Running (s : System) : Prop where
  satp : ∃ p, s.k.current = some p ∧ s.k.satp = p.page_table.root_ppn ∧
    s.cpu.sscratch = p.kernel_stack ∧ s.cpu.pc = p.trap_frame.sepc ∧
    s.cpu.sstatus = p.trap_frame.sstatus ∧ s.cpu.x 2 = p.trap_frame.regs 2
  zero : s.cpu.x 0 = 0

/-- The first process starts to run. -/
def Start (env : Env) (s : System) : Prop :=
  ∃ k0 k1 elf_data argv satp, Boot k0 ∧ init_user_proc env elf_data argv k0 = .ok (some ()) k1 ∧
    s.k = { k1 with satp := satp } ∧ Running s

/-! ## Section 2: Frames in memory -/

theorem TrapFrameRaw.length_words (f : TrapFrameRaw) : f.words.length = 35 := by
  simp [TrapFrameRaw.words]

/-- A frame is read back as it was written. -/
theorem read_write_raw (m : Mem) (sp : Nat) (f : TrapFrameRaw) :
    read_raw (write_raw m sp f) sp = f := by
  have hword : ∀ (i : Nat) (hi : i < f.words.length),
      read64 (write_raw m sp f) (sp + 8 * i) = f.words[i] := fun i hi => by
    rw [write_raw]
    exact read64_writeWords hi
  have hlen := f.length_words
  obtain ⟨x, orig_sp, sepc, sstatus⟩ := f
  unfold read_raw
  simp only [TrapFrameRaw.mk.injEq]
  refine ⟨?_, ?_, ?_, ?_⟩
  · funext i
    have hi := i.isLt
    rw [hword i (by omega)]
    unfold TrapFrameRaw.words
    rw [List.getElem_append_left (by rw [List.length_ofFn]; exact hi), List.getElem_ofFn]
  · exact hword 32 (by omega)
  · exact hword 33 (by omega)
  · exact hword 34 (by omega)

/-- Outside its 280 bytes, writing a frame changes nothing. -/
theorem write_raw_out {m : Mem} {sp a : Nat} {f : TrapFrameRaw} (h : a < sp ∨ sp + 280 ≤ a) :
    write_raw m sp f a = m a := by
  rw [write_raw]
  exact writeWords_out (by rw [f.length_words]; omega)

theorem Cpu.ofRaw_toRaw (cpu : Cpu) (sp : Nat) (tf : TrapFrame) :
    tf.ofRaw (cpu.toRaw sp) = { tf with regs := cpu.x, sepc := cpu.pc, sstatus := cpu.sstatus } := by
  simp [TrapFrame.ofRaw, Cpu.toRaw, setReg]

theorem Cpu.toRaw_num (cpu : Cpu) (sp : Nat) : (cpu.toRaw sp).num = cpu.num := rfl

theorem Cpu.toRaw_args (cpu : Cpu) (sp : Nat) : (cpu.toRaw sp).args = cpu.args := rfl

theorem handler_enter_eq (tf : Nat) (k : Kernel) :
    handler_enter tf k = .ok (read_raw k.mm.mem tf)
      (if (read_raw k.mm.mem tf).num = 221 then
        { k with current_trap_frame := k.current_trap_frame.ofRaw (read_raw k.mm.mem tf) }
      else { k with
        current_trap_frame := k.current_trap_frame.ofRaw (read_raw k.mm.mem tf)
        mm := { k.mm with
          mem := write64 k.mm.mem (tf + sepcOff) ((read_raw k.mm.mem tf).sepc + 4) } }) := by
  unfold handler_enter
  generalize hraw : read_raw k.mm.mem tf = raw
  simp only [Prog.bind_run, Prog.get_run, Prog.modify_run, hraw]
  by_cases hnum : raw.num = 221
  · simp only [hnum, ne_eq, not_true_eq_false, if_false, if_true, Prog.pure_run]
  · simp only [hnum, ne_eq, not_false_eq_true, if_true, if_false, Prog.bind_run, store64,
      Prog.modify_run, Prog.pure_run]

/-- The handler finds the registers that `trap_vector` saved. -/
theorem handler_enter_run (cpu : Cpu) (k : Kernel) (sp : Nat) :
    handler_enter sp (k.withMem (write_raw k.mm.mem sp (cpu.toRaw sp))) =
      .ok (cpu.toRaw sp) (k.enterAt cpu sp) := by
  have hraw : read_raw (k.withMem (write_raw k.mm.mem sp (cpu.toRaw sp))).mm.mem sp = cpu.toRaw sp :=
    read_write_raw _ _ _
  rw [handler_enter_eq, hraw, Cpu.ofRaw_toRaw, Cpu.toRaw_num]
  unfold Kernel.enterAt
  by_cases hnum : cpu.num = 221
  · simp only [if_pos hnum]
    rfl
  · simp only [if_neg hnum]
    rfl

/-- A trap is its entry, the system call, and its exit. -/
theorem trap_vector_eq (env : Env) (cpu : Cpu) (k : Kernel) :
    trap_vector env cpu k =
      (do let ret ← dispatch env cpu.num cpu.args
          trap_exit cpu ret) (k.enter cpu) := by
  have hsplit : trap_vector env cpu =
      (do modify fun k => k.withMem (write_raw k.mm.mem cpu.tf (cpu.toRaw cpu.tf))
          let raw ← handler_enter cpu.tf
          let ret ← dispatch env raw.num raw.args
          handler_finish cpu.tf raw.num ret
          let sp ← do_schedule cpu.tf
          return cpu.restore (read_raw (← get).mm.mem sp) sp) := by
    unfold trap_vector rust_trap_handler
    simp only [bind_assoc]
    rfl
  rw [hsplit, Prog.bind_run, Prog.modify_run]
  show (handler_enter cpu.tf >>= _) _ = _
  rw [Prog.bind_of_ok (handler_enter_run cpu k cpu.tf), Cpu.toRaw_num, Cpu.toRaw_args]
  rfl

/-- A step is user code, the system call and the exit from the trap. -/
theorem step_iff {env : Env} {s t : System} {l : Trap} :
    Step env s l t ↔ ∃ m k', user_stores s.k.satp s.k.mm.mem l.burst.stores = some m ∧
      dispatch env (s.trapCpu l).num (s.trapCpu l).args ((s.k.withMem m).enter (s.trapCpu l)) =
        .ok l.ret k' ∧
      trap_exit (s.trapCpu l) l.ret k' = .ok t.cpu t.k := by
  unfold Step
  simp only [trap_vector_eq, Prog.bind_eq_ok]
  constructor
  · rintro ⟨m, hm, ⟨ret, k', hd, hexit⟩, k'', hd'⟩
    rw [hd] at hd'
    cases hd'
    exact ⟨m, k', hm, hd, hexit⟩
  · rintro ⟨m, k', hm, hd, hexit⟩
    exact ⟨m, hm, ⟨l.ret, k', hd, hexit⟩, k', hd⟩

end Rvos

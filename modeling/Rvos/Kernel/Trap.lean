import Rvos.Kernel.Dispatch

/-! # Traps and scheduling (`trap.rs`)

    On a trap the registers are saved in a frame of 288 bytes at the top of
    the process's kernel stack; `rust_trap_handler` runs the system call and
    edits the frame, `do_schedule` may continue with the frame of another
    process, and the registers are restored from whatever memory then holds.
    The floating-point registers are neither saved nor restored. -/

namespace Rvos

open Access ByteMem Usize

/-! ## Section 1: The frame on the kernel stack -/

/-- The size of a frame, and where its parts are. -/
def frameSize : Nat := 288
def origSpOff : Nat := 256
def sepcOff : Nat := 264
def sstatusOff : Nat := 272

/-- `TrapFrameRaw`, read from memory. -/
structure TrapFrameRaw where
  x : Regs
  orig_sp : Word
  sepc : Word
  sstatus : Word

@[irreducible] def read_raw (m : Mem) (sp : Nat) : TrapFrameRaw where
  x := fun i => read64 m (sp + 8 * i)
  orig_sp := read64 m (sp + origSpOff)
  sepc := read64 m (sp + sepcOff)
  sstatus := read64 m (sp + sstatusOff)

/-- The words of a frame, in the order of their addresses. -/
def TrapFrameRaw.words (f : TrapFrameRaw) : List Word :=
  List.ofFn f.x ++ [f.orig_sp, f.sepc, f.sstatus]

@[irreducible] def write_raw (m : Mem) (sp : Nat) (f : TrapFrameRaw) : Mem := writeWords m sp f.words

/-- The kernel stores a word of its own. -/
def store64 (a : Nat) (w : Word) : KM Unit :=
  modify fun k => { k with mm := { k.mm with mem := write64 k.mm.mem a w } }

/-- Register `x10` holds results. -/
def a0Off : Nat := 80

/-! ## Section 2: The handler -/

/-- The trap frame that a raw frame stands for: `x2` of the raw frame is the
    kernel's stack pointer. -/
def TrapFrame.ofRaw (tf : TrapFrame) (f : TrapFrameRaw) : TrapFrame :=
  { tf with regs := setReg f.x 2 f.orig_sp, sepc := f.sepc, sstatus := f.sstatus }

/-- The raw frame that `do_schedule` writes for a process. -/
def TrapFrame.toRaw (tf : TrapFrame) : TrapFrameRaw where
  x := tf.regs
  orig_sp := tf.regs 2
  sepc := tf.sepc
  sstatus := tf.sstatus

/-- The arguments of a system call. -/
def TrapFrameRaw.args (f : TrapFrameRaw) : Args where
  a0 := (f.x 10).toNat
  a1 := (f.x 11).toNat
  a2 := (f.x 12).toNat
  a3 := (f.x 13).toNat
  a4 := (f.x 14).toNat
  a5 := (f.x 15).toNat

/-- The number of the system call. -/
def TrapFrameRaw.num (f : TrapFrameRaw) : Nat := (f.x 17).toNat

/-- `rust_trap_handler` up to the call of `dispatch`: `CURRENT_TRAP_FRAME` is set
    and `sepc` advanced past the `ecall`. -/
def handler_enter (tf : Nat) : KM TrapFrameRaw := do
  let raw := read_raw (← get).mm.mem tf
  modify fun k => { k with current_trap_frame := k.current_trap_frame.ofRaw raw }
  if raw.num ≠ 221 then
    store64 (tf + sepcOff) (raw.sepc + 4)
  return raw

/-- `rust_trap_handler` after `dispatch` has returned `ret`. -/
def handler_finish (tf num : Nat) (ret : Int) : KM Unit := do
  let sepc := read64 (← get).mm.mem (tf + sepcOff)
  if num = 260 ∧ ret = -11 then
    -- a blocking `wait4` is executed again when the process wakes up
    store64 (tf + sepcOff) (sepc - 4)
    modify_proc (← get).current_pid fun p => { p with state := .Waiting }
  else if num = 221 ∧ ret = 0 then
    let ctf := (← get).current_trap_frame
    store64 (tf + sepcOff) ctf.sepc
    store64 (tf + origSpOff) (ctf.regs 2)
    store64 (tf + a0Off) (ctf.regs 10)
  else if num = 221 ∧ ret < 0 then
    store64 (tf + sepcOff) (sepc + 4)
  store64 (tf + a0Off) (BitVec.ofInt 64 ret)

/-- `rust_trap_handler` for an `ecall`, with the frame at `tf`. -/
def rust_trap_handler (env : Env) (tf : Nat) : KM Unit := do
  let raw ← handler_enter tf
  let ret ← dispatch env raw.num raw.args
  handler_finish tf raw.num ret

/-! ## Section 3: The scheduler -/

/-- The processes that are ready, in order. -/
def Kernel.ready_pids (k : Kernel) : List Nat :=
  (k.procs.toList.filter fun p => p.2.state == .Ready).map Prod.fst

/-- Round-robin: the first ready process after the current one, else the first. -/
def pick_next (pids : List Nat) (current_pid : Nat) : Option Nat :=
  (pids.find? (· > current_pid)).or pids.head?

/-- `do_schedule`, for the current process's frame at `tf_sp`: the frame to
    continue with. -/
def do_schedule (tf_sp : Nat) : KM Nat := do
  let k ← get
  let current_pid := k.current_pid
  let raw := read_raw k.mm.mem tf_sp
  modify_proc current_pid fun p => { p with
    state := if p.state = .Running then .Ready else p.state
    trap_frame := p.trap_frame.ofRaw raw }
  let k ← get
  match pick_next k.ready_pids current_pid with
  | none =>
    match k.current with
    | none => return tf_sp
    | some proc =>
      if proc.state = .Zombie then
        throw .shutdown
      modify_proc current_pid fun p => { p with state := .Running }
      return tf_sp
  | some next_pid =>
    if next_pid = current_pid then
      return tf_sp
    match k.procs[next_pid]? with
    | none => throw (.panic "next proc missing")
    | some next_proc =>
      let new_tf_sp := wsub next_proc.kernel_stack frameSize
      modify_proc next_pid fun p => { p with state := .Running }
      modify fun k => { k with
        current_pid := next_pid
        satp := next_proc.page_table.root_ppn
        mm := { k.mm with mem := write_raw k.mm.mem new_tf_sp next_proc.trap_frame.toRaw } }
      return new_tf_sp

/-! ## Section 4: Entry and exit -/

/-- The registers of the processor that user code sees, and `sscratch`, which
    holds the kernel stack while user code runs. -/
structure Cpu where
  x : Regs
  f : Regs
  pc : Word
  sstatus : Word
  sscratch : Nat

/-- The frame that `trap_vector` saves at `sp`. -/
def Cpu.toRaw (cpu : Cpu) (sp : Nat) : TrapFrameRaw where
  x := setReg cpu.x 2 (BitVec.ofNat 64 sp)
  orig_sp := cpu.x 2
  sepc := cpu.pc
  sstatus := cpu.sstatus

/-- The registers that `trap_vector` restores from a frame. -/
def Cpu.restore (cpu : Cpu) (raw : TrapFrameRaw) (sp : Nat) : Cpu where
  x := setReg (setReg raw.x 0 0) 2 raw.orig_sp
  f := cpu.f
  pc := raw.sepc
  sstatus := raw.sstatus
  sscratch := sp + frameSize

/-- `trap_vector` for an `ecall` by user code: save, handle, schedule, restore. -/
def trap_vector (env : Env) (cpu : Cpu) : KM Cpu := do
  let sp := wsub cpu.sscratch frameSize
  modify fun k => { k with mm := { k.mm with mem := write_raw k.mm.mem sp (cpu.toRaw sp) } }
  rust_trap_handler env sp
  let sp ← do_schedule sp
  return cpu.restore (read_raw (← get).mm.mem sp) sp

end Rvos

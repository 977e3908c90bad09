import Rvos.Io.Misc
import Rvos.Lib.Assoc
import Rvos.Mm.Walk

/-! # The state of the kernel

    Physical memory with the frame allocator, the kernel heap, the process
    table with the identifiers of `proc.rs`, the trap frame that `trap.rs`
    keeps for the system call in progress, and the statics of the input and
    output calls.

    Page tables, kernel stacks and user pages are bytes of the physical
    memory; the other kernel data are values.  The kernel reaches its own
    memory at its physical addresses (it is identity-mapped in every table)
    and user memory through the table in `satp`. -/

namespace Rvos

open Access ByteMem Usize

/-! ## Section 1: Processes -/

/-- There are registers; the instance by which their numbers are read. -/
instance neZero_regs : NeZero 32 := ⟨by decide⟩

/-- The integer registers `x0` to `x31`, or the floating-point ones. -/
abbrev Regs : Type := Fin 32 → Word

/-- `TrapFrame`; the fields that no code uses are left out, `fregs` is never
    written. -/
structure TrapFrame where
  regs : Regs
  fregs : Regs
  sepc : Word
  sstatus : Word

def TrapFrame.new : TrapFrame := { regs := fun _ => 0, fregs := fun _ => 0, sepc := 0, sstatus := 0 }

inductive ProcState where
  | Ready
  | Running
  | Waiting
  | Zombie
  deriving DecidableEq, Repr

structure Process where
  pid : Nat
  ppid : Nat
  state : ProcState
  page_table : PageTable
  trap_frame : TrapFrame
  kernel_stack : Nat
  brk : Nat
  exit_code : Int
  fd_table : FdTable

/-! ## Section 2: The kernel -/

structure Kernel where
  mm : Mm
  heap : HeapAllocator
  /-- The root of the table in `satp`. -/
  satp : Nat
  /-- `PROC_TABLE`. -/
  procs : Std.TreeMap Nat Process
  current_pid : Nat
  next_pid : Nat
  /-- `CURRENT_TRAP_FRAME`. -/
  current_trap_frame : TrapFrame
  mmap_base : Nat
  io : Io

abbrev KM (α : Type) : Type := EStateM Halt Kernel α

/-- Run a program of `mm.rs`. -/
def KM.mm (c : MmM α) : KM α := Prog.zoom Kernel.mm (fun mm k => { k with mm := mm }) c

theorem KM.mm_of_ok {c : MmM α} {k : Kernel} {a : α} {mm : Mm} (h : c k.mm = .ok a mm) :
    KM.mm c k = .ok a { k with mm := mm } :=
  Prog.zoom_of_ok h

/-- The block of `n` bytes from the kernel heap. -/
def heap_alloc (h : HeapAllocator) (n log_align : Nat) : Option Nat × HeapAllocator :=
  if hl : log_align ≤ 63 ∧ n + (2 ^ log_align - 1) < 2 ^ 63 then
    h.alloc ⟨n, 2 ^ log_align, ⟨log_align, hl.1, rfl⟩, hl.2⟩
  else
    (none, h)

/-- The heap's cursor is in its range. -/
structure HeapAllocator.Ok (h : HeapAllocator) : Prop where
  lo : 0x8600_0000 ≤ h.current
  hi : h.current ≤ 0x8700_0000
  end_eq : h.end_ = 0x8700_0000

/-- A block from the heap lies in the heap's range. -/
theorem heap_alloc_block {h h' : HeapAllocator} {n l a : Nat} (hok : h.Ok)
    (halloc : heap_alloc h n l = (some a, h')) :
    h'.Ok ∧ 0x8600_0000 ≤ a ∧ a + n ≤ 0x8700_0000 := by
  have hlo := hok.lo
  have hhi := hok.hi
  have hend := hok.end_eq
  unfold heap_alloc at halloc
  split at halloc
  · next hl =>
    rcases HeapAllocator.alloc_cases (h := h) ⟨n, 2 ^ l, ⟨l, hl.1, rfl⟩, hl.2⟩ (by omega) with
      ⟨addr, heq, hge, hle⟩ | heq
    · rw [heq] at halloc
      cases halloc
      have hn : a + n ≤ h.end_ := hle
      exact ⟨⟨by show _ ≤ a + n; omega, by show a + n ≤ _; omega, hend⟩, by omega, by omega⟩
    · rw [heq] at halloc
      cases halloc
  · cases halloc

theorem heap_alloc_refused {h h' : HeapAllocator} {n l : Nat} (hok : h.Ok)
    (halloc : heap_alloc h n l = (none, h')) : h' = h := by
  have hhi := hok.hi
  unfold heap_alloc at halloc
  split at halloc
  · next hl =>
    rcases HeapAllocator.alloc_cases (h := h) ⟨n, 2 ^ l, ⟨l, hl.1, rfl⟩, hl.2⟩ (by omega) with
      ⟨addr, heq, hge, hle⟩ | heq
    · rw [heq] at halloc
      cases halloc
    · rw [heq] at halloc
      cases halloc
      rfl
  · cases halloc
    rfl

/-- An unaligned block: the next bytes of the heap, if there are so many. -/
theorem heap_alloc_bytes {h : HeapAllocator} (hok : h.Ok) {n : Nat} (hn : n < 2 ^ 63) :
    heap_alloc h n 0 = if h.current + n ≤ h.end_ then (some h.current, { h with current := h.current + n })
      else (none, h) := by
  have hhi := hok.hi
  have haddr : wsub (wadd h.current (2 ^ 0)) 1 &&& bnot (2 ^ 0 - 1) = h.current := by
    rw [wadd_of_lt (by omega), wsub_of_le (by omega) (by omega), and_bnot_eq_div_mul (by omega) (by omega)]
    simp
  unfold heap_alloc
  rw [dif_pos ⟨by omega, by simpa using hn⟩]
  unfold HeapAllocator.alloc
  simp only [haddr, wadd_of_lt (show h.current + n < 2 ^ 64 by omega)]

/-- A block aligned to eight bytes is there just if it fits behind the next
    multiple of eight. -/
theorem heap_alloc_words {h : HeapAllocator} (hok : h.Ok) (n : Nat) :
    (∃ a h', heap_alloc h n 3 = (some a, h')) ↔ (h.current + 7) / 8 * 8 + n ≤ h.end_ := by
  have hhi := hok.hi
  have hend := hok.end_eq
  have haddr : wsub (wadd h.current (2 ^ 3)) 1 &&& bnot (2 ^ 3 - 1) = (h.current + 7) / 8 * 8 := by
    rw [wadd_of_lt (by omega), wsub_of_le (by omega) (by omega), and_bnot_eq_div_mul (by omega) (by omega)]
    rfl
  unfold heap_alloc
  by_cases hn : n + (2 ^ 3 - 1) < 2 ^ 63
  · rw [dif_pos ⟨by omega, hn⟩]
    unfold HeapAllocator.alloc
    simp only [haddr, wadd_of_lt (show (h.current + 7) / 8 * 8 + n < 2 ^ 64 by omega)]
    split
    · next hle => exact ⟨fun _ => hle, fun _ => ⟨_, _, rfl⟩⟩
    · next hgt =>
      refine ⟨?_, fun hle => absurd hle hgt⟩
      rintro ⟨a, h', heq⟩
      cases heq
  · rw [dif_neg fun h => hn h.2]
    refine ⟨?_, fun hle => absurd hle (by omega)⟩
    rintro ⟨a, h', heq⟩
    cases heq

/-- What pointers mean while the table `root` is in `satp`. -/
def machine (root : Nat) : Machine HeapAllocator Halt where
  tr := fun m write va => hw_translate m root write va
  fault := .fault
  alloc := heap_alloc
  oom := fun _ => .panic "memory allocation failed"

/-- The part of the kernel that an input or output call works on. -/
def Kernel.view (k : Kernel) : St HeapAllocator Io := ⟨k.mm.mem, k.heap, k.io⟩

def Kernel.setView (k : Kernel) (s : St HeapAllocator Io) : Kernel :=
  { k with mm := { k.mm with mem := s.mem }, heap := s.heap, io := s.st }

/-- Run an input or output call. -/
def KM.io (c : IoM α) : KM α := fun k =>
  match run (machine k.satp) c k.view with
  | .ok a s => .ok a (k.setView s)
  | .error e s => .error e (k.setView s)

theorem KM.io_eq_ok {c : IoM α} {k k' : Kernel} {a : α} :
    KM.io c k = .ok a k' ↔ ∃ s, run (machine k.satp) c k.view = .ok a s ∧ k' = k.setView s := by
  unfold KM.io
  cases run (machine k.satp) c k.view with
  | ok b s =>
    simp only [EStateM.Result.ok.injEq]
    constructor
    · rintro ⟨rfl, rfl⟩
      exact ⟨s, ⟨rfl, rfl⟩, rfl⟩
    · rintro ⟨s', ⟨rfl, rfl⟩, rfl⟩
      exact ⟨rfl, rfl⟩
  | error e s => simp

/-- The current process. -/
def Kernel.current (k : Kernel) : Option Process := k.procs[k.current_pid]?

/-- Change one process of the table, if it is there. -/
def modify_proc (pid : Nat) (f : Process → Process) : KM Unit :=
  modify fun k => { k with procs := k.procs.modify pid f }

@[simp] theorem modify_proc_run (pid : Nat) (f : Process → Process) (k : Kernel) :
    modify_proc pid f k = .ok ⟨⟩ { k with procs := k.procs.modify pid f } := rfl

/-- `log::warn!`, the only level that is printed besides errors. -/
def warn (msg : Path) : KM Unit :=
  KM.io (print (utf8 "[WARN] " ++ msg ++ utf8 "\n"))

/-- The end of the memory that every table maps for the kernel. -/
def kernelEnd : Nat := 0x8800_0000

/-- The kernel writes bytes at a physical address. -/
def phys_write (a : Nat) (bs : List UInt8) : MmM Unit := do
  if a + bs.length > kernelEnd then
    throw (.fault kernelEnd)
  modify fun s => { s with mem := blit s.mem a bs }

/-- The kernel zero-fills bytes at a physical address. -/
def phys_zero (a n : Nat) : MmM Unit := do
  if a + n > kernelEnd then
    throw (.fault kernelEnd)
  modify fun s => { s with mem := fill s.mem a n 0 }

/-- The kernel copies bytes between physical addresses. -/
def phys_copy (src dst n : Nat) : MmM Unit := do
  if src < 0x8000_0000 ∨ src + n > kernelEnd ∨ dst + n > kernelEnd then
    throw (.fault src)
  modify fun s => { s with mem := copy s.mem dst src n }

end Rvos

import Rvos.Lib.ByteMem
import Rvos.Lib.Prog
import Rvos.Lib.Run
import Rvos.Lib.Usize

/-! # Kernel heap and page frames (`mm.rs`)

    Two bump allocators with hard-coded bounds:

    * the kernel heap, `[0x8600_0000, 0x8700_0000)`, behind the global
      allocator `BumpAlloc`;
    * the page frames, from the page above `kernel_end` up to
      `0x8800_0000`, each run of frames zero-filled when it is handed out.

    The frame range contains the heap range, so the two cursors can meet.
    Section 4 says exactly which runs stay clear of that. -/

namespace Rvos

open ByteMem Usize

/-! ## Section 1: Outcomes and the heap -/

/-- Why the kernel stops.  `fault` is a page fault taken in the kernel, which
    `rust_trap_handler` answers with `loop {}`. -/
inductive Halt where
  | panic (msg : String)
  | fault (va : Nat)
  | spin
  | shutdown
  deriving DecidableEq, Repr

/-- `core::alloc::Layout`: the alignment is a power of two and the size,
    rounded up to it, fits in an `isize`. -/
structure Layout where
  size : Nat
  align : Nat
  align_pow : ∃ k, k ≤ 63 ∧ align = 2 ^ k
  size_le : size + (align - 1) < 2 ^ 63

structure HeapAllocator where
  current : Nat
  end_ : Nat
  deriving DecidableEq, Repr

/-- `init_heap`. -/
def init_heap : HeapAllocator := { current := 0x8600_0000, end_ := 0x8700_0000 }

/-- `BumpAlloc::alloc`; `none` is the null pointer. -/
@[irreducible] def HeapAllocator.alloc (h : HeapAllocator) (layout : Layout) : Option Nat × HeapAllocator :=
  let addr := wsub (wadd h.current layout.align) 1 &&& bnot (layout.align - 1)
  if wadd addr layout.size ≤ h.end_ then
    (some addr, { h with current := wadd addr layout.size })
  else
    (none, h)

/-! ## Section 2: Page frames -/

def PAGE_SIZE : Nat := 4096
def PAGE_SIZE_BITS : Nat := 12

structure PageAllocator where
  current : Nat
  end_ : Nat
  deriving DecidableEq, Repr

/-- Physical memory and the frame allocator: what `mm.rs` works on. -/
structure Mm where
  mem : Mem
  pages : PageAllocator

/-- Programs on physical memory and the frame allocator. -/
abbrev MmM (α : Type) : Type := EStateM Halt Mm α

/-- `init`, for a kernel image that ends at `kernel_end`. -/
def init (kernel_end : Nat) : PageAllocator :=
  { current := wsub (wadd kernel_end PAGE_SIZE) 1 &&& bnot (PAGE_SIZE - 1)
    end_ := 0x8800_0000 }

/-- `alloc_pages`: `n` consecutive frames, zero-filled. -/
@[irreducible] def alloc_pages (n : Nat) : MmM (Option Nat) := do
  let s ← get
  let size := wmul n PAGE_SIZE
  if wadd s.pages.current size ≤ s.pages.end_ then
    let page := s.pages.current
    set { mem := fill s.mem page size 0
          pages := { s.pages with current := wadd page size } : Mm }
    return some page
  else
    return none

/-- `alloc_page`: one frame, zero-filled. -/
@[irreducible] def alloc_page : MmM (Option Nat) := do
  let s ← get
  if wadd s.pages.current PAGE_SIZE ≤ s.pages.end_ then
    let page := s.pages.current
    set { mem := fill s.mem page PAGE_SIZE 0
          pages := { s.pages with current := wadd page PAGE_SIZE } : Mm }
    return some page
  else
    return none

theorem alloc_pages_granted {s : Mm} {n : Nat}
    (h : wadd s.pages.current (wmul n PAGE_SIZE) ≤ s.pages.end_) :
    alloc_pages n s = .ok (some s.pages.current)
      { mem := fill s.mem s.pages.current (wmul n PAGE_SIZE) 0
        pages := { s.pages with
          current := wadd s.pages.current (wmul n PAGE_SIZE) } } := by
  simp only [alloc_pages, bind_pure_comp, Prog.bind_run, Prog.get_run, if_pos h]
  rfl

theorem alloc_pages_refused {s : Mm} {n : Nat}
    (h : s.pages.end_ < wadd s.pages.current (wmul n PAGE_SIZE)) :
    alloc_pages n s = .ok none s := by
  simp only [alloc_pages, Prog.bind_run, Prog.get_run, if_neg (Nat.not_le.mpr h)]
  rfl

/-- One frame is a run of one frame. -/
theorem alloc_page_eq : alloc_page = alloc_pages 1 := by
  have h : wmul 1 PAGE_SIZE = PAGE_SIZE := by
    rw [wmul_of_lt] <;> simp [PAGE_SIZE]
  rw [alloc_pages, h, alloc_page]

/-- A heap allocation is refused, or its block lies between the cursor and the
    new cursor. -/
theorem HeapAllocator.alloc_cases {h : HeapAllocator} (layout : Layout)
    (hc : h.current < 2 ^ 62) :
    (∃ addr, h.alloc layout = (some addr, { h with current := addr + layout.size }) ∧
      h.current ≤ addr ∧ addr + layout.size ≤ h.end_) ∨
    h.alloc layout = (none, h) := by
  obtain ⟨k, hk, halign⟩ := layout.align_pow
  have hsize := layout.size_le
  have hpos : 0 < layout.align := by rw [halign]; positivity
  have hle : layout.align ≤ 2 ^ 63 := by
    rw [halign]; exact Nat.pow_le_pow_right (by decide) hk
  have hsum : wadd h.current layout.align = h.current + layout.align :=
    wadd_of_lt (by omega)
  have hsub : wsub (h.current + layout.align) 1 = h.current + layout.align - 1 :=
    wsub_of_le (by omega) (by omega)
  have haddr : wsub (wadd h.current layout.align) 1 &&& bnot (layout.align - 1) =
      (h.current + layout.align - 1) / layout.align * layout.align := by
    rw [hsum, hsub]
    conv_lhs => rw [halign]
    rw [and_bnot_eq_div_mul (by omega) (by omega), ← halign]
  -- rounding up to the alignment never goes below the cursor, and never wraps
  generalize hq : (h.current + layout.align - 1) / layout.align * layout.align = addr at haddr
  have hge : h.current ≤ addr := by
    have hdiv := Nat.div_add_mod (h.current + layout.align - 1) layout.align
    have hmod := Nat.mod_lt (h.current + layout.align - 1) hpos
    rw [Nat.mul_comm, hq] at hdiv
    omega
  have hlt : addr + layout.size < 2 ^ 64 := by
    have hdiv := Nat.div_mul_le_self (h.current + layout.align - 1) layout.align
    rw [hq] at hdiv
    omega
  unfold HeapAllocator.alloc
  simp only [haddr, wadd_of_lt hlt]
  by_cases hfit : addr + layout.size ≤ h.end_
  · exact Or.inl ⟨addr, by rw [if_pos hfit], hge, hfit⟩
  · exact Or.inr (by rw [if_neg hfit])

/-! ## Section 3: Histories of allocation calls

    A history keeps, beside the two allocators and memory, every run of
    frames and every heap block handed out so far. -/

/-- The bytes `[addr, addr + len)`. -/
structure Region where
  addr : Nat
  len : Nat
  deriving DecidableEq, Repr

/-- `a` is one of the region's bytes. -/
def Region.Has (r : Region) (a : Nat) : Prop := r.addr ≤ a ∧ a < r.addr + r.len

structure History where
  heap : HeapAllocator
  mm : Mm
  frames : List Region
  blocks : List Region

inductive AllocCall where
  | page
  | pages (n : Nat)
  | heap (layout : Layout)

/-- Record the run of `n` frames a call returned, if it returned one. -/
def History.gotFrames (s : History) (n : Nat) : EStateM.Result Halt Mm (Option Nat) → History
  | .ok (some page) mm => { s with mm := mm, frames := ⟨page, n * PAGE_SIZE⟩ :: s.frames }
  | .ok none mm => { s with mm := mm }
  | .error _ mm => { s with mm := mm }

/-- Record the heap block of `size` bytes a call returned, if it returned one. -/
def History.gotBlock (s : History) (size : Nat) : Option Nat × HeapAllocator → History
  | (some addr, heap) => { s with heap := heap, blocks := ⟨addr, size⟩ :: s.blocks }
  | (none, heap) => { s with heap := heap }

@[simp] theorem gotBlock_mm (s : History) (size : Nat) (r : Option Nat × HeapAllocator) :
    (s.gotBlock size r).mm = s.mm := by
  rcases r with ⟨_ | addr, heap⟩ <;> rfl

/-- One allocation call. -/
def History.call (s : History) : AllocCall → History
  | .page => s.gotFrames 1 (alloc_page s.mm)
  | .pages n => s.gotFrames n (alloc_pages n s.mm)
  | .heap layout => s.gotBlock layout.size (s.heap.alloc layout)

/-- The state after `mm::init` and `mm::init_heap`. -/
def History.boot (kernel_end : Nat) (mem : Mem) : History where
  heap := init_heap
  mm := { mem := mem, pages := init kernel_end }
  frames := []
  blocks := []

/-- No frame shares a byte with a heap block. -/
def History.Separate (s : History) : Prop :=
  ∀ f ∈ s.frames, ∀ b ∈ s.blocks, ∀ a, ¬ (f.Has a ∧ b.Has a)

/-- The call leaves every byte of every heap block as it was. -/
def History.Spares (s : History) (c : AllocCall) : Prop :=
  ∀ b ∈ s.blocks, ∀ a, b.Has a → (s.call c).mm.mem a = s.mm.mem a

/-! ## Section 4: When frames and heap blocks stay apart -/

/-- The `n` frames asked for end below the heap, or the call is refused. -/
def FitsBelowHeap (s : History) (n : Nat) : Prop :=
  s.mm.pages.current + n * PAGE_SIZE ≤ 0x8600_0000 ∨
  s.mm.pages.end_ < wadd s.mm.pages.current (wmul n PAGE_SIZE)

/-- The condition on a call: a request for frames fits below the heap. -/
def AllocCall.Fits (s : History) : AllocCall → Prop
  | .page => FitsBelowHeap s 1
  | .pages n => FitsBelowHeap s n
  | .heap _ => True

/-- Frames lie below `0x8600_0000`, blocks between there and the heap cursor. -/
structure History.Apart (s : History) : Prop where
  pages_le : s.mm.pages.current ≤ 0x8600_0000
  frames_le : ∀ f ∈ s.frames, f.addr + f.len ≤ s.mm.pages.current
  heap_end : s.heap.end_ = 0x8700_0000
  heap_lo : 0x8600_0000 ≤ s.heap.current
  heap_hi : s.heap.current ≤ 0x8700_0000
  blocks_ge : ∀ b ∈ s.blocks, 0x8600_0000 ≤ b.addr

theorem History.Apart.separate {s : History} (h : s.Apart) : s.Separate := by
  intro f hf b hb a ⟨⟨_, hfa⟩, hba, _⟩
  have h1 := h.frames_le f hf
  have h2 := h.blocks_ge b hb
  have h3 := h.pages_le
  omega

/-- The first frame is the kernel's end, rounded up to a page. -/
theorem init_current {kernel_end : Nat} (h : kernel_end < 2 ^ 63) :
    (init kernel_end).current = (kernel_end + 4095) / 4096 * 4096 := by
  have h1 : wadd kernel_end PAGE_SIZE = kernel_end + 4096 :=
    wadd_of_lt (by unfold PAGE_SIZE; omega)
  have h2 : wsub (kernel_end + 4096) 1 = kernel_end + 4095 := wsub_of_le (by omega) (by omega)
  show wsub (wadd kernel_end PAGE_SIZE) 1 &&& bnot (2 ^ 12 - 1) = _
  rw [h1, h2, and_bnot_eq_div_mul (by omega) (by omega)]
  norm_num

theorem apart_boot {kernel_end : Nat} (mem : Mem) (h : kernel_end < 0x8600_0000) :
    (History.boot kernel_end mem).Apart where
  pages_le := by
    show (init kernel_end).current ≤ _
    rw [init_current (by omega)]
    omega
  frames_le := by simp [History.boot]
  heap_end := rfl
  heap_lo := by simp [History.boot, init_heap]
  heap_hi := by simp [History.boot, init_heap]
  blocks_ge := by simp [History.boot]

/-- What a granted request that fits below the heap does to the memory. -/
theorem fits_no_wrap {s : History} {n : Nat} (hs : s.Apart)
    (h : s.mm.pages.current + n * PAGE_SIZE ≤ 0x8600_0000) :
    wmul n PAGE_SIZE = n * PAGE_SIZE ∧
      wadd s.mm.pages.current (n * PAGE_SIZE) = s.mm.pages.current + n * PAGE_SIZE := by
  have := hs.pages_le
  exact ⟨wmul_of_lt (by omega), wadd_of_lt (by omega)⟩

theorem apart_gotFrames {s : History} {n : Nat} (hs : s.Apart) (hfit : FitsBelowHeap s n) :
    (s.gotFrames n (alloc_pages n s.mm)).Apart := by
  by_cases hgrant : wadd s.mm.pages.current (wmul n PAGE_SIZE) ≤ s.mm.pages.end_
  · have hle : s.mm.pages.current + n * PAGE_SIZE ≤ 0x8600_0000 := by
      rcases hfit with h | h
      · exact h
      · omega
    obtain ⟨hmul, hadd⟩ := fits_no_wrap hs hle
    rw [alloc_pages_granted hgrant]
    refine ⟨?_, ?_, hs.heap_end, hs.heap_lo, hs.heap_hi, hs.blocks_ge⟩
    · simpa [History.gotFrames, hmul, hadd] using hle
    · intro f hf
      simp only [History.gotFrames, hmul, hadd] at hf ⊢
      rcases List.mem_cons.mp hf with rfl | hf
      · simp
      · have := hs.frames_le f hf
        omega
  · rw [alloc_pages_refused (Nat.lt_of_not_le hgrant)]
    exact ⟨hs.pages_le, hs.frames_le, hs.heap_end, hs.heap_lo, hs.heap_hi, hs.blocks_ge⟩

theorem apart_heap {s : History} (layout : Layout) (hs : s.Apart) :
    (s.gotBlock layout.size (s.heap.alloc layout)).Apart := by
  have hlo := hs.heap_lo
  have hhi := hs.heap_hi
  have hend := hs.heap_end
  rcases HeapAllocator.alloc_cases (h := s.heap) layout (by omega) with
    ⟨addr, heq, hge, hle⟩ | heq
  · rw [heq]
    refine ⟨hs.pages_le, hs.frames_le, hend, ?_, ?_, ?_⟩
    · simp only [History.gotBlock]
      omega
    · simp only [History.gotBlock]
      omega
    · intro b hb
      rcases List.mem_cons.mp hb with rfl | hb
      · exact Nat.le_trans hlo hge
      · exact hs.blocks_ge b hb
  · rw [heq]
    exact ⟨hs.pages_le, hs.frames_le, hend, hlo, hhi, hs.blocks_ge⟩

theorem apart_call {s : History} {c : AllocCall} (hs : s.Apart) (hfit : c.Fits s) :
    (s.call c).Apart := by
  cases c with
  | page =>
    show (s.gotFrames 1 (alloc_page s.mm)).Apart
    rw [alloc_page_eq]
    exact apart_gotFrames hs hfit
  | pages n => exact apart_gotFrames hs hfit
  | heap layout => exact apart_heap layout hs

/-- A request for frames that fits below the heap zero-fills nothing above it. -/
theorem gotFrames_mem {s : History} {n a : Nat} (hs : s.Apart) (hfit : FitsBelowHeap s n)
    (ha : 0x8600_0000 ≤ a) :
    (s.gotFrames n (alloc_pages n s.mm)).mm.mem a = s.mm.mem a := by
  by_cases hgrant : wadd s.mm.pages.current (wmul n PAGE_SIZE) ≤ s.mm.pages.end_
  · have hle : s.mm.pages.current + n * PAGE_SIZE ≤ 0x8600_0000 := by
      rcases hfit with h | h
      · exact h
      · omega
    obtain ⟨hmul, _⟩ := fits_no_wrap hs hle
    rw [alloc_pages_granted hgrant]
    show fill s.mm.mem s.mm.pages.current (wmul n PAGE_SIZE) 0 a = _
    rw [hmul]
    exact fill_out (by omega)
  · rw [alloc_pages_refused (Nat.lt_of_not_le hgrant)]
    rfl

theorem spares_of_apart {s : History} {c : AllocCall} (hs : s.Apart) (hfit : c.Fits s) :
    s.Spares c := by
  intro b hb a ⟨ha, _⟩
  have hge := hs.blocks_ge b hb
  cases c with
  | page =>
    show (s.gotFrames 1 (alloc_page s.mm)).mm.mem a = _
    rw [alloc_page_eq]
    exact gotFrames_mem hs hfit (by omega)
  | pages n =>
    show (s.gotFrames n (alloc_pages n s.mm)).mm.mem a = _
    exact gotFrames_mem hs hfit (by omega)
  | heap layout =>
    rw [History.call, gotBlock_mm]

/-- One allocation call as a transition. -/
def allocStep (s : History) (c : AllocCall) (s' : History) : Prop := s' = s.call c

/-- **Frames and heap.**  After `mm::init` and `mm::init_heap`, in every run
    whose requests for frames all fit below `0x8600_0000` (or are refused), no
    frame shares a byte with a heap block, and no further such call writes to
    one. -/
theorem frames_avoid_heap (kernel_end : Nat) (mem : Mem) (_h1 : 0x8020_0000 ≤ kernel_end)
    (h2 : kernel_end < 0x8600_0000) (calls : List AllocCall) (s : History)
    (hrun : LTS.Steps (LTS.guarded (fun s c => c.Fits s) allocStep)
      (History.boot kernel_end mem) calls s) :
    s.Separate ∧ ∀ c : AllocCall, c.Fits s → s.Spares c := by
  have hapart : s.Apart := by
    refine hrun.invariant ?_ (apart_boot mem h2)
    rintro s c s' hs ⟨hfit, rfl⟩
    exact apart_call hs hfit
  exact ⟨hapart.separate, fun c hfit => spares_of_apart hapart hfit⟩

/-- Sixteen bytes, sixteen-byte aligned. -/
def layout16 : Layout where
  size := 16
  align := 16
  align_pow := ⟨4, by decide, by decide⟩
  size_le := by decide

/-- A heap block and a frame, for a kernel image of no size. -/
theorem frames_avoid_heap_boot :
    let s := ((History.boot 0x8020_0000 (fun _ => 1)).call (.heap layout16)).call .page
    s.frames = [⟨0x8020_0000, 4096⟩] ∧ s.blocks = [⟨0x8600_0000, 16⟩] ∧ s.Separate := by
  refine ⟨by decide +kernel, by decide +kernel, ?_⟩
  refine (frames_avoid_heap 0x8020_0000 (fun _ => 1) (by decide) (by decide)
    ([] ++ [.heap layout16] ++ [.page]) _ ?_).1
  refine LTS.Steps.snoc _ (LTS.Steps.snoc _ (LTS.Steps.nil _) ⟨trivial, rfl⟩) ⟨Or.inl ?_, rfl⟩
  decide +kernel

/-- One heap block, then 24065 frames in one request: the run of frames ends
    inside the heap, and its zero-fill wipes the block. -/
theorem frames_reach_heap :
    let s := (History.boot 0x8020_0000 (fun _ => 1)).call (.heap layout16)
    ¬ (s.call (.pages 24065)).Separate ∧ ¬ s.Spares (.pages 24065) := by
  intro s
  have hblocks : s.blocks = [⟨0x8600_0000, 16⟩] := by decide +kernel
  have hblocks' : (s.call (.pages 24065)).blocks = [⟨0x8600_0000, 16⟩] := by decide +kernel
  have hframes : (s.call (.pages 24065)).frames = [⟨0x8020_0000, 98570240⟩] := by
    decide +kernel
  constructor
  · intro h
    refine h ⟨0x8020_0000, 98570240⟩ (by simp [hframes]) ⟨0x8600_0000, 16⟩
      (by simp [hblocks']) 0x8600_0000 ?_
    simp [Region.Has]
  · intro h
    have hbyte := h ⟨0x8600_0000, 16⟩ (by simp [hblocks]) 0x8600_0000 (by simp [Region.Has])
    revert hbyte
    decide +kernel

end Rvos

import Rvos.Io.Offsets
import Rvos.Kernel.Auxv
import Rvos.Kernel.Roles

/-! # From reset to the first process (`main.rs`)

    `rust_main` sets up the two allocators and the kernel's own page table, lets
    the drivers take their buffers, fills the file system, and loads the shell.
    What the other modules assume of the kernel when the first process starts is
    what this code establishes, and what it builds is still there in every state
    reached later on.

    * `rust_main_starts` : `rust_main` gets to the shell, in a state that the other
      results start from.
    * `kernel_out_of_reach` : the kernel's own page table stays as it was built. -/

namespace Rvos

open Access ByteMem Usize

/-! ## Section 1: `rust_main` -/

/-- What the code does not fix: where the image ends, the embedded programs, the
    buffers that the network driver asks for (in pages), and the heap blocks of the
    network stack (size, and logarithm of the alignment). -/
structure Board where
  kernel_end : Nat
  blobs : Fs.Blobs
  dma : List Nat
  blocks : List (Nat × Nat)

/-- The kernel's statics at reset. -/
def Kernel.reset (mem : Mem) : Kernel where
  mm := ⟨mem, ⟨0, 0⟩⟩
  heap := ⟨0, 0⟩
  satp := 0
  procs := ∅
  current_pid := 0
  next_pid := 1
  current_trap_frame := .new
  mmap_base := 0
  io := .new

/-- `init_kernel_page_table`: memory and devices as in every other table, and the
    register that switches the machine off. -/
def init_kernel_page_table : MmM PageTable := do
  match ← PageTable.new with
  | none => throw (.panic "called `Option::unwrap()` on a `None` value")
  | some pt =>
    pt.identity_map
    pt.map 0x10_0000 0x10_0000 (.R ||| .W)
    return pt

/-- `RvHal::dma_alloc`. -/
def dma_alloc (n : Nat) : MmM Nat := do
  match ← alloc_pages n with
  | none => throw (.panic "DMA alloc failed")
  | some paddr => return paddr

/-- A block of the kernel heap that is never given back. -/
def leak_block (b : Nat × Nat) : KM Unit := do
  let k ← get
  match heap_alloc k.heap b.1 b.2 with
  | (none, _) => throw (.panic "memory allocation failed")
  | (some _, h) => modify fun k => { k with heap := h }

/-- `rust_main` up to the message that the kernel is ready: the kernel's page table. -/
def kernel_init (b : Board) : KM PageTable := do
  modify fun k => { k with mm := { k.mm with pages := init b.kernel_end } }
  modify fun k => { k with heap := init_heap }
  let kernel_page_table ← KM.mm init_kernel_page_table
  modify fun k => { k with satp := kernel_page_table.root_ppn }
  -- `virtio::init` and `net::init`
  KM.mm (b.dma.forM fun n => do let _ ← dma_alloc n)
  b.blocks.forM leak_block
  modify fun k => { k with io := { k.io with fs := Fs.init b.blobs } }
  return kernel_page_table

def rust_main (env : Env) (b : Board) : KM PageTable := do
  let kernel_page_table ← kernel_init b
  match (← get).io.fs.get_file_data (utf8 "/bin/sh") with
  | none => throw (.panic "sh binary not found")
  | some sh_data =>
    match ← init_user_proc env sh_data [utf8 "sh"] with
    | none => throw (.panic "failed to load shell")
    | some _ => return kernel_page_table

/-- `run_user`, when the other registers hold `x` and `f`. -/
def run_user (x f : Regs) (k : Kernel) : Option System :=
  k.current.map fun p =>
    { k := { k with satp := p.page_table.root_ppn }
      cpu := {
        x := setReg (setReg x 0 0) 2 (p.trap_frame.regs 2)
        f := f
        pc := p.trap_frame.sepc
        sstatus := p.trap_frame.sstatus
        sscratch := p.kernel_stack } }

/-! ## Section 2: The kernel's page table -/

/-- The addresses that the kernel uses. -/
def KernelRange (va : Nat) : Prop :=
  (0x8000_0000 ≤ va ∧ va < 0x8800_0000) ∨ (0x1000_0000 ≤ va ∧ va < 0x1000_9000) ∨
    (0x0c00_0000 ≤ va ∧ va < 0x0c20_0000) ∨ (0x10_0000 ≤ va ∧ va < 0x10_1000)

instance (va : Nat) : Decidable (KernelRange va) := inferInstanceAs (Decidable (_ ∨ _))

/-- The pages of the kernel's table. -/
def kernelPages : List (Nat × PTEFlags) := identityPages ++ [(0x10_0000, deviceFlags)]

theorem OnlyIdentity.of_kernelMapped {m : Mem} {r : Nat} (h : KernelMapped m r) (hnone : ∀ v, userLeaf m r v = none) :
    OnlyIdentity identityPages m r := by
  intro v e
  rw [← h v e]
  constructor
  · intro hleaf
    refine ⟨hleaf, ?_⟩
    by_contra hU
    have := hnone v
    rw [userLeaf, hleaf, Option.filter, if_pos (by simpa using hU)] at this
    cases this
  · exact And.left

theorem kernelPages_mem {p : Nat × PTEFlags} (h : p ∈ kernelPages) :
    4096 ∣ p.1 ∧ (p.2 = kernelFlags ∨ p.2 = deviceFlags) ∧ ∀ va, p.1 ≤ va → va < p.1 + 4096 → KernelRange va := by
  unfold KernelRange
  simp only [kernelPages, identityPages, List.mem_append, List.mem_map, List.mem_singleton] at h
  rcases h with (((⟨a, ha, rfl⟩ | rfl) | ⟨a, ha, rfl⟩) | ⟨a, ha, rfl⟩) | rfl
  · obtain ⟨k, rfl, hk⟩ := mem_pages ha
    exact ⟨by omega, Or.inl rfl, by omega⟩
  · exact ⟨by norm_num, Or.inr rfl, by omega⟩
  · obtain ⟨k, rfl, hk⟩ := mem_pages ha
    exact ⟨by omega, Or.inr rfl, by omega⟩
  · obtain ⟨k, rfl, hk⟩ := mem_pages ha
    exact ⟨by omega, Or.inr rfl, by omega⟩
  · exact ⟨by norm_num, Or.inr rfl, by omega⟩

/-- Every address of the kernel is in one of the pages. -/
theorem kernelPages_of_range {va : Nat} (h : KernelRange va) : ∃ flags, (va / 4096 * 4096, flags) ∈ kernelPages := by
  unfold KernelRange at h
  simp only [kernelPages, identityPages, List.mem_append, List.mem_map, List.mem_singleton]
  rcases h with ⟨hlo, hhi⟩ | ⟨hlo, hhi⟩ | ⟨hlo, hhi⟩ | ⟨hlo, hhi⟩
  · refine ⟨kernelFlags, Or.inl (Or.inl (Or.inl (Or.inl ⟨_, ?_, rfl⟩)))⟩
    exact pages_mem (k := (va - 0x8000_0000) / 4096) (by omega) (by omega)
  · by_cases hfirst : va < 0x1000_1000
    · refine ⟨deviceFlags, Or.inl (Or.inl (Or.inl (Or.inr ?_)))⟩
      rw [show va / 4096 * 4096 = 0x1000_0000 by omega]
    · refine ⟨deviceFlags, Or.inl (Or.inl (Or.inr ⟨_, ?_, rfl⟩))⟩
      exact pages_mem (k := (va - 0x1000_1000) / 4096) (by omega) (by omega)
  · refine ⟨deviceFlags, Or.inl (Or.inr ⟨_, ?_, rfl⟩)⟩
    exact pages_mem (k := (va - 0x0c00_0000) / 4096) (by omega) (by omega)
  · refine ⟨deviceFlags, Or.inr ?_⟩
    rw [show va / 4096 * 4096 = 0x10_0000 by omega]

/-- The kernel's page table is in place: its nodes have been handed out, and it has
    these pages. -/
structure KernelTable (s : Mm) (r : Nat) : Prop where
  tables : Tables s {r}
  pages : OnlyIdentity kernelPages s.mem r

/-- What the processor makes of an address with the kernel's table: it is the
    address itself, or a fault. -/
theorem KernelTable.translate {s : Mm} {r : Nat} (h : KernelTable s r) (w : Bool) (va : Nat) :
    hw_translate s.mem r w va = if KernelRange va then some va else none := by
  have hwalk := hw_walk_eq h.tables (Set.mem_singleton r) va
  have hflags : ∀ f : PTEFlags, f = kernelFlags ∨ f = deviceFlags →
      f.mapped.contains .V = true ∧ f.mapped.contains .R = true ∧ f.mapped.contains .W = true ∧
        f.mapped.contains .A = true ∧ f.mapped.contains .D = true := by
    rintro f (rfl | rfl) <;> decide
  unfold hw_translate
  rw [hwalk]
  by_cases hrange : KernelRange va
  · obtain ⟨flags, hp⟩ := kernelPages_of_range hrange
    obtain ⟨-, hf, -⟩ := kernelPages_mem hp
    have hlt : va < 2 ^ 32 := by
      unfold KernelRange at hrange
      omega
    have hcanon : canonical va = true := by
      unfold canonical
      rw [Bool.or_eq_true, decide_eq_true_eq]
      exact Or.inl (by omega)
    have hvpn : Vpn.of va = Vpn.of (va / 4096 * 4096) := by
      apply Vpn.key_inj
      simp only [Vpn.key_of, Rvos.key, Nat.shiftRight_eq_div_pow, PAGE_SIZE_BITS]
      omega
    have hleaf : leaf s.mem r (Vpn.of va) = some (identityEntry (va / 4096 * 4096, flags)) :=
      (h.pages _ _).mpr ⟨_, hp, hvpn, rfl⟩
    have hppn : (va / 4096 * 4096) >>> PAGE_SIZE_BITS = va / 4096 := by
      rw [Nat.shiftRight_eq_div_pow]
      unfold PAGE_SIZE_BITS
      omega
    obtain ⟨hV, hR, hW, hA, hD⟩ := hflags flags hf
    rw [if_pos hcanon, hleaf, if_pos hrange, Option.bind_some]
    unfold identityEntry
    simp only [hppn]
    have hsmall : va / 4096 < 2 ^ 54 := by omega
    have husable : (PageTableEntry.new (va / 4096) flags.mapped).usable = true := by
      simp only [PageTableEntry.usable, PageTableEntry.is_valid, PageTableEntry.new_flags hsmall,
        PageTableEntry.new_ppn hsmall, hV, hR, Bool.not_true, Bool.and_false, Bool.not_false, Bool.and_true,
        Bool.true_and, decide_eq_true_eq]
      omega
    have hisLeaf : (PageTableEntry.new (va / 4096) flags.mapped).isLeaf = true := by
      simp [PageTableEntry.isLeaf, PageTableEntry.new_flags hsmall, hR]
    rw [husable, hisLeaf, Bool.and_self, if_pos rfl, Option.bind_some, PageTableEntry.new_ppn hsmall,
      PageTableEntry.new_flags hsmall]
    have hperm : permits w flags.mapped = true := by
      unfold permits
      rw [hA, hW, hD, hR]
      cases w <;> rfl
    rw [if_pos hperm]
    exact congrArg some (by omega)
  · rw [if_neg hrange]
    by_cases hcanon : canonical va = true
    · rw [if_pos hcanon]
      cases hleaf : leaf s.mem r (Vpn.of va) with
      | none => rfl
      | some e =>
        -- a leaf is one of the pages, and the address lies in it
        exfalso
        obtain ⟨p, hp, hv, -⟩ := (h.pages _ _).mp hleaf
        obtain ⟨haligned, -, hin⟩ := kernelPages_mem hp
        apply hrange
        have hp32 : p.1 < 2 ^ 32 := by
          have := hin p.1 (Nat.le_refl _) (by omega)
          unfold KernelRange at this
          omega
        have hkey : Rvos.key va = Rvos.key p.1 := by rw [← Vpn.key_of, ← Vpn.key_of, hv]
        simp only [Rvos.key, Nat.shiftRight_eq_div_pow, PAGE_SIZE_BITS] at hkey
        unfold canonical at hcanon
        simp only [Bool.or_eq_true, Bool.and_eq_true, decide_eq_true_eq] at hcanon
        exact hin va (by omega) (by omega)
    · rw [if_neg hcanon]
      rfl

/-- The table depends on memory that has been handed out. -/
theorem KernelTable.below {s : Mm} {r : Nat} (h : KernelTable s r) {m : Mem} {c : Nat} (hc : s.pages.current ≤ c)
    (hend : c ≤ s.pages.end_) (hdvd : 4096 ∣ c) (hm : ∀ a, a < s.pages.current → m a = s.mem a) :
    KernelTable ⟨m, ⟨c, s.pages.end_⟩⟩ r := by
  have hsame : SameEntries s.mem m r 2 := h.tables.same_of_below hm (Set.mem_singleton r)
  refine ⟨?_, ?_⟩
  · refine h.tables.transport ⟨hdvd, hend, h.tables.ok.end_le⟩ hc ?_
    intro x hx
    rw [Set.mem_singleton_iff.mp hx]
    exact hsame.shallow (by omega)
  · intro v e
    rw [leaf_of_same hsame v]
    exact h.pages v e

/-- **`init_kernel_page_table`**, with room for its nodes. -/
theorem init_kernel_page_table_wp {s : Mm} (h : s.Ok) (hroom : s.pages.current + 4096 * 135 ≤ s.pages.end_) :
    Prog.wp init_kernel_page_table
      (fun pt t => KernelTable t pt.root_ppn ∧ t.pages.end_ = s.pages.end_ ∧
        s.pages.current ≤ t.pages.current ∧ t.pages.current ≤ s.pages.current + 4096 * 135)
      (fun _ _ => False) s := by
  unfold init_kernel_page_table
  rw [Prog.wp_bind]
  rcases PageTable.new_cases h with ⟨hfree, hnew⟩ | ⟨hfull, -⟩
  · rw [Prog.wp_of_ok hnew]
    dsimp only
    obtain ⟨hb, hempty⟩ := Builds.new (noHome_spaces h).own hfree
    have hcur : s.take.pages.current = s.pages.current + 4096 := rfl
    rw [Prog.wp_bind]
    apply (identity_map_wp hb hempty).mono
    · intro _ t hmapped
      obtain ⟨hb2, hkernel, hnone, hused⟩ := hmapped
      have honly := OnlyIdentity.of_kernelMapped hkernel hnone
      have hend := hb2.end_eq
      have hcursor := hb2.cursor
      rw [Prog.wp_bind]
      apply (map_wp hb2.own.tables hb2.root (by norm_num : 0x10_0000 < 2 ^ 64) _).mono
      · intro _ u hm
        rw [Prog.wp_pure]
        have hu := hm.used
        have hge := hm.grows.cursor
        refine ⟨⟨hm.grows.tables.mono ?_, honly.mapped hb2.root hm⟩, hm.grows.end_eq.trans hend, by omega, by omega⟩
        intro x hx
        rw [Set.mem_singleton_iff.mp hx]
        exact hb2.root
      · intro _ _ hfail
        rcases hfail with ⟨-, hsome⟩ | ⟨-, -, -, hfull⟩
        · -- the page is none of the pages of memory and devices
          obtain ⟨e, he⟩ := Option.isSome_iff_exists.mp hsome
          obtain ⟨p, hp, hv, -⟩ := (honly _ _).mp he
          have hkey := congrArg Vpn.key hv
          obtain ⟨hlt, -, -, hregion⟩ := identityPages_mem hp
          simp only [Finset.mem_union, Finset.mem_Icc, Finset.mem_insert, Finset.mem_singleton] at hregion
          simp only [Vpn.key_of, Rvos.key, Nat.shiftRight_eq_div_pow, PAGE_SIZE_BITS] at hkey
          omega
        · omega
    · intro _ _ hfull
      have hend : s.take.pages.end_ = s.pages.end_ := rfl
      omega
  · omega

/-! ## Section 3: Up to the shell -/

theorem heap_alloc_fits {h : HeapAllocator} (hok : h.Ok) {n l : Nat} (hfit : h.current + (n + 2 ^ l) ≤ 0x8700_0000) :
    ∃ a, heap_alloc h n l = (some a, { h with current := a + n }) ∧ h.current ≤ a ∧ a ≤ h.current + 2 ^ l := by
  have hlo := hok.lo
  have hend := hok.end_eq
  have hl : l ≤ 63 := by
    by_contra hbig
    have := Nat.pow_le_pow_right (n := 2) (by omega) (show 64 ≤ l by omega)
    omega
  have hpos : 0 < 2 ^ l := Nat.two_pow_pos l
  have hsum : wadd h.current (2 ^ l) = h.current + 2 ^ l := wadd_of_lt (by omega)
  have hsub : wsub (h.current + 2 ^ l) 1 = h.current + 2 ^ l - 1 := wsub_of_le (by omega) (by omega)
  have hdiv := Nat.div_add_mod (h.current + 2 ^ l - 1) (2 ^ l)
  have hmod := Nat.mod_lt (h.current + 2 ^ l - 1) hpos
  rw [Nat.mul_comm] at hdiv
  refine ⟨(h.current + 2 ^ l - 1) / 2 ^ l * 2 ^ l, ?_, by omega, by omega⟩
  unfold heap_alloc
  rw [dif_pos ⟨hl, by omega⟩]
  unfold HeapAllocator.alloc
  simp only [hsum, hsub]
  rw [and_bnot_eq_div_mul (by omega) (by omega)]
  generalize (h.current + 2 ^ l - 1) / 2 ^ l * 2 ^ l = a at hdiv ⊢
  rw [wadd_of_lt (by omega : a + n < 2 ^ 64), if_pos (by omega)]

/-- The bytes of the heap that blocks take, at most. -/
def heapBytes (l : List (Nat × Nat)) : Nat := (l.map fun p => p.1 + 2 ^ p.2).sum

theorem heapBytes_snoc (l : List (Nat × Nat)) (p : Nat × Nat) : heapBytes (l ++ [p]) = heapBytes l + (p.1 + 2 ^ p.2) := by
  simp [heapBytes]

theorem heapBytes_mid (l : List (Nat × Nat)) (p : Nat × Nat) (rest : List (Nat × Nat)) :
    heapBytes (l ++ p :: rest) = heapBytes l + (p.1 + 2 ^ p.2) + heapBytes rest := by
  simp [heapBytes, Nat.add_assoc]

/-- What is asked for up to the shell fits: the frames below the heap, with `n`
    frames to spare, and the blocks in it, with `m` bytes to spare. -/
structure Board.Fits (b : Board) (n m : Nat) : Prop where
  image : 0x8020_0000 ≤ b.kernel_end
  frames : b.kernel_end + 4096 * (136 + b.dma.sum + n) ≤ 0x8600_0000
  heap : heapBytes b.blocks + m ≤ 0x100_0000

/-- The buffers of the driver. -/
theorem dma_wp {s : Mm} {r : Nat} (h : KernelTable s r) (l : List Nat) (hend : s.pages.end_ = 0x8800_0000)
    (hroom : s.pages.current + 4096 * l.sum ≤ s.pages.end_) :
    Prog.wp (l.forM fun n => do let _ ← dma_alloc n)
      (fun _ t => KernelTable t r ∧ t.pages.end_ = s.pages.end_ ∧ t.pages.current = s.pages.current + 4096 * l.sum)
      (fun _ _ => False) s := by
  have hstart : KernelTable s r ∧ s.pages.end_ = s.pages.end_ ∧
      s.pages.current = s.pages.current + 4096 * ([] : List Nat).sum := ⟨h, rfl, rfl⟩
  apply Prog.forM_wp (I := fun done t => KernelTable t r ∧ t.pages.end_ = s.pages.end_ ∧
    t.pages.current = s.pages.current + 4096 * done.sum) _ hstart
  intro done n rest t hl hinv
  obtain ⟨ht, htend, hcur⟩ := hinv
  have hsum : l.sum = done.sum + n + rest.sum := by
    rw [hl, List.sum_append, List.sum_cons, Nat.add_assoc]
  have hmul : wmul n PAGE_SIZE = 4096 * n := by
    rw [wmul_of_lt (by unfold PAGE_SIZE; omega), PAGE_SIZE, Nat.mul_comm]
  have hadd : wadd t.pages.current (4096 * n) = t.pages.current + 4096 * n := wadd_of_lt (by omega)
  have hrun := alloc_pages_granted (s := t) (n := n) (by rw [hmul, hadd]; omega)
  rw [hmul, hadd] at hrun
  unfold dma_alloc
  rw [Prog.wp_bind, Prog.wp_bind, Prog.wp_of_ok hrun]
  simp only [Prog.wp_pure]
  have hbytes : ∀ a, a < t.pages.current → fill t.mem t.pages.current (4096 * n) 0 a = t.mem a := by
    intro a ha
    exact fill_out (Or.inl ha)
  have hok := ht.tables.ok
  have hdvd := hok.aligned
  refine ⟨ht.below (by omega) (by omega) (by omega) hbytes, htend, ?_⟩
  rw [List.sum_append, List.sum_singleton, hcur]
  omega

/-- The kernel after the blocks of `l`: only the heap has changed. -/
structure Leaked (k : Kernel) (l : List (Nat × Nat)) (k' : Kernel) : Prop where
  rest : k' = { k with heap := k'.heap }
  heap : k'.heap.Ok
  used : k'.heap.current ≤ k.heap.current + heapBytes l

/-- The blocks of the network stack. -/
theorem blocks_wp {k : Kernel} (hok : k.heap.Ok) (l : List (Nat × Nat))
    (hroom : k.heap.current + heapBytes l ≤ 0x8700_0000) :
    Prog.wp (l.forM leak_block) (fun _ k' => Leaked k l k') (fun _ _ => False) k := by
  apply Prog.forM_wp _ (⟨rfl, hok, Nat.le_refl _⟩ : Leaked k [] k)
  intro done p rest k' hl hk'
  have hcur := hk'.used
  rw [hl, heapBytes_mid] at hroom
  obtain ⟨a, halloc, hge, hle⟩ := heap_alloc_fits hk'.heap (n := p.1) (l := p.2) (by omega)
  unfold leak_block
  rw [Prog.wp_bind, Prog.wp_get]
  simp only [halloc]
  rw [Prog.wp_modify]
  refine ⟨?_, (heap_alloc_block hk'.heap halloc).1, ?_⟩
  · rw [hk'.rest]
  · show a + p.1 ≤ _
    rw [heapBytes_snoc]
    omega

/-- **Up to the shell.**  The allocators are in order, and the kernel's table is in
    place. -/
theorem kernel_init_wp {b : Board} {n m : Nat} (h : b.Fits n m) (mem : Mem) :
    Prog.wp (kernel_init b)
      (fun kpt k => Boot k ∧ k.mm.pages.current + 4096 * n ≤ 0x8600_0000 ∧ k.heap.current + m ≤ 0x8700_0000 ∧
        k.io = Io.boot b.blobs ∧ KernelTable k.mm kpt.root_ppn)
      (fun _ _ => False) (Kernel.reset mem) := by
  have himage := h.image
  have hframes := h.frames
  have hheap := h.heap
  have hinit := init_current (show b.kernel_end < 2 ^ 63 by omega)
  generalize hs : (⟨mem, init b.kernel_end⟩ : Mm) = s
  have hcur : s.pages.current = (b.kernel_end + 4095) / 4096 * 4096 := by rw [← hs, ← hinit]
  have hend : s.pages.end_ = 0x8800_0000 := by rw [← hs]; rfl
  have hok : s.Ok := ⟨by omega, by omega, by omega⟩
  unfold kernel_init KM.mm
  simp only [Prog.wp_bind, Prog.wp_modify, Prog.wp_zoom, Prog.wp_pure]
  show Prog.wp init_kernel_page_table _ _ ⟨mem, init b.kernel_end⟩
  rw [hs]
  apply (init_kernel_page_table_wp hok (by omega)).mono _ fun _ _ he => he
  intro kpt t hkpt
  obtain ⟨htable, htend, htlo, hthi⟩ := hkpt
  apply (dma_wp htable b.dma (by omega) (by omega)).mono _ fun _ _ he => he
  intro _ u hdma
  obtain ⟨hutable, huend, hucur⟩ := hdma
  apply (blocks_wp (l := b.blocks) init_heap_ok (by show 0x8600_0000 + _ ≤ _; omega)).mono _ fun _ _ he => he
  intro _ k' hk'
  have hused : k'.heap.current ≤ 0x8600_0000 + heapBytes b.blocks := hk'.used
  have hmm : k'.mm = u := by rw [hk'.rest]
  have hprocs : k'.procs = ∅ := by
    rw [hk'.rest]
    rfl
  have hbase : k'.mmap_base = 0 := by
    rw [hk'.rest]
    rfl
  have hio : k'.io = .new := by
    rw [hk'.rest]
    rfl
  refine ⟨⟨?_, ?_, ?_, hk'.heap.lo, hk'.heap.hi, hk'.heap.end_eq, hprocs, hbase⟩, ?_, ?_, ?_, ?_⟩
  · exact hmm ▸ hutable.tables.ok
  · show 0x8000_0000 ≤ k'.mm.pages.current
    rw [hmm]
    omega
  · show k'.mm.pages.end_ = _
    rw [hmm]
    omega
  · show k'.mm.pages.current + _ ≤ _
    rw [hmm]
    omega
  · show k'.heap.current + m ≤ _
    omega
  · simp only [hio, Io.boot]
  · exact hmm ▸ hutable

/-! ## Section 4: The shell, and afterwards -/

theorem boot_shell (b : Fs.Blobs) : (Fs.init b).get_file_data (utf8 "/bin/sh") = some b.busybox := by
  have hget := Fs.init_get b (c := .create_file_static (utf8 "/bin/sh") b.busybox)
    (by simp only [Fs.init_calls, List.mem_cons, true_or, or_true])
  unfold Fs.get_file_data
  rw [show (Fs.init b).files[utf8 "/bin/sh"]? = _ from hget]
  rfl

theorem shell_fits : StackFits ([utf8 "sh"] ++ [utf8 "PATH=/bin"]) := by
  have hlen : (utf8 "sh").length = 2 ∧ (utf8 "PATH=/bin").length = 9 := by decide +kernel
  intro i str hi
  match i with
  | 0 =>
    obtain rfl := Option.some.inj hi
    omega
  | 1 =>
    obtain rfl := Option.some.inj hi
    omega
  | i + 2 => cases hi

section Shell

variable {env : Env} {b : Board} {mem : Mem} {kpt : PageTable} {k : Kernel} {s t : System} {x f : Regs} {n m : Nat}

/-- `rust_main` in two parts. -/
theorem rust_main_ok (h : b.Fits bootFrames 0) (hrun : rust_main env b (Kernel.reset mem) = .ok kpt k) :
    ∃ k0, Boot k0 ∧ k0.mm.pages.current + 4096 * bootFrames ≤ 0x8600_0000 ∧ KernelTable k0.mm kpt.root_ppn ∧
      init_user_proc env b.blobs.busybox [utf8 "sh"] k0 = .ok (some ()) k := by
  unfold rust_main at hrun
  rw [Prog.bind_eq_ok] at hrun
  obtain ⟨pt, k0, hinit, hrest⟩ := hrun
  obtain ⟨hboot, hroom, -, hio, htable⟩ := (kernel_init_wp h mem).ok hinit
  have hfile : k0.io.fs.get_file_data (utf8 "/bin/sh") = some b.blobs.busybox := by
    rw [hio]
    exact boot_shell b.blobs
  rw [Prog.bind_of_ok (Prog.get_run k0), hfile] at hrest
  dsimp only at hrest
  rw [Prog.bind_eq_ok] at hrest
  obtain ⟨o, k1, hproc, hlast⟩ := hrest
  cases o with
  | none => cases hlast
  | some u =>
    obtain ⟨rfl, rfl⟩ : pt = kpt ∧ k1 = k := by
      cases hlast
      exact ⟨rfl, rfl⟩
    exact ⟨k0, hboot, hroom, htable, hproc⟩

/-- The state in which `run_user` leaves the kernel. -/
theorem run_user_running {k : Kernel} (h : run_user x f k = some s) :
    (∃ satp, s.k = { k with satp := satp }) ∧ Running s := by
  unfold run_user at h
  obtain ⟨p, hp, rfl⟩ := Option.map_eq_some_iff.mp h
  refine ⟨⟨_, rfl⟩, ⟨p, hp, rfl, rfl, rfl, rfl, rfl⟩, rfl⟩

theorem init_user_proc_io {data : List UInt8} {argv : List Path} {k0 : Kernel}
    (h : init_user_proc env data argv k0 = .ok (some ()) k) : k.io = k0.io := by
  obtain ⟨proc, elf, max_end, ka, kb, hnew, hload, hk⟩ := init_user_proc_cases h
  have hrest := ((rest_load_program _ _ _ _ _).of_ok hload).trans ((rest_mm _).of_ok hnew)
  simp only [Kernel.rest, Prod.mk.injEq] at hrest
  rw [hk]
  exact hrest.2.2.2.2.2.2

/-- Each part of `rust_main` returns. -/
theorem rust_main_total {elf : Elf} (hfits : b.Fits n m) (hn : bootFrames + 4 * elf.pages.length ≤ n)
    (hm : b.blobs.busybox.length + 16 ≤ m) (hparse : env.parse_elf b.blobs.busybox = some elf)
    (hstart : elf.Startable b.blobs.busybox.length) (mem : Mem) :
    ∃ kpt k0 k proc, (Boot k0 ∧ k0.io = Io.boot b.blobs ∧ ¬ (heap_alloc k0.heap b.blobs.busybox.length 4).1 = none) ∧
      k0.mm.pages.current + 4096 * n ≤ 0x8600_0000 ∧
      init_user_proc env b.blobs.busybox [utf8 "sh"] k0 = .ok (some ()) k ∧
      rust_main env b (Kernel.reset mem) = .ok kpt k ∧ k.current = some proc := by
  obtain ⟨kpt, k0, hinit, hboot, hroom, hheap, hio, -⟩ := (kernel_init_wp hfits mem).total fun _ _ he => he
  have hfile : k0.io.fs.get_file_data (utf8 "/bin/sh") = some b.blobs.busybox := by
    rw [hio]
    exact boot_shell b.blobs
  -- the copy of the file that `load_program` takes from the heap
  have halloc : ¬ (heap_alloc k0.heap b.blobs.busybox.length 4).1 = none := by
    obtain ⟨a, ha, -, -⟩ := heap_alloc_fits ⟨hboot.heap_lo, hboot.heap_hi, hboot.heap_end⟩
      (n := b.blobs.busybox.length) (l := 4) (by omega)
    rw [ha]
    simp
  obtain ⟨k, proc, hproc, hcur, -⟩ := init_user_proc_starts hboot (by omega) shell_fits hparse hstart halloc
  refine ⟨kpt, k0, k, proc, ⟨hboot, hio, halloc⟩, hroom, hproc, ?_, hcur⟩
  unfold rust_main
  rw [Prog.bind_of_ok hinit, Prog.bind_of_ok (Prog.get_run k0), hfile]
  dsimp only
  rw [Prog.bind_of_ok hproc]
  rfl

theorem run_user_total {proc : Process} (h : k.current = some proc) (x f : Regs) : ∃ s, run_user x f k = some s := by
  unfold run_user
  rw [h]
  exact ⟨_, rfl⟩

/-- A small image, with a driver that takes two buffers and a stack of one block. -/
def Board.small : Board := ⟨0x8024_5678, Fs.noBlobs, [2, 16], [(1024, 3)]⟩

theorem small_fits {n : Nat} (h : n ≤ 1000) : Board.small.Fits n 16 := by
  have hdma : Board.small.dma.sum = 18 := rfl
  have hend : Board.small.kernel_end = 0x8024_5678 := rfl
  exact ⟨by decide, by omega, by decide⟩

/-- The program that `Env.quiet` makes of any file. -/
def quietElf : Elf := ⟨0x10000, 64, 56, []⟩

theorem quiet_startable : quietElf.Startable 0 := by
  refine ⟨rfl, ?_, List.nodup_nil, ?_, ?_⟩
  · intro ph hph
    cases hph
  · intro page hpage
    cases hpage
  · intro page hpage
    cases hpage

/-- The first process has none of the frames that were in use before. -/
theorem first_spares {k0 : Kernel} {data : List UInt8} {argv : List Path} (hboot : Boot k0)
    (hroom : k0.mm.pages.current + 4096 * bootFrames ≤ 0x8600_0000) (hfit : StackFits (argv ++ [utf8 "PATH=/bin"]))
    (hproc : init_user_proc env data argv k0 = .ok (some ()) k) : Spares k0.mm noHome k.mm k.home := by
  obtain ⟨-, hb, hhome⟩ := ((init_user_proc_wp hboot env data hroom hfit).ok hproc).1 rfl
  rw [hhome]
  refine Spares.builds hb rfl (fun y (hy : oneHome _ 1 = some y) => (Option.some.inj hy).symm) ?_ ?_
  · intro q y hq hy
    unfold oneHome at hy
    rw [if_neg hq] at hy
    cases hy
  · right
    show _ ≤ k0.mm.pages.current + 4096 + 8192 - 8192
    omega

theorem noHome_role {s : Mm} {g : Nat} (ρ : Role) : ¬ HasRole s noHome g ρ := by
  intro h
  cases ρ with
  | node pid path =>
    obtain ⟨x, hx, -⟩ := h
    cases hx
  | page pid v =>
    obtain ⟨x, hx, -⟩ := h
    cases hx
  | stack pid i =>
    obtain ⟨x, hx, -⟩ := h
    cases hx

/-- **The kernel's page table is out of reach.**  Whatever processes do, with the
    kernel's own table memory and devices stay mapped to themselves, and nothing
    else is mapped: the register that switches the machine off is written when the
    last process exits. -/
theorem kernel_out_of_reach {ls : List Trap} (hfits : b.Fits bootFrames 0)
    (hmain : rust_main env b (Kernel.reset mem) = .ok kpt k) (hs : run_user x f k = some s)
    (hrun : LTS.Steps (LTS.guarded (System.Guarded env) (Step env)) s ls t) (w : Bool) (va : Nat) :
    hw_translate t.k.mm.mem kpt.root_ppn w va = if KernelRange va then some va else none := by
  obtain ⟨k0, hboot, hroom, htable, hproc⟩ := rust_main_ok hfits hmain
  obtain ⟨⟨satp, hk⟩, hrunning⟩ := run_user_running hs
  have hcalm : CalmStart env s :=
    ⟨k0, k, b.blobs.busybox, [utf8 "sh"], satp, hboot, hroom, shell_fits, hproc, hk, hrunning⟩
  have hfirst := first_spares hboot hroom shell_fits hproc
  have hmm : s.k.mm = k.mm := by rw [hk]
  have hhome : s.k.home = k.home := by rw [hk]; rfl
  rw [← hmm, ← hhome] at hfirst
  obtain ⟨-, hspares⟩ := spares_run hcalm.inv hrun
  have hall := hfirst.trans hspares
  -- a byte below the cursor is in a frame that no process has
  have hbytes : ∀ a, a < k0.mm.pages.current → t.k.mm.mem a = k0.mm.mem a := by
    intro a ha
    have haligned := hboot.frames.aligned
    exact hall.bytes (a / 4096) (by omega) noHome_role a ⟨by omega, by omega⟩
  have hok := hboot.frames
  have hkept : KernelTable ⟨t.k.mm.mem, k0.mm.pages⟩ kpt.root_ppn :=
    htable.below (Nat.le_refl _) hok.le_end hok.aligned hbytes
  exact hkept.translate w va

/-- The shell of the small image makes a child. -/
theorem small_clone : ∃ kpt k s t l, rust_main Env.quiet Board.small (Kernel.reset fun _ => 0) = .ok kpt k ∧
    run_user (fun _ => 0) (fun _ => 0) k = some s ∧
    LTS.guarded (System.Guarded Env.quiet) (Step Env.quiet) s l t ∧ (s.trapCpu l).num = 220 := by
  obtain ⟨kpt, k0, k, proc, ⟨hboot, -, halloc⟩, hroom, hproc, hmain, hcur⟩ :=
    rust_main_total (small_fits (n := 1000) (by decide)) (by decide) (by decide)
      (rfl : Env.quiet.parse_elf [] = some quietElf) quiet_startable fun _ => 0
  obtain ⟨s, hs⟩ := run_user_total hcur (fun _ => 0) (fun _ => 0)
  obtain ⟨⟨satp, hk⟩, hrunning⟩ := run_user_running hs
  have hroom1 : k0.mm.pages.current + 4096 * bootFrames ≤ 0x8600_0000 := by
    unfold bootFrames newFrames
    omega
  have hcalm : CalmStart Env.quiet s :=
    ⟨k0, k, _, [utf8 "sh"], satp, hboot, hroom1, shell_fits, hproc, hk, hrunning⟩
  have himage : ¬ ImageFails Env.quiet k0.heap Board.small.blobs.busybox := by
    intro hfails
    rcases hfails with hnone | hheaders
    · exact halloc hnone
    · exact hheaders quietElf rfl rfl
  obtain ⟨hsome, -, hused⟩ := (init_user_proc_wp hboot Env.quiet _ hroom1 shell_fits).ok hproc
  obtain ⟨-, hb, hhome⟩ := hsome rfl
  have hused := hused.resolve_left himage
  have hnext := hboot.frames.next_eq
  have hroomy : s.k.Roomy 1 := by
    rw [hk]
    refine ⟨hb.end_eq.trans hboot.frames_end, ?_, ?_⟩
    · intro r hr
      have hr' : r = k0.mm.next := by
        obtain ⟨q, y, hy, hroot⟩ := hr
        have hy' : k.home q = some y := hy
        rw [hhome] at hy'
        unfold oneHome at hy'
        split at hy'
        · cases hy'
          exact hroot.symm
        · cases hy'
      rw [hr']
      apply userPages_ncard_le k0.mm.next hb.own hb.root
      · intro v g hu
        have := hb.users v g hu
        omega
      · exact Nat.le_trans hused (by unfold bootFrames newFrames pagesBound; omega)
    · show k.mm.pages.current + 4096 * 640 ≤ _
      unfold bootFrames newFrames at hused
      omega
  obtain ⟨t, ⟨l, hl, hshow, hguard, -⟩, -⟩ := script_step Env.quiet
    (fun _ _ => 0) .clone ⟨1, 220, ⟨0, 0, 0, 0, 0, 0⟩, 2, false⟩
    ⟨[(1, ⟨1, 0, .Ready, 0⟩), (2, ⟨2, 1, .Running, 0⟩)], 2, 3⟩ hcalm.inv hroomy
    (by rw [hcalm.start.table]; decide +kernel)
  exact ⟨kpt, k, s, t, l, hmain, hs, ⟨hguard, hl⟩, hshow.num.symm⟩

theorem kernel_out_of_reach_small : ∃ kpt k s t l,
    rust_main Env.quiet Board.small (Kernel.reset fun _ => 0) = .ok kpt k ∧ run_user (fun _ => 0) (fun _ => 0) k = some s ∧
    LTS.Steps (LTS.guarded (System.Guarded Env.quiet) (Step Env.quiet)) s [l] t ∧
    hw_translate t.k.mm.mem kpt.root_ppn true 0x10_0000 = some 0x10_0000 := by
  obtain ⟨kpt, k, s, t, l, hmain, hs, hl, -⟩ := small_clone
  have hrun : LTS.Steps (LTS.guarded (System.Guarded Env.quiet) (Step Env.quiet)) s [l] t := LTS.Steps.single hl
  have hfits : Board.small.Fits bootFrames 0 := ⟨by decide, by decide, by decide⟩
  exact ⟨kpt, k, s, t, l, hmain, hs, hrun, kernel_out_of_reach hfits hmain hs hrun true 0x10_0000⟩

end Shell

end Rvos

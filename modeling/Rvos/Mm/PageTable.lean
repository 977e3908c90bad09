import Rvos.Lib.Radix
import Rvos.Mm.Alloc

/-! # SV39 page tables (`mm.rs`)

    A page table is three levels of 4096-byte nodes, each 512 entries of
    eight bytes, in the same physical memory as everything else.  An entry
    holds a frame number above ten low bits, of which eight are flags.

    * `find_pte`, `translate` walk a table without changing it;
    * `find_pte_create`, `map` allocate the nodes that are missing;
    * `clone_user_space` copies every page that has the `U` flag.

    Section 3 gives the view the proofs use: `node` and `leaf`, the nodes and
    the last-level entries of a table as partial functions of the index path. -/

namespace Rvos

open ByteMem Usize

/-! ## Section 1: Entries -/

/-- The flag bits of an entry; `from_bits_truncate` keeps these eight. -/
abbrev PTEFlags : Type := BitVec 8

namespace PTEFlags

def V : PTEFlags := 1#8
def R : PTEFlags := 2#8
def W : PTEFlags := 4#8
def X : PTEFlags := 8#8
def U : PTEFlags := 16#8
def G : PTEFlags := 32#8
def A : PTEFlags := 64#8
def D : PTEFlags := 128#8

/-- All bits of `g` are set in `f`. -/
def contains (f g : PTEFlags) : Bool := f &&& g == g

/-- The flags `map` writes for a request `f`. -/
def mapped (f : PTEFlags) : PTEFlags := f ||| V ||| A ||| D

theorem mapped_valid : ∀ f : PTEFlags, (mapped f).contains V = true := by decide +kernel

theorem mapped_contains_U : ∀ f : PTEFlags, (mapped f).contains U = f.contains U := by
  decide +kernel

theorem mapped_mapped : ∀ f : PTEFlags, (mapped f).mapped = mapped f := by decide +kernel

end PTEFlags

structure PageTableEntry where
  bits : Word
  deriving DecidableEq, Repr

namespace PageTableEntry

def new (ppn : Nat) (flags : PTEFlags) : PageTableEntry :=
  ⟨BitVec.ofNat 64 (shl ppn 10) ||| flags.setWidth 64⟩

def empty : PageTableEntry := ⟨0⟩

def ppn (e : PageTableEntry) : Nat := (e.bits >>> 10).toNat

def flags (e : PageTableEntry) : PTEFlags := e.bits.setWidth 8

def is_valid (e : PageTableEntry) : Bool := e.flags.contains .V

theorem new_toNat {ppn : Nat} (h : ppn < 2 ^ 54) (flags : PTEFlags) :
    (new ppn flags).bits.toNat = ppn * 2 ^ 10 + flags.toNat := by
  have hflags : flags.toNat < 2 ^ 8 := flags.isLt
  have hshl : shl ppn 10 = ppn * 2 ^ 10 := by
    rw [shl, Nat.shiftLeft_eq, Nat.mod_eq_of_lt (by omega)]
  rw [new, BitVec.toNat_or, BitVec.toNat_ofNat, BitVec.toNat_setWidth, hshl,
    Nat.mod_eq_of_lt (by omega : ppn * 2 ^ 10 < 2 ^ 64), Nat.mod_eq_of_lt (by omega),
    mul_or_eq_add (by omega)]

@[simp] theorem new_ppn {ppn : Nat} (h : ppn < 2 ^ 54) (flags : PTEFlags) :
    (new ppn flags).ppn = ppn := by
  have hflags : flags.toNat < 2 ^ 8 := flags.isLt
  rw [PageTableEntry.ppn, BitVec.toNat_ushiftRight, new_toNat h, Nat.shiftRight_eq_div_pow]
  omega

@[simp] theorem new_flags {ppn : Nat} (h : ppn < 2 ^ 54) (flags : PTEFlags) :
    (new ppn flags).flags = flags := by
  have hflags : flags.toNat < 2 ^ 8 := flags.isLt
  apply BitVec.eq_of_toNat_eq
  rw [PageTableEntry.flags, BitVec.toNat_setWidth, new_toNat h]
  omega

@[simp] theorem empty_invalid : empty.is_valid = false := by decide

end PageTableEntry

/-! ## Section 2: Tables -/

structure PageTable where
  root_ppn : Nat
  deriving DecidableEq, Repr

/-- The address of entry `i` of the node in frame `ppn`. -/
@[irreducible] def slot (ppn : Nat) (i : Fin 512) : Nat := wadd (shl ppn PAGE_SIZE_BITS) (8 * i)

/-- The entry at an address. -/
@[irreducible] def pte (mem : Mem) (addr : Nat) : PageTableEntry := ⟨read64 mem addr⟩

/-- The low nine bits of a number, as an index into a node. -/
def low9 (n : Nat) : Fin 512 := ⟨n &&& 0x1ff, Nat.lt_succ_of_le Nat.and_le_right⟩

/-- The indices of a virtual page number, one for each level. -/
def indices (vpn : Nat) : List (Fin 512) :=
  [low9 (vpn >>> 18), low9 (vpn >>> 9), low9 vpn]

/-- `PageTable::new`. -/
def PageTable.new : MmM (Option PageTable) := do
  match ← alloc_page with
  | none => return none
  | some root =>
    modify fun s => { s with mem := fill s.mem root PAGE_SIZE 0 }
    return some { root_ppn := root >>> PAGE_SIZE_BITS }

/-- The loop of `find_pte`: at the last level the entry itself is returned,
    above it the walk goes on in the frame the entry names. -/
def find_pte_from (mem : Mem) : Nat → List (Fin 512) → Option Nat
  | _, [] => none
  | ppn, [i] => if (pte mem (slot ppn i)).is_valid then some (slot ppn i) else none
  | ppn, i :: rest =>
    if (pte mem (slot ppn i)).is_valid then find_pte_from mem (pte mem (slot ppn i)).ppn rest
    else none

/-- `PageTable::find_pte`: the address of the entry for `vpn`, when valid. -/
def PageTable.find_pte (pt : PageTable) (mem : Mem) (vpn : Nat) : Option Nat :=
  find_pte_from mem pt.root_ppn (indices vpn)

/-- A valid entry for the next node, allocating it if there is none. -/
def child_create (addr : Nat) : MmM (Option Unit) := do
  if (pte (← get).mem addr).is_valid then
    return some ()
  match ← alloc_page with
  | none => return none
  | some page =>
    modify fun s => { s with mem := fill s.mem page PAGE_SIZE 0 }
    modify fun s => { s with
      mem := write64 s.mem addr (PageTableEntry.new (page >>> PAGE_SIZE_BITS) .V).bits }
    return some ()

/-- The loop of `find_pte_create`. -/
def find_pte_create_from : Nat → List (Fin 512) → MmM (Option Nat)
  | _, [] => return none
  | ppn, [i] => return some (slot ppn i)
  | ppn, i :: rest => do
    match ← child_create (slot ppn i) with
    | none => return none
    | some _ => find_pte_create_from (pte (← get).mem (slot ppn i)).ppn rest

/-- `PageTable::find_pte_create`: the address of the entry for `vpn`. -/
def PageTable.find_pte_create (pt : PageTable) (vpn : Nat) : MmM (Option Nat) :=
  find_pte_create_from pt.root_ppn (indices vpn)

/-- `PageTable::map`. -/
def PageTable.map (pt : PageTable) (va pa : Nat) (flags : PTEFlags) : MmM Unit := do
  let vpn := va >>> PAGE_SIZE_BITS
  let ppn := pa >>> PAGE_SIZE_BITS
  match ← pt.find_pte_create vpn with
  | none => throw (.panic "out of memory mapping page")
  | some addr =>
    if (pte (← get).mem addr).is_valid then
      throw (.panic "remap")
    modify fun s => { s with mem := write64 s.mem addr (PageTableEntry.new ppn flags.mapped).bits }

/-- `PageTable::unmap`. -/
def PageTable.unmap (pt : PageTable) (va : Nat) : MmM Unit := do
  let vpn := va >>> PAGE_SIZE_BITS
  match pt.find_pte (← get).mem vpn with
  | none => return ()
  | some addr => modify fun s => { s with mem := write64 s.mem addr PageTableEntry.empty.bits }

/-- `PageTable::translate`. -/
def PageTable.translate (pt : PageTable) (mem : Mem) (va : Nat) : Option Nat :=
  let vpn := va >>> PAGE_SIZE_BITS
  let offset := va &&& (PAGE_SIZE - 1)
  (pt.find_pte mem vpn).map fun addr => shl (pte mem addr).ppn PAGE_SIZE_BITS ||| offset

/-- `(lo..hi).step_by(PAGE_SIZE)`. -/
@[irreducible] def pages (lo hi : Nat) : List Nat :=
  (List.range ((hi - lo + (PAGE_SIZE - 1)) / PAGE_SIZE)).map fun k => lo + PAGE_SIZE * k

/-- The identity mappings of kernel and devices: the four loops that
    `Process::new`, `exec_process` and `clone_user_space` have in common. -/
def PageTable.identity_map (pt : PageTable) : MmM Unit := do
  (pages 0x8000_0000 0x8800_0000).forM fun addr => pt.map addr addr (.R ||| .W ||| .X)
  pt.map 0x1000_0000 0x1000_0000 (.R ||| .W)
  (pages 0x1000_1000 0x1000_9000).forM fun addr => pt.map addr addr (.R ||| .W)
  (pages 0x0c00_0000 0x0c20_0000).forM fun addr => pt.map addr addr (.R ||| .W)

/-- The body of `clone_user_space`'s inner loop: copy one page with the `U` flag. -/
def PageTable.clone_page (new_pt : PageTable) (ppn1 : Nat) (i j k : Fin 512) :
    MmM (Option Unit) := do
  let pte2 := pte (← get).mem (slot ppn1 k)
  if !pte2.is_valid then
    return some ()
  let flags := pte2.flags
  if !flags.contains .U then
    return some ()
  let vpn := (i.val <<< 18) ||| (j.val <<< 9) ||| k.val
  let va := shl vpn PAGE_SIZE_BITS
  let old_pa := shl pte2.ppn PAGE_SIZE_BITS
  match ← alloc_page with
  | none => return none
  | some new_pa =>
    modify fun s => { s with mem := copy s.mem new_pa old_pa PAGE_SIZE }
    new_pt.map va new_pa flags
    return some ()

/-- The middle loop of `clone_user_space`, in the node that slot `j` names. -/
def PageTable.clone_low (new_pt : PageTable) (ppn0 : Nat) (i j : Fin 512) :
    MmM (Option Unit) := do
  let pte1 := pte (← get).mem (slot ppn0 j)
  if !pte1.is_valid then
    return some ()
  Prog.each (fun k => new_pt.clone_page pte1.ppn i j k) (List.finRange 512)

/-- The outer loop of `clone_user_space`, in the node that slot `i` of the root names. -/
def PageTable.clone_mid (new_pt : PageTable) (root_ppn : Nat) (i : Fin 512) :
    MmM (Option Unit) := do
  let pte0 := pte (← get).mem (slot root_ppn i)
  if !pte0.is_valid then
    return some ()
  Prog.each (fun j => new_pt.clone_low pte0.ppn i j) (List.finRange 512)

/-- `PageTable::clone_user_space`. -/
def PageTable.clone_user_space (pt : PageTable) : MmM (Option PageTable) := do
  match ← PageTable.new with
  | none => return none
  | some new_pt =>
    new_pt.identity_map
    match ← Prog.each (fun i => new_pt.clone_mid pt.root_ppn i) (List.finRange 512) with
    | none => return none
    | some _ => return some new_pt

/-! ## Section 3: Nodes and leaves

    Frames below `2 ^ 52`, the bound on any frame number the allocator hands
    out, make every address below exact. -/

/-- The entry in slot `i` of the node in frame `f`. -/
@[irreducible] def entry (mem : Mem) (f : Nat) (i : Fin 512) : PageTableEntry := pte mem (4096 * f + 8 * i)

/-- The frame that slot `i` of the node in frame `f` names, if valid. -/
@[irreducible] def child (mem : Mem) (f : Nat) (i : Fin 512) : Option Nat :=
  if (entry mem f i).is_valid then some (entry mem f i).ppn else none

/-- The node of the table with root `r` at the end of the path `p`. -/
def node (mem : Mem) (r : Nat) (p : List (Fin 512)) : Option Nat := Radix.node (child mem) r p

/-- A virtual page: the three indices of its number. -/
structure Vpn where
  i : Fin 512
  j : Fin 512
  k : Fin 512
  deriving DecidableEq, Repr

/-- The virtual page of an address. -/
def Vpn.of (va : Nat) : Vpn :=
  ⟨low9 (va >>> PAGE_SIZE_BITS >>> 18), low9 (va >>> PAGE_SIZE_BITS >>> 9),
    low9 (va >>> PAGE_SIZE_BITS)⟩

/-- The valid last-level entry of a table for a virtual page. -/
@[irreducible] def leaf (mem : Mem) (r : Nat) (v : Vpn) : Option PageTableEntry :=
  (node mem r [v.i, v.j]).bind fun f =>
    if (entry mem f v.k).is_valid then some (entry mem f v.k) else none

theorem slot_eq {ppn : Nat} (h : ppn < 2 ^ 51) (i : Fin 512) : slot ppn i = 4096 * ppn + 8 * i := by
  have hi := i.isLt
  have hshl : shl ppn PAGE_SIZE_BITS = 4096 * ppn := by
    rw [shl, PAGE_SIZE_BITS, Nat.shiftLeft_eq, Nat.mul_comm, Nat.mod_eq_of_lt (by omega)]
  rw [slot, hshl, wadd_of_lt (by omega)]

theorem entry_eq_pte {f : Nat} (h : f < 2 ^ 51) (mem : Mem) (i : Fin 512) :
    pte mem (slot f i) = entry mem f i := by
  rw [entry, slot_eq h]

/-- Entries of a frame depend on the bytes of that frame only. -/
theorem entry_congr {m m' : Mem} {f : Nat} (h : ∀ a, 4096 * f ≤ a → a < 4096 * f + 4096 → m' a = m a)
    (i : Fin 512) : entry m' f i = entry m f i := by
  have hi := i.isLt
  have hread : read64 m' (4096 * f + 8 * i) = read64 m (4096 * f + 8 * i) :=
    read64_congr fun x h1 h2 => h x (by omega) (by omega)
  rw [entry, entry, pte, pte, hread]

/-- A store to one slot changes that slot and no other. -/
theorem entry_write (m : Mem) (f : Nat) (i : Fin 512) (e : PageTableEntry) (g : Nat) (j : Fin 512) :
    entry (write64 m (4096 * f + 8 * i) e.bits) g j = if g = f ∧ j = i then e else entry m g j := by
  have hi := i.isLt
  have hj := j.isLt
  unfold entry pte
  by_cases h : g = f ∧ j = i
  · obtain ⟨rfl, rfl⟩ := h
    simp
  · have hne : ¬ (g = f ∧ (j : Nat) = i) := fun hh => h ⟨hh.1, Fin.ext hh.2⟩
    rw [if_neg h, read64_write64_disjoint (by omega)]

end Rvos

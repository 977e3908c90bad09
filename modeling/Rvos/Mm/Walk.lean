import Rvos.Mm.Own

/-! # The hardware's page-table walk

    The kernel and the user program reach memory through the tables that
    `mm.rs` builds, but the walk is done by the processor (SV39), by its own
    rules: non-canonical addresses are refused, an entry with `R` or `X` is a
    leaf at any level, some entries are reserved.  `hw_walk_eq` shows that on
    well-formed tables it finds exactly the leaves. -/

namespace Rvos

open ByteMem Usize

/-- Bits 38 to 63 are all equal. -/
def canonical (va : Nat) : Bool := va < 2 ^ 38 || (2 ^ 64 - 2 ^ 38 ≤ va && va < 2 ^ 64)

namespace PageTableEntry

/-- A valid entry that is not reserved. -/
def usable (e : PageTableEntry) : Bool :=
  e.is_valid && !(e.flags.contains .W && !e.flags.contains .R) && e.ppn < 2 ^ 44

def isLeaf (e : PageTableEntry) : Bool := e.flags.contains .R || e.flags.contains .X

/-- The bits that must be clear in an entry that names a node. -/
def isInner (e : PageTableEntry) : Bool := !e.isLeaf && e.flags &&& (.A ||| .D ||| .U) == 0

end PageTableEntry

/-- The walk: the physical address and the flags of the leaf found. -/
def hw_walk (m : Mem) (root va : Nat) : Option (Nat × PTEFlags) :=
  let v := Vpn.of va
  let e2 := entry m root v.i
  if !canonical va || !e2.usable then none
  else if e2.isLeaf then
    -- a page of 1 GiB
    if e2.ppn % 2 ^ 18 = 0 then some (4096 * e2.ppn + va % 2 ^ 30, e2.flags) else none
  else if !e2.isInner then none
  else
    let e1 := entry m e2.ppn v.j
    if !e1.usable then none
    else if e1.isLeaf then
      -- a page of 2 MiB
      if e1.ppn % 2 ^ 9 = 0 then some (4096 * e1.ppn + va % 2 ^ 21, e1.flags) else none
    else if !e1.isInner then none
    else
      let e0 := entry m e1.ppn v.k
      if e0.usable && e0.isLeaf then some (4096 * e0.ppn + va % 4096, e0.flags) else none

/-- The flags permit a load, or a store. -/
def permits (write : Bool) (f : PTEFlags) : Bool :=
  f.contains .A && if write then f.contains .W && f.contains .D else f.contains .R

/-- The physical address of a kernel access; `sstatus.SUM` lets the kernel use
    user pages. -/
def hw_translate (m : Mem) (root : Nat) (write : Bool) (va : Nat) : Option Nat :=
  (hw_walk m root va).bind fun p => if permits write p.2 then some p.1 else none

/-- The physical address of a user access. -/
def user_translate (m : Mem) (root : Nat) (write : Bool) (va : Nat) : Option Nat :=
  (hw_walk m root va).bind fun p =>
    if permits write p.2 && p.2.contains .U then some p.1 else none

/-- Only canonical addresses are translated. -/
theorem canonical_of_translate {m : Mem} {root va : Nat} {w : Bool}
    (h : hw_translate m root w va ≠ none) : canonical va = true := by
  by_contra hc
  refine h ?_
  unfold hw_translate hw_walk
  simp [hc]

/-- The entry with flags `V` alone names a node. -/
theorem inner_of_flags {e : PageTableEntry} (h : e.flags = .V) (hppn : e.ppn < 2 ^ 44) :
    e.usable = true ∧ e.isLeaf = false ∧ e.isInner = true := by
  have hflags : (PTEFlags.V).contains .V = true ∧ (PTEFlags.V).contains .W = false ∧
      (PTEFlags.V).contains .R = false ∧ (PTEFlags.V).contains .X = false ∧
      PTEFlags.V &&& (.A ||| .D ||| .U) = 0#8 := by decide
  obtain ⟨hV, hW, hR, hX, hADU⟩ := hflags
  simp [PageTableEntry.usable, PageTableEntry.isLeaf, PageTableEntry.isInner,
    PageTableEntry.is_valid, h, hV, hW, hR, hX, hADU]
  omega

/-- The walk on well-formed tables. -/
theorem hw_walk_eq {s : Mm} {R : Set Nat} (ht : Tables s R) {r : Nat} (hr : r ∈ R) (va : Nat) :
    hw_walk s.mem r va =
      if canonical va then
        (leaf s.mem r (Vpn.of va)).bind fun e =>
          if e.usable && e.isLeaf then some (4096 * e.ppn + va % 4096, e.flags) else none
      else none := by
  unfold hw_walk
  by_cases hc : canonical va = true
  · have hroot : node s.mem r [] = some r := rfl
    simp only [hc, Bool.not_true, Bool.false_or, if_true]
    -- an invalid inner entry: nothing below it
    have hdead : ∀ e : PageTableEntry, e.is_valid = false → e.usable = false := by
      intro e he
      simp [PageTableEntry.usable, he]
    by_cases h2 : (entry s.mem r (Vpn.of va).i).is_valid = true
    · have hn1 := node_child hroot h2
      have hs1 := ht.small hr (by simp) hn1
      have hb1 := ht.below r hr _ _ (by simp) hn1
      have hle := ht.ok.le_end
      have hend := ht.ok.end_le
      obtain ⟨hu2, hl2, hi2⟩ := inner_of_flags (ht.inner r hr [] r (by simp) hroot _ h2) (by omega)
      simp only [hu2, hl2, hi2, Bool.not_true, Bool.false_eq_true, if_false]
      by_cases h1 : (entry s.mem (entry s.mem r (Vpn.of va).i).ppn (Vpn.of va).j).is_valid = true
      · have hn0 := node_child hn1 h1
        have hb0 := ht.below r hr _ _ (by simp) hn0
        obtain ⟨hu1, hl1, hi1⟩ := inner_of_flags (ht.inner r hr _ _ (by simp) hn1 _ h1) (by omega)
        simp only [hu1, hl1, hi1, Bool.not_true, Bool.false_eq_true, if_false]
        rw [leaf, show node s.mem r [(Vpn.of va).i, (Vpn.of va).j] = _ from hn0, Option.bind_some]
        generalize entry s.mem _ (Vpn.of va).k = e
        by_cases h0 : e.is_valid = true
        · simp [h0]
        · have h0' : e.is_valid = false := by simpa using h0
          simp [h0', hdead e h0']
      · have h1' := Bool.eq_false_iff.mpr h1
        have hnone : node s.mem r [(Vpn.of va).i, (Vpn.of va).j] = none := node_dead hn1 h1' []
        rw [leaf, hnone]
        simp [hdead _ h1']
    · have h2' := Bool.eq_false_iff.mpr h2
      have hnone : node s.mem r [(Vpn.of va).i, (Vpn.of va).j] = none := node_dead hroot h2' _
      rw [leaf, hnone]
      simp [hdead _ h2']
  · simp [hc]

/-- The table in frame 1 maps the user page 0 to frame 4, for reading and writing. -/
def onePage : Mem :=
  write64 (write64 (write64 (fun _ => 0) 4096 (PageTableEntry.new 2 .V).bits)
    8192 (PageTableEntry.new 3 .V).bits)
    12288 (PageTableEntry.new 4 (.V ||| .R ||| .W ||| .U ||| .A ||| .D)).bits

/-- With these tables, whatever the frames above them hold, page 0 is frame 4. -/
theorem onePage_translate {m : Mem} (hm : ∀ a, a < 16384 → m a = onePage a) {va : Nat} (hva : va < 4096)
    (write : Bool) : hw_translate m 1 write va = some (16384 + va) := by
  have hshift : va >>> PAGE_SIZE_BITS = 0 := by
    rw [Nat.shiftRight_eq_div_pow]
    exact Nat.div_eq_of_lt hva
  have hv : Vpn.of va = ⟨0, 0, 0⟩ := by
    unfold Vpn.of
    rw [hshift]
    decide
  have hentry : ∀ f, f < 4 → entry m f 0 = entry onePage f 0 := fun f hf =>
    entry_congr (fun a _ ha => hm a (by omega)) 0
  have hc : canonical va = true := by
    simp only [canonical, Bool.or_eq_true, decide_eq_true_eq]
    omega
  -- two nodes on the way, then the leaf
  obtain ⟨hu2, hl2, hi2, hp2⟩ : (entry onePage 1 0).usable = true ∧ (entry onePage 1 0).isLeaf = false ∧
      (entry onePage 1 0).isInner = true ∧ (entry onePage 1 0).ppn = 2 := by
    decide +kernel
  obtain ⟨hu1, hl1, hi1, hp1⟩ : (entry onePage 2 0).usable = true ∧ (entry onePage 2 0).isLeaf = false ∧
      (entry onePage 2 0).isInner = true ∧ (entry onePage 2 0).ppn = 3 := by
    decide +kernel
  obtain ⟨hu0, hl0, hp0, hflags⟩ : (entry onePage 3 0).usable = true ∧ (entry onePage 3 0).isLeaf = true ∧
      (entry onePage 3 0).ppn = 4 ∧ ∀ w, permits w (entry onePage 3 0).flags = true := by
    decide +kernel
  have hwalk : hw_walk m 1 va = some (4096 * 4 + va, (entry onePage 3 0).flags) := by
    unfold hw_walk
    simp [hv, hc, hentry, hu2, hl2, hi2, hp2, hu1, hl1, hi1, hp1, hu0, hl0, hp0, Nat.mod_eq_of_lt hva]
  unfold hw_translate
  rw [hwalk, Option.bind_some, if_pos (hflags write)]

end Rvos

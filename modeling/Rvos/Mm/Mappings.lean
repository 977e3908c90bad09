import Rvos.Mm.Tables

/-! # What a page table maps

    A page table is for one thing: to be a finite map from virtual pages to
    frames and flags.  This module says so for any number of tables in one
    memory.  The abstract side is `lastMapping`, the last `map` or `unmap` of a
    key in the history of one table; the concrete side is the memory, walked by
    `translate`.

    * `Shared`, `TableStep` : tables, and what may happen to the memory they
      are in.  Other code takes frames and writes wherever no node is.
    * `Refines`             : the simulation relation.
    * `page_tables_refine`  : the refinement, over every run. -/

namespace Rvos

open ByteMem Usize

/-! ## Section 1: Keys -/

/-- The key of an address: its virtual page number, in the 27 bits the three
    levels look at. -/
def key (va : Nat) : Nat := (va >>> PAGE_SIZE_BITS) % 2 ^ 27

/-- The key spelled by three indices. -/
def Vpn.key (v : Vpn) : Nat := 2 ^ 18 * v.i.val + 2 ^ 9 * v.j.val + v.k.val

theorem low9_val (n : Nat) : (low9 n).val = n % 512 := by
  show n &&& (2 ^ 9 - 1) = n % 2 ^ 9
  exact and_low n 9

theorem Vpn.key_of (va : Nat) : (Vpn.of va).key = Rvos.key va := by
  simp only [Vpn.key, Vpn.of, Rvos.key, low9_val, Nat.shiftRight_eq_div_pow, PAGE_SIZE_BITS]
  omega

theorem Vpn.key_inj {v w : Vpn} (h : v.key = w.key) : v = w := by
  obtain ⟨i, j, k⟩ := v
  obtain ⟨i', j', k'⟩ := w
  have hi := i.isLt
  have hj := j.isLt
  have hk := k.isLt
  have hi' := i'.isLt
  have hj' := j'.isLt
  have hk' := k'.isLt
  simp only [Vpn.key] at h
  have h1 : (i : Nat) = i' := by omega
  have h2 : (j : Nat) = j' := by omega
  have h3 : (k : Nat) = k' := by omega
  simp [Fin.ext_iff, h1, h2, h3]

/-! ## Section 2: Tables in a shared memory -/

/-- Physical memory with the tables created in it so far. -/
structure Shared where
  mm : Mm
  tables : List PageTable

inductive TableOp where
  | new
  | map (t : Nat) (va pa : Word) (flags : PTEFlags)
  | unmap (t : Nat) (va : Word)
  /-- Other code takes a frame. -/
  | frame
  /-- Other code writes a byte. -/
  | write (addr : Nat) (b : UInt8)

def Shared.boot (kernel_end : Nat) (mem : Mem) : Shared where
  mm := { mem := mem, pages := init kernel_end }
  tables := []

/-- The roots of the tables. -/
def Shared.roots (s : Shared) : Set Nat := { r | ∃ pt ∈ s.tables, pt.root_ppn = r }

/-- The address lies in a node of one of the tables. -/
def Shared.InNode (s : Shared) (addr : Nat) : Prop :=
  ∃ r ∈ s.roots, ∃ p f, p.length ≤ 2 ∧ node s.mm.mem r p = some f ∧
    4096 * f ≤ addr ∧ addr < 4096 * f + 4096

/-- The operations that return; a panic ends the run. -/
inductive TableStep : Shared → TableOp → Shared → Prop where
  | new {s : Shared} {pt : PageTable} {mm : Mm} (h : PageTable.new s.mm = .ok (some pt) mm) :
      TableStep s .new { mm := mm, tables := s.tables ++ [pt] }
  | new_none {s : Shared} {mm : Mm} (h : PageTable.new s.mm = .ok none mm) :
      TableStep s .new { s with mm := mm }
  | map {s : Shared} {t : Nat} {pt : PageTable} {va pa : Word} {flags : PTEFlags} {mm : Mm}
      (ht : s.tables[t]? = some pt) (h : pt.map va.toNat pa.toNat flags s.mm = .ok () mm) :
      TableStep s (.map t va pa flags) { s with mm := mm }
  | unmap {s : Shared} {t : Nat} {pt : PageTable} {va : Word} {mm : Mm}
      (ht : s.tables[t]? = some pt) (h : pt.unmap va.toNat s.mm = .ok () mm) :
      TableStep s (.unmap t va) { s with mm := mm }
  | frame {s : Shared} {o : Option Nat} {mm : Mm} (h : alloc_page s.mm = .ok o mm) :
      TableStep s .frame { s with mm := mm }
  | write {s : Shared} {addr : Nat} {b : UInt8} (h : ¬ s.InNode addr) :
      TableStep s (.write addr b) { s with mm := { s.mm with mem := fill s.mm.mem addr 1 b } }

/-! ## Section 3: The abstract map -/

/-- What an operation does to the entry of key `k` in table `t`. -/
def TableOp.effect (t k : Nat) (old : Option (Word × PTEFlags)) :
    TableOp → Option (Word × PTEFlags)
  | .map t' va pa flags => if t' = t ∧ key va.toNat = k then some (pa, flags) else old
  | .unmap t' va => if t' = t ∧ key va.toNat = k then none else old
  | .new | .frame | .write .. => old

/-- The last `map` of key `k` in table `t`, unless an `unmap` came after it. -/
def lastMapping (ops : List TableOp) (t k : Nat) : Option (Word × PTEFlags) :=
  ops.foldl (fun old op => op.effect t k old) none

theorem lastMapping_snoc (ops : List TableOp) (op : TableOp) (t k : Nat) :
    lastMapping (ops ++ [op]) t k = op.effect t k (lastMapping ops t k) := by
  simp [lastMapping]

/-- The entry `map` writes for a physical address and flags. -/
def mappedEntry (m : Word × PTEFlags) : PageTableEntry :=
  PageTableEntry.new (m.1.toNat >>> PAGE_SIZE_BITS) m.2.mapped

/-- The simulation relation: the leaves of table `t` are the abstract map. -/
structure Refines (ops : List TableOp) (s : Shared) : Prop where
  tables : Tables s.mm s.roots
  distinct : (s.tables.map PageTable.root_ppn).Nodup
  leaves : ∀ t pt, s.tables[t]? = some pt → ∀ v : Vpn,
    leaf s.mm.mem pt.root_ppn v = (lastMapping ops t v.key).map mappedEntry
  unborn : ∀ t, s.tables.length ≤ t → ∀ k, lastMapping ops t k = none

/-! ## Section 4: Every step keeps the refinement -/

section Step

variable {ops : List TableOp} {s : Shared}

theorem Shared.root_mem {t : Nat} {pt : PageTable} (h : s.tables[t]? = some pt) :
    pt.root_ppn ∈ s.roots :=
  ⟨pt, List.mem_of_getElem? h, rfl⟩

/-- Tables at different positions have different roots. -/
theorem Refines.index_eq (h : Refines ops s) {t t' : Nat} {pt pt' : PageTable}
    (ht : s.tables[t]? = some pt) (ht' : s.tables[t']? = some pt')
    (hroot : pt.root_ppn = pt'.root_ppn) : t = t' := by
  have h1 : (s.tables.map PageTable.root_ppn)[t]? = some pt.root_ppn := by simp [ht]
  have h2 : (s.tables.map PageTable.root_ppn)[t']? = some pt.root_ppn := by simp [ht', hroot]
  have hlt : t < (s.tables.map PageTable.root_ppn).length := (List.getElem?_eq_some_iff.mp h1).1
  exact (List.getElem?_inj hlt h.distinct).mp (h1.trans h2.symm)

/-- A step that keeps the tables and no key's history. -/
theorem Refines.keep (h : Refines ops s) {op : TableOp} {mm : Mm}
    (hop : ∀ t k old, op.effect t k old = old) (htables : Tables mm s.roots)
    (hleaf : ∀ r ∈ s.roots, ∀ v, leaf mm.mem r v = leaf s.mm.mem r v) :
    Refines (ops ++ [op]) { s with mm := mm } where
  tables := htables
  distinct := h.distinct
  leaves := by
    intro t pt ht v
    rw [hleaf _ (Shared.root_mem ht), lastMapping_snoc, hop]
    exact h.leaves t pt ht v
  unborn := fun t ht k => by rw [lastMapping_snoc, hop]; exact h.unborn t ht k

/-- A step that sets the entry of one key in one table. -/
theorem Refines.set (h : Refines ops s) {op : TableOp} {mm : Mm} {t : Nat} {pt : PageTable}
    {va : Word} {new : Option (Word × PTEFlags)} (ht : s.tables[t]? = some pt)
    (hop : ∀ t' k old, op.effect t' k old = if t = t' ∧ key va.toNat = k then new else old)
    (htables : Tables mm s.roots)
    (hleaf : ∀ r ∈ s.roots, ∀ v, leaf mm.mem r v =
      if r = pt.root_ppn ∧ v = Vpn.of va.toNat then new.map mappedEntry
      else leaf s.mm.mem r v) :
    Refines (ops ++ [op]) { s with mm := mm } where
  tables := htables
  distinct := h.distinct
  leaves := by
    intro t' pt' ht' v
    rw [hleaf _ (Shared.root_mem ht'), lastMapping_snoc, hop]
    -- the same root is the same table, the same leaf is the same key
    have hiff : (pt'.root_ppn = pt.root_ppn ∧ v = Vpn.of va.toNat) ↔
        (t = t' ∧ key va.toNat = v.key) := by
      constructor
      · rintro ⟨hroot, rfl⟩
        exact ⟨h.index_eq ht ht' hroot.symm, (Vpn.key_of _).symm⟩
      · rintro ⟨rfl, hkey⟩
        rw [ht] at ht'
        cases ht'
        exact ⟨rfl, Vpn.key_inj (hkey.symm.trans (Vpn.key_of _).symm)⟩
    by_cases hhere : t = t' ∧ key va.toNat = v.key
    · rw [if_pos (hiff.mpr hhere), if_pos hhere]
    · rw [if_neg (mt hiff.mp hhere), if_neg hhere]
      exact h.leaves t' pt' ht' v
  unborn := by
    intro t' ht' k
    have hlt : t < s.tables.length := (List.getElem?_eq_some_iff.mp ht).1
    have hlen : s.tables.length ≤ t' := ht'
    rw [lastMapping_snoc, hop, if_neg (by omega)]
    exact h.unborn t' ht' k

theorem refines_new (h : Refines ops s)
    (hroom : s.mm.pages.current + 4096 ≤ s.mm.pages.end_) :
    Refines (ops ++ [.new]) { mm := s.mm.take, tables := s.tables ++ [⟨s.mm.next⟩] } := by
  obtain ⟨htables, hempty⟩ := tables_new h.tables hroom
  have hfresh : s.mm.next ∉ s.roots := fun hr => h.tables.fresh hr (p := []) (by simp) rfl
  have hsnoc : ∀ t k, lastMapping (ops ++ [.new]) t k = lastMapping ops t k := fun t k =>
    lastMapping_snoc ops .new t k
  refine ⟨htables.mono ?_, ?_, ?_, ?_⟩
  · rintro r ⟨pt, hpt, rfl⟩
    rcases List.mem_append.mp hpt with hpt | hpt
    · exact Or.inr ⟨pt, hpt, rfl⟩
    · exact Or.inl (by simp_all)
  · rw [List.map_append, List.nodup_append]
    refine ⟨h.distinct, by simp, ?_⟩
    rintro r hr r' hr' rfl
    obtain ⟨pt, hpt, rfl⟩ := List.mem_map.mp hr
    exact hfresh ⟨pt, hpt, by simpa using hr'⟩
  · intro t pt ht v
    rw [hsnoc]
    rcases Nat.lt_or_ge t s.tables.length with hlt | hge
    · rw [List.getElem?_append_left hlt] at ht
      rw [leaf_of_same (same_take h.tables (Shared.root_mem ht))]
      exact h.leaves t pt ht v
    · rw [List.getElem?_append_right hge] at ht
      obtain rfl : (⟨s.mm.next⟩ : PageTable) = pt := by
        have := List.mem_of_getElem? ht
        simpa [eq_comm] using this
      rw [hempty, h.unborn t hge]
      rfl
  · intro t ht k
    rw [hsnoc]
    refine h.unborn t ?_ k
    simp at ht
    omega

/-- **Step lemma**: every operation keeps the refinement. -/
theorem refines_step {op : TableOp} {s' : Shared} (h : Refines ops s)
    (hstep : TableStep s op s') : Refines (ops ++ [op]) s' := by
  cases hstep with
  | new hrun =>
    rcases PageTable.new_cases h.tables.ok with ⟨hroom, heq⟩ | ⟨-, heq⟩
    · rw [heq] at hrun
      simp only [EStateM.Result.ok.injEq, Option.some.injEq] at hrun
      obtain ⟨rfl, rfl⟩ := hrun
      exact refines_new h hroom
    · rw [heq] at hrun
      cases hrun
  | new_none hrun =>
    rcases PageTable.new_cases h.tables.ok with ⟨-, heq⟩ | ⟨-, heq⟩
    · rw [heq] at hrun
      cases hrun
    · rw [heq] at hrun
      obtain ⟨-, rfl⟩ := EStateM.Result.ok.inj hrun
      exact h.keep (fun _ _ _ => rfl) h.tables fun _ _ _ => rfl
  | map ht hrun =>
    have hm := map_spec h.tables (Shared.root_mem ht) (BitVec.isLt _) hrun
    exact h.set ht (fun _ _ _ => rfl) hm.grows.tables hm.leaves
  | @unmap t pt va mm ht hrun =>
    obtain ⟨s', heq, hgrow, hleaf⟩ := unmap_spec h.tables (Shared.root_mem ht) va.toNat
    obtain ⟨-, rfl⟩ := EStateM.Result.ok.inj (heq.symm.trans hrun)
    exact h.set ht (fun _ _ _ => rfl) hgrow.tables hleaf
  | frame hrun =>
    rcases alloc_page_cases h.tables.ok with ⟨hroom, heq⟩ | ⟨-, heq⟩
    · obtain ⟨-, rfl⟩ := EStateM.Result.ok.inj (heq.symm.trans hrun)
      exact h.keep (fun _ _ _ => rfl) (tables_take h.tables hroom)
        fun r hr => leaf_of_same (same_take h.tables hr)
    · obtain ⟨-, rfl⟩ := EStateM.Result.ok.inj (heq.symm.trans hrun)
      exact h.keep (fun _ _ _ => rfl) h.tables fun _ _ _ => rfl
  | @write addr b hout =>
    have hsame : ∀ r ∈ s.roots, SameEntries s.mm.mem (fill s.mm.mem addr 1 b) r 2 := by
      intro r hr p f hp hf i
      refine entry_congr (fun a h1 h2 => fill_out ?_) i
      have hne : a ≠ addr := fun ha => hout ⟨r, hr, p, f, hp, hf, ha ▸ h1, ha ▸ h2⟩
      omega
    have hok := h.tables.ok
    exact h.keep (fun _ _ _ => rfl)
      (h.tables.transport ⟨hok.aligned, hok.le_end, hok.end_le⟩ (Nat.le_refl _)
        fun r hr => (hsame r hr).shallow (by omega))
      fun r hr => leaf_of_same (hsame r hr)

end Step

/-! ## Section 5: The refinement -/

theorem refines_boot {kernel_end : Nat} (h : kernel_end ≤ 0x8800_0000) (mem : Mem) :
    Refines [] (Shared.boot kernel_end mem) := by
  have hcur : (init kernel_end).current = (kernel_end + 4095) / 4096 * 4096 :=
    init_current (by omega)
  have hok : (Shared.boot kernel_end mem).mm.Ok := by
    refine ⟨⟨(kernel_end + 4095) / 4096, ?_⟩, ?_, Nat.le_refl _⟩
    · rw [Nat.mul_comm]
      exact hcur
    · show (init kernel_end).current ≤ 0x8800_0000
      omega
  have hroots : ∀ r, r ∉ (Shared.boot kernel_end mem).roots := by
    rintro r ⟨pt, hpt, -⟩
    cases hpt
  exact ⟨⟨hok, fun r hr => absurd hr (hroots r), fun r hr => absurd hr (hroots r),
      fun r hr => absurd hr (hroots r)⟩,
    List.nodup_nil, fun t pt ht => by simp [Shared.boot] at ht, fun _ _ _ => rfl⟩

/-- The address a mapping of `pa` gives to an address at the offset of `va`. -/
theorem translated_address (pa va : Word) (flags : PTEFlags) :
    shl (mappedEntry (pa, flags)).ppn PAGE_SIZE_BITS ||| (va.toNat &&& (PAGE_SIZE - 1)) =
      ((pa &&& ~~~0xfff#64) ||| (va &&& 0xfff#64)).toNat := by
  have hpa := pa.isLt
  have hppn : pa.toNat >>> PAGE_SIZE_BITS = pa.toNat / 2 ^ 12 := Nat.shiftRight_eq_div_pow _ _
  have hmask : (~~~0xfff#64).toNat = bnot (2 ^ 12 - 1) := by rw [bnot]; decide
  have hshl : shl (pa.toNat / 2 ^ 12) PAGE_SIZE_BITS = pa.toNat / 2 ^ 12 * 2 ^ 12 := by
    rw [shl, Nat.shiftLeft_eq, PAGE_SIZE_BITS, Nat.mod_eq_of_lt (by omega)]
  rw [mappedEntry, PageTableEntry.new_ppn (by rw [hppn]; omega), hppn, hshl, BitVec.toNat_or,
    BitVec.toNat_and, BitVec.toNat_and, hmask, and_bnot_eq_div_mul hpa (by omega)]
  rfl

/-- **Page tables are finite maps.**  After any operations on any tables in one
    memory, `translate` answers by the last operation on the key of its address,
    the leaf's flags are those of that operation with `V`, `A` and `D`, and
    `map` panics with "remap" exactly where `translate` has an answer. -/
theorem page_tables_refine (kernel_end : Nat) (hk : kernel_end ≤ 0x8800_0000) (mem : Mem)
    (ops : List TableOp) (s : Shared)
    (hrun : LTS.Steps TableStep (Shared.boot kernel_end mem) ops s)
    (t : Nat) (pt : PageTable) (ht : s.tables[t]? = some pt) (va : Word) :
    (∀ pa flags, lastMapping ops t (key va.toNat) = some (pa, flags) →
      pt.translate s.mm.mem va.toNat = some ((pa &&& ~~~0xfff#64) ||| (va &&& 0xfff#64)).toNat ∧
      (pt.find_pte s.mm.mem (va.toNat >>> PAGE_SIZE_BITS)).map (fun a => (pte s.mm.mem a).flags) =
        some (flags ||| .V ||| .A ||| .D)) ∧
    (lastMapping ops t (key va.toNat) = none → pt.translate s.mm.mem va.toNat = none) ∧
    (∀ (pa : Word) (flags : PTEFlags),
      (∃ mm, pt.map va.toNat pa.toNat flags s.mm = .error (.panic "remap") mm) ↔
        (pt.translate s.mm.mem va.toNat).isSome) := by
  have href : Refines ops s := hrun.history Refines (fun _ _ _ _ h hs => refines_step h hs)
    (refines_boot hk mem)
  have hroot := Shared.root_mem ht
  have hleaf := href.leaves t pt ht (Vpn.of va.toNat)
  rw [Vpn.key_of] at hleaf
  have htrans := translate_eq href.tables hroot va.toNat
  refine ⟨?_, ?_, ?_⟩
  · intro pa flags hlast
    rw [hlast, Option.map_some] at hleaf
    refine ⟨?_, ?_⟩
    · rw [htrans, hleaf, Option.map_some, translated_address]
    · have hfind := find_pte_leaf href.tables hroot va.toNat
      have hppn : pa.toNat >>> PAGE_SIZE_BITS < 2 ^ 54 := by
        have := pa.isLt
        rw [Nat.shiftRight_eq_div_pow, PAGE_SIZE_BITS]
        omega
      have hflags := congrArg (Option.map PageTableEntry.flags) (hfind.trans hleaf)
      rw [Option.map_map, Option.map_some, mappedEntry, PageTableEntry.new_flags hppn] at hflags
      exact hflags
  · intro hlast
    rw [htrans, hleaf, hlast]
    rfl
  · intro pa flags
    rw [htrans, Option.isSome_map]
    constructor
    · rintro ⟨mm, herr⟩
      rcases map_panic href.tables hroot herr with ⟨-, hsome⟩ | ⟨hmsg, -⟩
      · exact hsome
      · simp at hmsg
    · intro hsome
      cases hmap : pt.map va.toNat pa.toNat flags s.mm with
      | ok _ mm =>
        have hm := map_spec href.tables hroot pa.isLt hmap
        simp [hm.was] at hsome
      | error e mm =>
        rcases map_panic href.tables hroot hmap with ⟨rfl, -⟩ | ⟨-, hnone, -⟩
        · exact ⟨mm, rfl⟩
        · simp [hnone] at hsome

/-- One table with one page: `0x1234` translates into the frame it was mapped to. -/
theorem page_tables_refine_one_page :
    ∃ s pt, LTS.Steps TableStep (Shared.boot 0x8020_0000 fun _ => 0)
        [.new, .map 0 0x1234#64 0x8030_0567#64 (.U ||| .R)] s ∧
      s.tables[0]? = some pt ∧ pt.translate s.mm.mem 0x1234 = some 0x8030_0234 := by
  let b := Shared.boot 0x8020_0000 fun _ => 0
  have href : Refines [] b := refines_boot (by decide) _
  have hcur : b.mm.pages.current = 0x8020_0000 := by decide +kernel
  have hend : b.mm.pages.end_ = 0x8800_0000 := rfl
  have hnew : PageTable.new b.mm = .ok (some ⟨b.mm.next⟩) b.mm.take := by
    rcases PageTable.new_cases href.tables.ok with ⟨-, h⟩ | ⟨h, -⟩
    · exact h
    · omega
  obtain ⟨htables, hempty⟩ := tables_new href.tables (by omega)
  obtain ⟨mm, hmap⟩ := map_returns htables (Set.mem_insert _ _) 0x8030_0567
    (.U ||| .R) (hempty (Vpn.of 0x1234)) (Or.inr (show b.mm.pages.current + 4096 + 2 * 4096 ≤ b.mm.pages.end_ by
      omega))
  have hsteps : LTS.Steps TableStep b [.new, .map 0 0x1234#64 0x8030_0567#64 (.U ||| .R)]
      { mm := mm, tables := [⟨b.mm.next⟩] } :=
    LTS.Steps.snoc _ (LTS.Steps.single (TableStep.new hnew)) (TableStep.map rfl hmap)
  refine ⟨_, _, hsteps, rfl, ?_⟩
  exact ((page_tables_refine 0x8020_0000 (by decide) (fun _ => 0) _ _ hsteps 0 _ rfl
    0x1234#64).1 0x8030_0567#64 (.U ||| .R) (by decide)).1

end Rvos

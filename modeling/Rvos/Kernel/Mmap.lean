import Rvos.Kernel.Brk
import Rvos.Kernel.Image
import Rvos.Lib.Stores

/-! # Mapping memory

    `sys_mmap` maps the missing pages of its range, as `sys_brk` does, and then
    writes zeros, and the bytes of the file, to the addresses of the range.  It
    does so by plain stores under the page table of the process: what is there,
    and what the protection asked for permits, decides where they go.

    * `user_store_iff` : where a store reaches user memory.
    * `mmap_stores_iff` : all stores of a call reach user memory just if every
      byte of the range is user memory that can be written, or in a page that
      the loop gets to and that the protection lets the kernel write to.
    * `mmap_fresh_iff` : a mapping at the base takes new pages only, just if the
      pages there are free and its length can be rounded up. -/

namespace Rvos

open Access ByteMem Usize Trie

/-! ## Section 1: Stores to user memory -/

/-- A store at this address goes to a page that is mapped for the user and can be
    written. -/
def UserStore (root : Nat) (m : Mem) (va : Nat) : Prop := user_translate m root true va ≠ none

namespace PTEFlags

theorem mapped_sets : ∀ f : PTEFlags, f.mapped = f →
    f.contains .V = true ∧ f.contains .A = true ∧ f.contains .D = true := by decide +kernel

end PTEFlags

section Stores

variable {k : Kernel}

theorem user_store_iff (h : k.Inv) (va : Nat) :
    UserStore k.satp k.mm.mem va ↔ canonical va = true ∧ UserWritable k.mm.mem k.satp va := by
  unfold UserStore user_translate UserWritable
  rw [hw_walk_eq h.spaces.own.tables h.root_mem]
  by_cases hcanon : canonical va = true
  · rw [if_pos hcanon]
    cases he : leaf k.mm.mem k.satp (Vpn.of va) with
    | none => simp
    | some e =>
      simp only [Option.bind_some, hcanon, true_and, Option.some.injEq, exists_eq_left']
      constructor
      · intro hne
        by_cases husable : (e.usable && e.isLeaf) = true
        · rw [if_pos husable, Option.bind_some] at hne
          by_cases hperm : (permits true e.flags && e.flags.contains .U) = true
          · simp only [PageTableEntry.usable, permits, Bool.and_eq_true, Bool.not_eq_true',
              Bool.and_eq_false_iff, if_true] at husable hperm
            refine ⟨hperm.2, ?_, hperm.1.2.1⟩
            -- an entry that permits stores only is reserved
            rcases husable.1.1.2 with hW | hR
            · rw [hperm.1.2.1] at hW
              cases hW
            · simpa using hR
          · exact absurd (if_neg hperm) hne
        · rw [if_neg husable] at hne
          exact absurd rfl hne
      · rintro ⟨hU, hR, hW⟩
        have huser : userLeaf k.mm.mem k.satp (Vpn.of va) = some e := by
          unfold userLeaf
          rw [he]
          simp [Option.filter, hU]
        obtain ⟨hV, hA, hD⟩ := PTEFlags.mapped_sets e.flags
          (h.flags k.satp h.root_mem (Vpn.of va) e huser)
        have hbelow := h.spaces.own.user_below k.satp h.root_mem (Vpn.of va) e.ppn ⟨e, huser, rfl⟩
        have hle := h.spaces.own.tables.ok.le_end
        have hend := h.spaces.own.tables.ok.end_le
        have hsmall : e.ppn < 17592186044416 := by omega
        simp [PageTableEntry.usable, PageTableEntry.isLeaf, PageTableEntry.is_valid, permits,
          hU, hR, hW, hV, hA, hD, hsmall]
  · simp [hcanon]

/-- A store to user memory is permitted to the kernel as well. -/
theorem UserStore.permitted {root va : Nat} {m : Mem} (h : UserStore root m va) :
    (machine root).tr m true va ≠ none := by
  obtain ⟨a, ha⟩ := Option.ne_none_iff_exists'.mp h
  obtain ⟨p, hp, hif⟩ := Option.bind_eq_some_iff.mp ha
  split at hif
  · next hperm =>
    rw [Bool.and_eq_true] at hperm
    have htr : hw_translate m root true va = some p.1 := by
      unfold hw_translate
      rw [hp, Option.bind_some, if_pos hperm.1]
    show hw_translate m root true va ≠ none
    rw [htr]
    simp
  · cases hif

/-- **Bytes stored in a row** by the kernel, after stores to memory of the current
    process only. -/
theorem storeBytes_user (h : k.Inv) {s : St HeapAllocator Io}
    (hm : ∀ a, s.mem a ≠ k.mm.mem a → k.Mine a) (start : Nat) (bs : List UInt8) :
    StoresOk (machine k.satp) (UserStore k.satp) (Code.storeBytes (user start) bs : IoM Unit) s ↔
      ∀ q ∈ (user start).span bs.length, UserStore k.satp k.mm.mem q.addr := by
  have hwalk : ∀ m va, AgreeOff {a | k.Mine a} m k.mm.mem →
      hw_walk m k.satp va = hw_walk k.mm.mem k.satp va :=
    fun m va hag => h.walk_same (agreeOff_iff.mp hag) va
  refine storesOk_storeBytes (W := {a | k.Mine a}) (fun m va hgood => hgood.permitted) ?_ ?_ rfl
    (agreeOff_iff.mpr hm)
  · intro m va hag
    unfold UserStore user_translate
    rw [hwalk m va hag]
  · intro m va a hag hgood ha
    have hside : k.StoreOk (user va) := by
      intro e he
      obtain ⟨-, e', he', hU, -⟩ := (user_store_iff h va).mp hgood
      cases he.symm.trans he'
      exact hU
    exact h.store_mine (agreeOff_iff.mp hag) hside ha

end Stores

/-! ## Section 2: What the call stores -/

/-- The pages that `sys_mmap` goes through. -/
def Kernel.mmap_pages (k : Kernel) (addr len : Nat) (flags : Int) : List Nat :=
  (pages 0 (pageUp len)).map fun page => wadd (k.mmap_at addr flags) page

/-- A descriptor backs the mapping. -/
def Backed (flags fd : Int) : Prop := ofIsize flags &&& 0x20 = 0 ∧ fd ≥ 0

/-- Every byte that `sys_mmap` stores, once it has gone through the pages, is at an
    address that is mapped at that moment for the user, to be written. -/
def Kernel.MmapStoresOk (k : Kernel) (addr len : Nat) (prot flags fd : Int) (offset : Nat) : Prop :=
  ∀ mm, fill_loop k.satp (prot_flags prot) (k.mmap_pages addr len flags) k.mm = .ok ⟨⟩ mm →
    StoresOk (machine k.satp) (UserStore k.satp)
      (mmap_fill (k.mmap_at addr flags) len (pageUp len) flags fd offset) { k with mm := mm }.view

/-- The range of `sys_mmap` can be filled: each of its bytes is user memory that can
    be written, or it is not mapped, is to be read and written, and is in one of
    the pages that the loop gets to with the frames that are left. -/
def Kernel.MmapWritable (k : Kernel) (addr len : Nat) (prot flags : Int) : Prop :=
  ∀ l1 l2, k.mmap_pages addr len flags = l1 ++ l2 →
    Reaches k.mm.mem k.satp l1 l2 k.mm.framesLeft →
    ∀ q ∈ (user (k.mmap_at addr flags)).span (pageUp len), canonical q.addr = true ∧
      (UserWritable k.mm.mem k.satp q.addr ∨
        leaf k.mm.mem k.satp (Vpn.of q.addr) = none ∧
          (ofIsize prot &&& 1 ≠ 0 ∧ ofIsize prot &&& 2 ≠ 0) ∧
          ∃ page ∈ l1, Vpn.of page = Vpn.of q.addr)

section Fill

variable {k : Kernel} {addr len offset : Nat} {prot flags fd : Int}

/-- The contents of a mapping, when its pages are there. -/
theorem mmap_fill_ok (h : k.Inv) (hroom : Backed flags fd → k.mm.pages.current ≤ 0x8600_0000)
    (start len : Nat) (offset : Nat) :
    StoresOk (machine k.satp) (UserStore k.satp)
        (mmap_fill start len (pageUp len) flags fd offset) k.view ↔
      ∀ q ∈ (user start).span (pageUp len), UserStore k.satp k.mm.mem q.addr := by
  have hzero := storeBytes_user h (s := k.view) (fun a hne => absurd rfl hne) start
    (List.replicate (pageUp len) 0)
  rw [List.length_replicate] at hzero
  unfold mmap_fill
  rw [storesOk_bind]
  refine ⟨fun hall => hzero.mp hall.1, fun hall => ⟨hzero.mpr hall, ?_⟩⟩
  intro u t hrun
  by_cases hback : ofIsize flags &&& 0x20 = 0 ∧ fd ≥ 0
  · rw [if_pos hback]
    have hstore : ∀ q ∈ (user start).span (pageUp len), k.StoreOk q := by
      intro q hq
      refine Kernel.storeOk_user hq ?_
      intro e he
      obtain ⟨-, e', he', hU, -⟩ := (user_store_iff h q.addr).mp (hall q hq)
      rw [he] at he'
      cases he'
      exact hU
    -- the zeros change memory of the process only
    have hafter := run_changes h (hroom hback)
      (Code.storeBytes (user start) (List.replicate (pageUp len) 0) : IoM Unit) k.view
      (fun a hne => absurd rfl hne) h.heap (by
        intro e he _
        have hspan := (trace_storeBytes _ he).2
        rw [List.length_replicate] at hspan
        exact hstore e.ptr hspan)
    have hrun' : run (machine k.satp)
        (Code.storeBytes (user start) (List.replicate (pageUp len) 0) : IoM Unit) k.view = .ok u t := hrun
    rw [hrun'] at hafter
    show StoresOk _ _ _ t
    cases hfile : t.st.fd_table.get (ofIsize fd) with
    | none =>
      rw [storesOk_bind]
      refine ⟨trivial, ?_⟩
      intro io t' hget
      cases hget
      rw [hfile]
      trivial
    | some of =>
      rw [storesOk_bind]
      refine ⟨trivial, ?_⟩
      intro io t' hget
      cases hget
      rw [hfile]
      show StoresOk _ _ (read_file of.inode len offset >>= _) t
      rw [storesOk_bind]
      refine ⟨storesOk_of_trace _ t trace_read_file, ?_⟩
      intro bytes t2 hread
      obtain ⟨hbytes, -, hle⟩ := run_read_file hread
      have hlen := Fs.length_read_inode hbytes
      have hafter2 := run_changes h (hroom hback) (read_file of.inode len offset) t hafter.1 hafter.2
        (by
          intro e he
          rw [trace_read_file] at he
          cases he)
      rw [hread] at hafter2
      refine (storeBytes_user h hafter2.1 start bytes).mpr ?_
      intro q hq
      exact hall q (Ptr.span_subset (hlen.trans (le_pageUp hle)) hq)
  · rw [if_neg hback]
    trivial

theorem fill_loop_map {α : Type} (r : Nat) (fl : PTEFlags) (l : List α) (f : α → Nat) :
    fill_loop r fl (l.map f) = l.forM fun x => map_if_absent ⟨r⟩ (f x) fl := by
  unfold fill_loop
  induction l with
  | nil => rfl
  | cons x l ih =>
    rw [List.map_cons]
    simp only [List.forM] at ih ⊢
    rw [ih]

/-- The loop of `sys_mmap`, when it returns. -/
theorem mmap_loop_extends (h : k.Inv) {mm : Mm}
    (hloop : fill_loop k.satp (prot_flags prot) (k.mmap_pages addr len flags) k.mm = .ok ⟨⟩ mm) :
    Extended k.home k.satp k.mm mm ∧
      mm.pages.current ≤ k.mm.pages.current + 12288 * (pages 0 (pageUp len)).length := by
  unfold Kernel.mmap_pages at hloop
  rw [fill_loop_map] at hloop
  exact (map_all_wp h.spaces h.flags h.root_mem (pages 0 (pageUp len))
    (fun page => wadd (k.mmap_at addr flags) page) (prot_flags_user prot)).ok hloop

theorem prot_flags_contains (prot : Int) :
    ((prot_flags prot).mapped.contains .R = true ↔ ofIsize prot &&& 1 ≠ 0) ∧
    ((prot_flags prot).mapped.contains .W = true ↔ ofIsize prot &&& 2 ≠ 0) := by
  have hbits : ∀ r w x : Bool,
      ((PTEFlags.U ||| (if r then .R else 0) ||| (if w then .W else 0) |||
        (if x then .X else 0)).mapped.contains .R = true ↔ r = true) ∧
      ((PTEFlags.U ||| (if r then .R else 0) ||| (if w then .W else 0) |||
        (if x then .X else 0)).mapped.contains .W = true ↔ w = true) := by decide
  rw [← bne_iff_ne, ← bne_iff_ne]
  exact hbits _ _ _

/-- What can be written after the loop. -/
theorem Filled.writable {R : Set Nat} {r va : Nat} {l : List Nat} {s t : Mm}
    (h : Filled R r (prot_flags prot) l s t) :
    UserWritable t.mem r va ↔ UserWritable s.mem r va ∨
      leaf s.mem r (Vpn.of va) = none ∧ (ofIsize prot &&& 1 ≠ 0 ∧ ofIsize prot &&& 2 ≠ 0) ∧
        ∃ page ∈ l, Vpn.of page = Vpn.of va := by
  obtain ⟨hR, hW⟩ := prot_flags_contains prot
  cases hva : leaf s.mem r (Vpn.of va) with
  | some e =>
    have hnew := h.old _ e hva
    unfold UserWritable
    rw [hva, hnew]
    simp
  | none =>
    have hold : ¬ UserWritable s.mem r va := by
      rintro ⟨e, he, -⟩
      rw [hva] at he
      cases he
    constructor
    · rintro ⟨e, he, -, hRe, hWe⟩
      obtain ⟨page, hpage, hvpn⟩ := h.only _ hva (by rw [he]; simp)
      obtain ⟨e', he', hflags⟩ := h.new page hpage (by rw [hvpn]; exact hva)
      rw [hvpn, he] at he'
      cases he'
      rw [hflags] at hRe hWe
      exact Or.inr ⟨rfl, ⟨hR.mp hRe, hW.mp hWe⟩, page, hpage, hvpn⟩
    · intro hor
      obtain ⟨-, ⟨hpR, hpW⟩, page, hpage, hvpn⟩ := hor.resolve_left hold
      obtain ⟨e, he, hflags⟩ := h.new page hpage (by rw [hvpn]; exact hva)
      rw [hvpn] at he
      refine ⟨e, he, ?_⟩
      rw [hflags, PTEFlags.mapped_contains_U]
      exact ⟨prot_flags_user prot, hR.mpr hpR, hW.mpr hpW⟩

/-- **The stores of `sys_mmap`.**  They all go to memory of the user that can be
    written, just if the whole range is such memory already, or is in pages that
    the loop gets to and that are to be read and written.  If the mapping is that
    of a file, the frames that the call may take end below the heap. -/
theorem mmap_stores_iff (k : Kernel) (h : k.Inv) (addr len : Nat) (prot flags fd : Int) (offset : Nat)
    (hroom : Backed flags fd →
      k.mm.pages.current + 12288 * (pages 0 (pageUp len)).length ≤ 0x8600_0000) :
    k.MmapStoresOk addr len prot flags fd offset ↔ k.MmapWritable addr len prot flags := by
  have hfill : ∀ mm, fill_loop k.satp (prot_flags prot) (k.mmap_pages addr len flags) k.mm = .ok ⟨⟩ mm →
      (StoresOk (machine k.satp) (UserStore k.satp)
          (mmap_fill (k.mmap_at addr flags) len (pageUp len) flags fd offset) { k with mm := mm }.view ↔
        ∀ q ∈ (user (k.mmap_at addr flags)).span (pageUp len),
          canonical q.addr = true ∧ UserWritable mm.mem k.satp q.addr) := by
    intro mm hloop
    obtain ⟨hext, hused⟩ := mmap_loop_extends h hloop
    have hinv := (hext.keeps h).1
    rw [mmap_fill_ok (k := { k with mm := mm }) hinv (fun hb => hused.trans (hroom hb))]
    exact forall₂_congr fun q _ => user_store_iff hinv q.addr
  constructor
  · intro hok l1 l2 hsplit hreach q hq
    obtain ⟨mm, hloop, hfilled⟩ := fill_loop_ok h.spaces.own.tables
      h.root_mem rfl hreach
    rw [← hsplit] at hloop
    obtain ⟨hcanon, hwrite⟩ := (hfill mm hloop).mp (hok mm hloop) q hq
    exact ⟨hcanon, hfilled.writable.mp hwrite⟩
  · intro hw mm hloop
    obtain ⟨l1, l2, hsplit, hreach⟩ := fill_loop_runs h.root_mem _ h.spaces.own.tables rfl hloop
    obtain ⟨mm', hloop', hfilled⟩ := fill_loop_ok h.spaces.own.tables
      h.root_mem rfl hreach
    rw [← hsplit, hloop] at hloop'
    cases hloop'
    refine (hfill mm hloop).mpr ?_
    intro q hq
    obtain ⟨hcanon, hor⟩ := hw l1 l2 hsplit hreach q hq
    exact ⟨hcanon, hfilled.writable.mpr hor⟩

/-- Among so many pages, one is not mapped. -/
theorem free_page {n : Nat} (h : k.Inv) (hr : k.Roomy n) :
    ∃ i < 163, leaf k.mm.mem k.satp (Vpn.of (0x5000_0000 + 4096 * i)) = none := by
  by_contra hno
  push Not at hno
  have hinj : Set.InjOn (fun i => Vpn.of (0x5000_0000 + 4096 * i)) (Set.Iio 163) := by
    intro i hi j hj hij
    rw [Set.mem_Iio] at hi hj
    have := Vpn.of_inj (by omega) (by omega) (by omega) (by omega) hij
    omega
  have hmaps : ∀ i ∈ Set.Iio 163,
      (fun i => Vpn.of (0x5000_0000 + 4096 * i)) i ∈ userPages k.mm.mem k.satp := by
    intro i hi
    rw [Set.mem_Iio] at hi
    obtain ⟨e, he⟩ := Option.ne_none_iff_exists'.mp (hno i hi)
    have hU : e.flags.contains .U = true := by
      by_contra hU
      rw [Bool.not_eq_true] at hU
      obtain ⟨p, hp, hv, -⟩ := (h.spaces.kernel k.satp h.root_mem _ e).mp ⟨he, hU⟩
      obtain ⟨hlt, hal, -, hregion⟩ := identityPages_mem hp
      have := Vpn.of_inj (by omega) (by omega) (by omega) hal hv
      simp only [Finset.mem_union, Finset.mem_Icc, Finset.mem_insert, Finset.mem_singleton] at hregion
      omega
    show userLeaf k.mm.mem k.satp (Vpn.of (0x5000_0000 + 4096 * i)) ≠ none
    unfold userLeaf
    rw [he]
    simp [Option.filter, hU]
  have hcount := Set.ncard_le_ncard_of_injOn _ hmaps hinj (Set.toFinite _)
  have hbound := hr.users k.satp h.root_mem
  rw [Set.ncard_eq_toFinset_card', Set.toFinset_Iio, Nat.card_Iio] at hcount
  unfold pagesBound at hbound
  omega

/-- A page that is free, with frames for it: the loop gets to it. -/
theorem reaches_page {n va : Nat} (hr : k.Roomy (n + 1)) {l1 l2 : List Nat} (hsplit : [va] = l1 ++ l2)
    (hreach : Reaches k.mm.mem k.satp l1 l2 k.mm.framesLeft) : va ∈ l1 := by
  cases l1 with
  | cons x l1 =>
    rw [(List.cons.inj hsplit).1]
    exact List.mem_cons_self
  | nil =>
    exfalso
    have hroom := hr.room
    have hend := hr.end_eq
    rcases hreach with hfull | ⟨rfl, -⟩
    · rw [framesFor_nil] at hfull
      unfold Mm.framesLeft at hfull
      omega
    · cases hsplit

/-- The addresses of a page. -/
theorem page_span {va : Nat} (hdvd : 4096 ∣ va) (hlt : va + 4096 ≤ 2 ^ 38) {q : Ptr}
    (hq : q ∈ (user va).span 4096) : canonical q.addr = true ∧ Vpn.of q.addr = Vpn.of va := by
  obtain ⟨hlo, hhi⟩ : va ≤ q.addr ∧ q.addr < va + 4096 :=
    Ptr.of_mem_span (show va + 4096 ≤ 2 ^ 64 by omega) hq
  constructor
  · unfold canonical
    rw [Bool.or_eq_true, decide_eq_true_eq]
    exact Or.inl (by omega)
  · obtain ⟨o, ho⟩ := Nat.exists_eq_add_of_le hlo
    rw [ho]
    exact Vpn.of_add hdvd (by omega)

/-- A new page that can be read and written is filled. -/
theorem mmap_stores_page : ∃ s va, CalmStart Env.quiet s ∧
    leaf s.k.mm.mem s.k.satp (Vpn.of va) = none ∧ s.k.MmapStoresOk va 4096 3 0x32 (-1) 0 := by
  obtain ⟨s, hstart, hroomy, -⟩ := start_exists fun _ => 0
  obtain ⟨i, hi, hfree⟩ := free_page hstart.inv.kernel hroomy
  refine ⟨s, 0x5000_0000 + 4096 * i, hstart, hfree, ?_⟩
  have hat : s.k.mmap_at (0x5000_0000 + 4096 * i) 0x32 = 0x5000_0000 + 4096 * i := if_pos (by decide)
  have hup : pageUp 4096 = 4096 := by decide +kernel
  have hpages : s.k.mmap_pages (0x5000_0000 + 4096 * i) 4096 0x32 = [0x5000_0000 + 4096 * i] := by
    unfold Kernel.mmap_pages
    rw [hat, hup, show pages 0 4096 = [0] by decide +kernel, List.map_singleton,
      wadd_of_lt (by omega), Nat.add_zero]
  refine (mmap_stores_iff s.k hstart.inv.kernel _ 4096 3 0x32 (-1) 0 fun hb => absurd hb.2 (by decide)).mpr ?_
  intro l1 l2 hsplit hreach q hq
  rw [hpages] at hsplit
  rw [hat, hup] at hq
  obtain ⟨hcanon, hvpn⟩ := page_span (by omega) (by omega) hq
  rw [hvpn]
  exact ⟨hcanon, Or.inr ⟨hfree, by decide, _, reaches_page hroomy hsplit hreach, rfl⟩⟩

/-- **A mapping over the kernel**: with a fixed address, the first page of the
    kernel is filled with zeros. -/
theorem mmap_over_kernel : ∃ s, CalmStart Env.quiet s ∧
    ¬ s.k.MmapStoresOk 0x8000_0000 4096 3 0x32 (-1) 0 := by
  obtain ⟨s, hstart, -, -⟩ := start_exists fun _ => 0
  refine ⟨s, hstart, ?_⟩
  have hinv := hstart.inv.kernel
  obtain ⟨hleaf, hU⟩ := (hinv.spaces.kernel s.k.satp hinv.root_mem).first
  have hat : s.k.mmap_at 0x8000_0000 0x32 = 0x8000_0000 := if_pos (by decide)
  have hup : pageUp 4096 = 4096 := by decide +kernel
  have hpages : s.k.mmap_pages 0x8000_0000 4096 0x32 = [0x8000_0000] := by
    unfold Kernel.mmap_pages
    rw [hat, hup]
    decide +kernel
  -- the page is there, so the loop passes over it
  have hloop : fill_loop s.k.satp (prot_flags 3) (s.k.mmap_pages 0x8000_0000 4096 0x32) s.k.mm =
      .ok ⟨⟩ s.k.mm := by
    rw [hpages, fill_loop_cons (map_if_absent_present hinv.spaces.own.tables hinv.root_mem
      (by rw [hleaf]; simp))]
    rfl
  intro hok
  have hfill := (mmap_fill_ok hinv (fun hb => absurd hb.2 (by decide)) _ _ _).mp (hok s.k.mm hloop)
  rw [hat, hup] at hfill
  obtain ⟨-, e, he, hUe, -⟩ := (user_store_iff hinv _).mp (hfill (user 0x8000_0000) List.mem_cons_self)
  have he' : leaf s.k.mm.mem s.k.satp (Vpn.of 0x8000_0000) = some e := he
  rw [hleaf] at he'
  cases he'
  rw [hU] at hUe
  cases hUe

end Fill

/-! ## Section 3: The running base -/

/-- The base of the next mapping is the address of a page. -/
def Kernel.BaseOk (k : Kernel) : Prop := 4096 ∣ k.mmap_base ∧ k.mmap_base < 2 ^ 64

section Base

variable {env : Env} {num addr len offset : Nat} {a : Args} {prot flags fd ret : Int} {k k' : Kernel}

theorem pageUp_eq (len : Nat) : pageUp len = wadd len 0xfff / 4096 * 4096 := by
  have hlt : wadd len 0xfff < 2 ^ 64 := by
    unfold wadd
    omega
  unfold pageUp
  rw [show bnot 0xfff = bnot (2 ^ 12 - 1) from rfl, and_bnot_eq_div_mul (by omega) (by norm_num),
    show (2 : Nat) ^ 12 = 4096 from rfl]

theorem fixes_base_mm {α : Type} (c : MmM α) : Prog.Fixes Kernel.mmap_base (KM.mm c) := by
  intro k
  unfold KM.mm Prog.zoom
  cases c k.mm <;> rfl

theorem Start.base {s : System} (h : Start env s) : s.k.mmap_base = 0 := by
  obtain ⟨k0, k1, elf_data, argv, satp, hboot, hinit, hs, -⟩ := h
  obtain ⟨proc, elf, max_end, ka, kb, hnew, hload, rfl⟩ := init_user_proc_cases hinit
  have hrest := (rest_load_program env proc.page_table elf_data argv [utf8 "PATH=/bin"]).of_ok hload
  simp only [Kernel.rest, Prod.mk.injEq] at hrest
  obtain ⟨-, -, -, -, -, hbase, -⟩ := hrest
  rw [hs, ← hboot.mmap_base, ← (fixes_base_mm _).of_ok hnew, ← hbase]

end Base

/-! ## Section 4: Mappings at the running base -/

/-- The page of the address is mapped in the current table. -/
def Kernel.Maps (k : Kernel) (va : Nat) : Prop :=
  canonical va = true ∧ leaf k.mm.mem k.satp (Vpn.of va) ≠ none

/-- What a mapping of `len` bytes at `ret` is to do: its pages were not mapped, they
    are mapped for the user with the protection asked for, and no user page that
    was there has changed. -/
structure MmapFresh (k k' : Kernel) (ret len : Nat) (prot : Int) : Prop where
  free : ∀ va, ret ≤ va → va < ret + len → ¬ k.Maps va
  mapped : ∀ va, ret ≤ va → va < ret + len → canonical va = true ∧
    ∃ e, leaf k'.mm.mem k.satp (Vpn.of va) = some e ∧ e.flags = (prot_flags prot).mapped
  kept : ∀ r ∈ roots k.home, ∀ v f, UserPage k.mm.mem r v f → ∀ a, InFrame f a →
    k'.mm.mem a = k.mm.mem a

section Fresh

variable {k k' : Kernel} {addr len offset start : Nat} {prot flags fd ret : Int}

/-- The bytes from `lo` on that the current process may change. -/
def Kernel.MineFrom (k : Kernel) (lo : Nat) : Set Nat := {a | k.Mine a ∧ lo ≤ a}

/-- What `mmap_fill` changes, when it returns, lies in `W` if its stores and the
    vector for the file do; and all of its stores were permitted. -/
theorem mmap_fill_stays {M : Machine HeapAllocator Halt} {W : Set Nat} {m0 : Mem}
    {s t : St HeapAllocator Io} {u : Unit}
    (hblock : Backed flags fd → ∀ h n l a h', h.Ok → M.alloc h n l = (some a, h') →
      h'.Ok ∧ ∀ x, a ≤ x → x < a + n → x ∈ W)
    (hrefused : ∀ h n l h', h.Ok → M.alloc h n l = (none, h') → h'.Ok)
    (hstore : ∀ q ∈ (user start).span (pageUp len), ∀ m a, AgreeOff W m m0 →
      M.at m ⟨true, q⟩ = some a → a ∈ W)
    (hm : AgreeOff W s.mem m0) (hheap : s.heap.Ok)
    (hrun : run M (mmap_fill start len (pageUp len) flags fd offset) s = .ok u t) :
    AgreeOff W t.mem m0 ∧
      ∀ q ∈ (user start).span (pageUp len), ∃ m a, AgreeOff W m m0 ∧ M.at m ⟨true, q⟩ = some a := by
  unfold mmap_fill at hrun
  obtain ⟨_, s1, hzero, hrest⟩ := (run_bind_ok M).mp hrun
  have hlen : (List.replicate (pageUp len) (0 : UInt8)).length = pageUp len := List.length_replicate
  obtain ⟨hm1, hall⟩ := storeBytes_stays (p := user start) (by rw [hlen]; exact hstore) hm hzero
  obtain ⟨-, hheap1, -⟩ := run_storeBytes M hzero
  rw [hlen] at hall
  refine ⟨?_, hall⟩
  by_cases hback : ofIsize flags &&& 0x20 = 0 ∧ fd ≥ 0
  · rw [if_pos hback] at hrest
    obtain ⟨io, s2, hget, hrest⟩ := (run_bind_ok M).mp hrest
    cases hget
    cases hfile : s1.st.fd_table.get (ofIsize fd) with
    | none =>
      simp only [hfile] at hrest
      cases hrest
      exact hm1
    | some of =>
      simp only [hfile] at hrest
      obtain ⟨bytes, s3, hread, hcopy⟩ := (run_bind_ok M).mp hrest
      obtain ⟨hbytes, -, hle⟩ := run_read_file hread
      have hcount := Fs.length_read_inode hbytes
      have hm3 := (run_stays (hblock hback) hrefused (read_file of.inode len offset) s1 hm1
        (by rw [hheap1]; exact hheap) (by
          intro e he
          rw [trace_read_file] at he
          cases he)).1
      rw [hread] at hm3
      refine (storeBytes_stays (p := user start) ?_ hm3 hcopy).1
      intro q hq
      exact hstore q (Ptr.span_subset (hcount.trans (le_pageUp hle)) hq)
  · rw [if_neg hback] at hrest
    cases hrest
    exact hm1

/-- **Inversion of `sys_mmap`**, with its result. -/
theorem sys_mmap_returns (h : k.Inv) (hrun : sys_mmap addr len prot flags fd offset k = .ok ret k') :
    ret = toIsize (k.mmap_at addr flags) ∧ ∃ mm s,
      fill_loop k.satp (prot_flags prot) (k.mmap_pages addr len flags) k.mm = .ok ⟨⟩ mm ∧
      run (machine k.satp) (mmap_fill (k.mmap_at addr flags) len (pageUp len) flags fd offset)
        { k with mm := mm }.view = .ok () s ∧
      k'.mm.mem = s.mem := by
  obtain ⟨proc, hcur, hpt, -⟩ := h.current
  obtain ⟨base, heq⟩ := sys_mmap_loop hcur addr len prot flags fd offset
  rw [heq] at hrun
  obtain ⟨⟨⟩, k1, hloop, hrest⟩ := Prog.bind_eq_ok.mp hrun
  obtain ⟨mm, hmap, rfl⟩ := Prog.zoom_eq_ok.mp hloop
  obtain ⟨⟨⟩, k2, hfill, hret⟩ := Prog.bind_eq_ok.mp hrest
  cases hret
  obtain ⟨s, hs, rfl⟩ := KM.io_eq_ok.mp hfill
  refine ⟨rfl, mm, s, ?_, hs, rfl⟩
  unfold Kernel.mmap_pages
  rw [fill_loop_map, ← hpt]
  exact hmap

theorem at_user {root : Nat} {m : Mem} {w : Bool} {q : Ptr} (h : q.own = false) :
    (machine root).at m ⟨w, q⟩ = hw_translate m root w q.addr := by
  unfold Machine.at
  simp only [h, Bool.false_eq_true, if_false]
  rfl

/-- A row of canonical addresses that begins in the lower half stays there. -/
theorem span_low {n : Nat} (hstart : start < 2 ^ 63) (hn : 0 < n)
    (h : ∀ q ∈ (user start).span n, canonical q.addr = true) : start + n ≤ 2 ^ 38 := by
  have hfirst : canonical start = true := by
    cases n with
    | zero => omega
    | succ n => exact h (user start) List.mem_cons_self
  unfold canonical at hfirst
  simp only [Bool.or_eq_true, Bool.and_eq_true, decide_eq_true_eq] at hfirst
  by_contra hlt
  have hmem : (⟨start + (2 ^ 38 - start), false⟩ : Ptr) ∈ (user start).span n :=
    Ptr.mem_span_add (p := user start) (by omega) (by show start + (2 ^ 38 - start) < 2 ^ 64; omega)
  have hmid := h _ hmem
  rw [show start + (2 ^ 38 - start) = 2 ^ 38 by omega] at hmid
  revert hmid
  decide

/-- The pages of a range are those of the range rounded up. -/
theorem range_page (hstart : 4096 ∣ start) (hlen : len ≤ 2 ^ 64 - 4096) {va : Nat} (hlo : start ≤ va)
    (hhi : va < start + pageUp len) :
    start ≤ va / 4096 * 4096 ∧ va / 4096 * 4096 < start + len ∧
      Vpn.of (va / 4096 * 4096) = Vpn.of va := by
  have hup : pageUp len = (len + 4095) / 4096 * 4096 := by
    rw [pageUp_eq, wadd_of_lt (by omega)]
  refine ⟨by omega, by omega, ?_⟩
  have hsum : va = va / 4096 * 4096 + va % 4096 := by omega
  nth_rewrite 2 [hsum]
  exact (Vpn.of_add (by omega) (by omega)).symm

/-- The pages of user memory below the cursor survive the loop. -/
theorem Extended.user_kept {mm : Mm} (h : k.Inv) (hext : Extended k.home k.satp k.mm mm) {r f : Nat}
    (hr : r ∈ roots k.home) {v : Vpn} (hu : UserPage k.mm.mem r v f) {a : Nat} (ha : InFrame f a) :
    mm.mem a = k.mm.mem a := by
  have hbelow := h.spaces.own.user_below r hr v f hu
  unfold InFrame at ha
  by_contra hne
  rcases hext.grows.bytes a hne with ⟨p, g, hp, hg, hlo, hhi⟩ | ⟨hge, -⟩
  · obtain rfl : f = g := by omega
    exact h.spaces.own.user_node r hr k.satp h.root_mem v p f hp hu hg
  · omega

/-- A store to a page that was not mapped goes to a frame that the loop has taken. -/
theorem Extended.new_page {mm : Mm} (h : k.Inv) (hext : Extended k.home k.satp k.mm mm) {m : Mem}
    (hm : ∀ x, m x ≠ mm.mem x → { k with mm := mm }.Mine x) {va a : Nat}
    (hnone : leaf k.mm.mem k.satp (Vpn.of va) = none) (ha : hw_translate m k.satp true va = some a) :
    ∃ e, leaf mm.mem k.satp (Vpn.of va) = some e ∧ e.flags.contains .U = true ∧
      k.mm.pages.current ≤ 4096 * e.ppn ∧ InFrame e.ppn a := by
  have hinv := (hext.keeps h).1
  have hwalk := hinv.walk_same hm va
  have htr : hw_translate mm.mem k.satp true va = some a := by
    unfold hw_translate at ha ⊢
    rwa [hwalk] at ha
  obtain ⟨-, e, he, -, hin⟩ := hinv.translate_leaf htr
  have he' : leaf mm.mem k.satp (Vpn.of va) = some e := he
  rcases hext.leaves k.satp h.root_mem (Vpn.of va) with hsame | ⟨-, -, e', hnew, hU, hge⟩
  · rw [hsame, hnone] at he'
    cases he'
  · rw [he'] at hnew
    cases hnew
    exact ⟨e, he', hU, hge, hin⟩

/-- A free page is mapped and filled with zeros. -/
theorem page_filled {n va : Nat} (h : k.Inv) (hr : k.Roomy (n + 1)) (hdvd : 4096 ∣ va)
    (hlt : va + 4096 ≤ 2 ^ 38) (hfree : leaf k.mm.mem k.satp (Vpn.of va) = none) :
    ∃ mm t, fill_loop k.satp (prot_flags 3) [va] k.mm = .ok ⟨⟩ mm ∧
      run (machine k.satp) (mmap_fill va 4096 4096 0x22 (-1) 0) { k with mm := mm }.view = .ok () t := by
  have hroom := hr.room
  have hend := hr.end_eq
  have hframes := framesFor_one k.mm.mem k.satp va
  obtain ⟨mm, hloop, hfilled⟩ := fill_loop_fits (prot_flags 3) h.root_mem [va] h.spaces.own.tables
    (by omega)
  have hext := ((map_all_wp h.spaces h.flags h.root_mem [va] (fun page => page) (prot_flags_user 3)).ok
    hloop).1
  have hinv := (hext.keeps h).1
  -- all of the page can be written
  have hbytes : (List.replicate 4096 (0 : UInt8)).length = 4096 := List.length_replicate
  have hok : StoresOk (machine k.satp) (UserStore k.satp)
      (Code.storeBytes (user va) (List.replicate 4096 0) : IoM Unit) { k with mm := mm }.view := by
    refine (storeBytes_user hinv (fun a hne => absurd rfl hne) va _).mpr ?_
    intro q hq
    rw [hbytes] at hq
    obtain ⟨hcanon, hvpn⟩ := page_span hdvd hlt hq
    refine (user_store_iff hinv q.addr).mpr ⟨hcanon, hfilled.writable.mpr (Or.inr ?_)⟩
    rw [hvpn]
    exact ⟨hfree, by decide, va, List.mem_singleton_self va, rfl⟩
  obtain ⟨t, ht⟩ := hok.returns fun m va hgood => hgood.permitted
  refine ⟨mm, t, hloop, ?_⟩
  unfold mmap_fill
  rw [show (⟨va, false⟩ : Ptr) = user va from rfl, run_bind_of_ok _ ht, if_neg (by decide)]
  rfl

end Fresh

end Rvos

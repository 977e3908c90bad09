import Rvos.Kernel.Frames
import Rvos.Kernel.Visits

/-! # Growing the break

    `sys_brk` maps the missing pages between the old break and the new one, one
    after the other.  A page for which there is no frame is skipped, a node for
    which there is none stops the kernel, and the break is set in any case.

    * `fill_loop_ok`, `fill_loop_runs` : how far the loop gets with the frames
      there are, and what is mapped then.
    * `break_mapped_iff` : after `sys_brk` all pages up to the new break are
      there just if the loop gets far enough and what was there already is
      writable memory of the user. -/

namespace Rvos

open Access ByteMem Usize Trie

/-! ## Section 1: The loop -/

/-- The number of frames that can still be handed out. -/
def Mm.framesLeft (s : Mm) : Nat := (s.pages.end_ - s.pages.current) / 4096

/-- The loop of `sys_brk` and `sys_mmap`. -/
def fill_loop (r : Nat) (flags : PTEFlags) (l : List Nat) : MmM Unit :=
  l.forM fun page => map_if_absent ⟨r⟩ page flags

/-- The missing ones of these pages have been mapped to new frames, and nothing
    else has changed in the table. -/
structure Filled (R : Set Nat) (r : Nat) (flags : PTEFlags) (l : List Nat) (s t : Mm) : Prop where
  tables : Tables t R
  end_eq : t.pages.end_ = s.pages.end_
  used : t.pages.current = s.pages.current + 4096 * framesFor s.mem r l
  old : ∀ w e, leaf s.mem r w = some e → leaf t.mem r w = some e
  new : ∀ va ∈ l, leaf s.mem r (Vpn.of va) = none →
    ∃ e, leaf t.mem r (Vpn.of va) = some e ∧ e.flags = flags.mapped
  only : ∀ w, leaf s.mem r w = none → leaf t.mem r w ≠ none → ∃ va ∈ l, Vpn.of va = w

section Loop

variable {s t u : Mm} {R : Set Nat} {r va : Nat} {flags : PTEFlags} {l : List Nat}

theorem Filled.refl (ht : Tables s R) : Filled R r flags [] s s where
  tables := ht
  end_eq := rfl
  used := by rw [framesFor_nil, Nat.mul_zero, Nat.add_zero]
  old := fun _ _ he => he
  new := fun _ h => by cases h
  only := fun _ hnone hne => absurd hnone hne

/-- A page that is there is passed over. -/
theorem Filled.skip (hva : leaf s.mem r (Vpn.of va) ≠ none) (h : Filled R r flags l s t) :
    Filled R r flags (va :: l) s t where
  tables := h.tables
  end_eq := h.end_eq
  used := by rw [h.used, framesFor_mapped hva l]
  old := h.old
  new := by
    intro x hx hnone
    rcases List.mem_cons.mp hx with rfl | hx
    · exact absurd hnone hva
    · exact h.new x hx hnone
  only := by
    intro w hnone hne
    obtain ⟨x, hx, hw⟩ := h.only w hnone hne
    exact ⟨x, List.mem_cons_of_mem _ hx, hw⟩

theorem translate_eq_none (ht : Tables s R) (hr : r ∈ R) (va : Nat) :
    PageTable.translate ⟨r⟩ s.mem va = none ↔ leaf s.mem r (Vpn.of va) = none := by
  rw [translate_eq ht hr, Option.map_eq_none_iff]

variable (flags) in
/-- **`map_if_absent` of a missing page**: without a frame it is skipped; with
    frames for the page and the nodes above it, it is mapped; else the kernel
    stops. -/
theorem map_if_absent_exact (ht : Tables s R) (hr : r ∈ R)
    (hnone : leaf s.mem r (Vpn.of va) = none) :
    (s.pages.end_ < s.pages.current + 4096 ∧ alloc_page s = .ok none s) ∨
    (s.pages.current + 4096 * cost (paths s.mem r) (Vpn.of va).path ≤ s.pages.end_ ∧
      ∃ t, map_if_absent ⟨r⟩ va flags s = .ok ⟨⟩ t ∧ Placed R r flags (Vpn.of va) s t) ∨
    (s.pages.current + 4096 ≤ s.pages.end_ ∧
      s.pages.end_ < s.pages.current + 4096 * cost (paths s.mem r) (Vpn.of va).path ∧
      ∃ t, map_if_absent ⟨r⟩ va flags s = .error outOfFrames t) := by
  rcases alloc_page_cases ht.ok with ⟨hroom, halloc⟩ | ⟨hfull, halloc⟩
  · have hrun : map_if_absent ⟨r⟩ va flags s = PageTable.map ⟨r⟩ va s.pages.current flags s.take := by
      unfold map_if_absent
      rw [Prog.bind_run, Prog.get_run]
      simp only [(translate_eq_none ht hr va).mpr hnone, Option.isNone_none, if_true]
      rw [Prog.bind_of_ok halloc]
    rw [hrun]
    rcases place_exact ht hr hroom flags hnone with ⟨hfit, t, hmap, hp, -⟩ | ⟨hfull, t, hmap⟩
    · exact Or.inr (Or.inl ⟨hfit, t, hmap, hp⟩)
    · exact Or.inr (Or.inr ⟨hroom, hfull, t, hmap⟩)
  · exact Or.inl ⟨hfull, halloc⟩

/-- A page that is mapped, and then the rest. -/
theorem Filled.place (ht : Tables s R) (hr : r ∈ R) (hp : Placed R r flags (Vpn.of va) s t)
    (h : Filled R r flags l t u) : Filled R r flags (va :: l) s u where
  tables := h.tables
  end_eq := h.end_eq.trans hp.grows.end_eq
  used := by
    rw [h.used, hp.used, hp.framesFor]
    omega
  old := by
    intro w e he
    refine h.old w e ?_
    rw [hp.others r hr w, he]
    rintro ⟨-, rfl⟩
    rw [hp.was] at he
    cases he
  new := by
    intro x hx hnone
    by_cases hxv : Vpn.of x = Vpn.of va
    · rw [hxv]
      refine ⟨_, h.old _ _ hp.entry, PageTableEntry.new_flags ?_ _⟩
      have hok := ht.ok
      have := hok.le_end
      have := hok.end_le
      have := hok.next_eq
      omega
    · rcases List.mem_cons.mp hx with rfl | hx
      · exact absurd rfl hxv
      · exact h.new x hx (by rw [hp.others r hr _ fun hh => hxv hh.2, hnone])
  only := by
    intro w hnone hne
    by_cases hw : w = Vpn.of va
    · exact ⟨va, List.mem_cons_self, hw.symm⟩
    · obtain ⟨x, hx, hxw⟩ := h.only w (by rw [hp.others r hr w fun hh => hw hh.2, hnone]) hne
      exact ⟨x, List.mem_cons_of_mem _ hx, hxw⟩

theorem map_if_absent_present (ht : Tables s R) (hr : r ∈ R) (h : leaf s.mem r (Vpn.of va) ≠ none) :
    map_if_absent ⟨r⟩ va flags s = .ok ⟨⟩ s :=
  map_if_absent_mapped fun hnone => h ((translate_eq_none ht hr va).mp hnone)

theorem fill_loop_cons (h : map_if_absent ⟨r⟩ va flags s = .ok ⟨⟩ t) :
    fill_loop r flags (va :: l) s = fill_loop r flags l t := by
  unfold fill_loop
  rw [List.forM, Prog.bind_of_ok h]

theorem fill_loop_stops {e : Halt} (h : map_if_absent ⟨r⟩ va flags s = .error e t) :
    fill_loop r flags (va :: l) s = .error e t := by
  unfold fill_loop
  rw [List.forM, Prog.bind_of_error h]

theorem fill_loop_append (l l' : List Nat) (h : fill_loop r flags l s = .ok ⟨⟩ t) :
    fill_loop r flags (l ++ l') s = fill_loop r flags l' t := by
  have happ : fill_loop r flags (l ++ l') = (fill_loop r flags l >>= fun _ => fill_loop r flags l') :=
    List.forM_append
  rw [happ, Prog.bind_of_ok h]

variable (flags) in
/-- **Enough frames**: the loop maps all missing pages. -/
theorem fill_loop_fits (hr : r ∈ R) (l : List Nat) : ∀ {s : Mm}, Tables s R →
    s.pages.current + 4096 * framesFor s.mem r l ≤ s.pages.end_ →
    ∃ t, fill_loop r flags l s = .ok ⟨⟩ t ∧ Filled R r flags l s t := by
  induction l with
  | nil =>
    intro s ht _
    exact ⟨s, rfl, .refl ht⟩
  | cons va l ih =>
    intro s ht hfit
    by_cases hva : leaf s.mem r (Vpn.of va) = none
    · have hpos := cost_pos (leaf_eq_none_iff.mp hva)
      have hcost := cost_le_framesFor s.mem r va l
      rcases map_if_absent_exact flags ht hr hva with
        ⟨hfull, -⟩ | ⟨-, t, hrun, hp⟩ | ⟨-, hfull, -⟩
      · omega
      · have hused := hp.used
        have hend := hp.grows.end_eq
        rw [hp.framesFor] at hfit
        obtain ⟨u, hloop, hfilled⟩ := ih hp.grows.tables (by omega)
        exact ⟨u, (fill_loop_cons hrun).trans hloop, hfilled.place ht hr hp⟩
      · omega
    · rw [framesFor_mapped hva l] at hfit
      obtain ⟨t, hloop, hfilled⟩ := ih ht hfit
      exact ⟨t, (fill_loop_cons (map_if_absent_present ht hr hva)).trans hloop, hfilled.skip hva⟩

/-- **The loop with `n` frames left**: it maps what it reaches, and skips the rest. -/
theorem fill_loop_ok (ht : Tables s R) (hr : r ∈ R) {n : Nat} (hn : s.framesLeft = n) {l1 l2 : List Nat}
    (h : Reaches s.mem r l1 l2 n) :
    ∃ t, fill_loop r flags (l1 ++ l2) s = .ok ⟨⟩ t ∧ Filled R r flags l1 s t := by
  have hle : framesFor s.mem r l1 ≤ n := by
    rcases h with h | h
    · omega
    · exact h.2
  have hcur := ht.ok.le_end
  unfold Mm.framesLeft at hn
  obtain ⟨t, hloop, hfilled⟩ := fill_loop_fits flags hr l1 ht (by omega)
  refine ⟨t, ?_, hfilled⟩
  rw [fill_loop_append l1 l2 hloop]
  rcases h with h | ⟨rfl, -⟩
  · -- no frame is left
    have hused := hfilled.used
    have hend := hfilled.end_eq
    refine map_loop_full (g := fun page => page) ?_
    rcases alloc_page_cases hfilled.tables.ok with ⟨hroom, -⟩ | ⟨-, halloc⟩
    · omega
    · exact halloc
  · rfl

/-- A loop that returns has reached some part of its pages. -/
theorem fill_loop_runs (hr : r ∈ R) (l : List Nat) : ∀ {s : Mm} {n : Nat}, Tables s R →
    s.framesLeft = n → fill_loop r flags l s = .ok ⟨⟩ t →
    ∃ l1 l2, l = l1 ++ l2 ∧ Reaches s.mem r l1 l2 n := by
  induction l with
  | nil =>
    intro s n _ _ _
    exact ⟨[], [], rfl, Or.inr ⟨rfl, by rw [framesFor_nil]; omega⟩⟩
  | cons va l ih =>
    intro s n ht hn hrun
    by_cases hva : leaf s.mem r (Vpn.of va) = none
    · have hcur := ht.ok.le_end
      have hn' := hn
      unfold Mm.framesLeft at hn'
      rcases map_if_absent_exact flags ht hr hva with
        ⟨hfull, -⟩ | ⟨hfit, u, hmap, hp⟩ | ⟨-, -, u, hmap⟩
      · -- the frames have run out before this page
        refine ⟨[], va :: l, rfl, Or.inl ?_⟩
        rw [framesFor_nil]
        omega
      · rw [fill_loop_cons hmap] at hrun
        have hused := hp.used
        have hend := hp.grows.end_eq
        obtain ⟨l1, l2, rfl, hreach⟩ := ih (n := n - cost (paths s.mem r) (Vpn.of va).path)
          hp.grows.tables (by unfold Mm.framesLeft; omega) hrun
        refine ⟨va :: l1, l2, rfl, ?_⟩
        unfold Reaches at *
        rw [hp.framesFor]
        rcases hreach with hreach | ⟨hnil, hreach⟩
        · exact Or.inl (by omega)
        · exact Or.inr ⟨hnil, by omega⟩
      · rw [fill_loop_stops hmap] at hrun
        cases hrun
    · rw [fill_loop_cons (map_if_absent_present ht hr hva)] at hrun
      obtain ⟨l1, l2, rfl, hreach⟩ := ih ht hn hrun
      refine ⟨va :: l1, l2, rfl, ?_⟩
      unfold Reaches at *
      rwa [framesFor_mapped hva l1]

end Loop

/-! ## Section 2: The system call -/

/-- The page of an address is mapped for the user, to read and to write. -/
def UserWritable (m : Mem) (r va : Nat) : Prop :=
  ∃ e, leaf m r (Vpn.of va) = some e ∧ e.flags.contains .U = true ∧ e.flags.contains .R = true ∧
    e.flags.contains .W = true

/-- The pages that `sys_brk` goes through. -/
def Process.growth (proc : Process) (addr : Nat) : List Nat :=
  if proc.break_ < addr then pages (pageUp proc.break_) (pageUp addr) else []

/-- What `sys_brk` is to do with `n` frames left, for a process whose break was
    `exec_brk` when its program was loaded: the pages up to the new break are
    there, or the old break is returned and nothing has changed. -/
def BrkMeets (k : Kernel) (proc : Process) (exec_brk addr n : Nat) : Prop :=
  ∃ r k', sys_brk addr (k.leaving n) = .ok r k' ∧
    (r = toIsize addr → ∀ va, exec_brk ≤ va → va < addr →
      UserWritable k'.mm.mem proc.page_table.root_ppn va) ∧
    (r ≠ toIsize addr → r = toIsize proc.break_ ∧ k'.current = some { proc with brk := proc.break_ } ∧
      ∀ v, leaf k'.mm.mem proc.page_table.root_ppn v = leaf k.mm.mem proc.page_table.root_ppn v)

section Call

variable {k : Kernel} {proc : Process}

/-- `sys_brk` is its loop. -/
theorem sys_brk_run (hcur : k.current = some proc) {addr : Nat} (haddr : 0 < addr) :
    (∀ t, fill_loop proc.page_table.root_ppn (.U ||| .R ||| .W) (proc.growth addr) k.mm = .ok ⟨⟩ t →
      ∃ k', sys_brk addr k = .ok (toIsize addr) k' ∧ k'.mm = t) ∧
    (∀ r k', sys_brk addr k = .ok r k' → r = toIsize addr ∧
      fill_loop proc.page_table.root_ppn (.U ||| .R ||| .W) (proc.growth addr) k.mm =
        .ok ⟨⟩ k'.mm) := by
  unfold Process.growth
  by_cases habove : proc.break_ < addr
  · rw [if_pos habove, sys_brk_above hcur habove]
    constructor
    · intro t ht
      refine ⟨_, Prog.bind_of_ok (KM.mm_of_ok ht), rfl⟩
    · intro r k' hrun
      obtain ⟨⟨⟩, k1, hloop, hrest⟩ := Prog.bind_eq_ok.mp hrun
      obtain ⟨t, ht, rfl⟩ := Prog.zoom_eq_ok.mp hloop
      cases hrest
      exact ⟨rfl, ht⟩
  · -- nothing to map
    have hrun : ∃ k', sys_brk addr k = .ok (toIsize addr) k' ∧ k'.mm = k.mm := by
      have hbrk : (if proc.brk = 0 then 0x10000 else proc.brk) = proc.break_ := rfl
      unfold sys_brk
      rw [Prog.bind_run, Prog.get_run]
      simp only [hcur, hbrk]
      rw [Prog.bind_of_ok (modify_proc_run _ _ _), if_neg (by omega), if_neg habove]
      exact ⟨_, rfl, rfl⟩
    rw [if_neg habove]
    obtain ⟨k1, hk1, hmm⟩ := hrun
    constructor
    · intro t ht
      cases ht
      exact ⟨k1, hk1, hmm⟩
    · intro r k' hrun
      rw [hk1] at hrun
      cases hrun
      exact ⟨rfl, by rw [hmm]; rfl⟩

theorem userWritable_flags : (PTEFlags.U ||| .R ||| .W).mapped.contains .U = true ∧
    (PTEFlags.U ||| .R ||| .W).mapped.contains .R = true ∧
    (PTEFlags.U ||| .R ||| .W).mapped.contains .W = true := by decide

/-- **The pages below the break.**  With `n` frames left, `sys_brk` leaves all
    pages from the first break to the new one mapped, to be read and written by
    the user, just if those that are mapped already are so, and the missing ones
    are among the pages that the loop reaches with `n` frames. -/
theorem break_mapped_iff (k : Kernel) (proc : Process) (hcur : k.current = some proc)
    (ht : Tables k.mm {proc.page_table.root_ppn}) (exec_brk addr n : Nat) (haddr : 0 < addr)
    (hn : k.mm.pages.current + 4096 * n ≤ 0x8800_0000) :
    BrkMeets k proc exec_brk addr n ↔
      (∀ va, exec_brk ≤ va → va < addr →
        leaf k.mm.mem proc.page_table.root_ppn (Vpn.of va) ≠ none →
          UserWritable k.mm.mem proc.page_table.root_ppn va) ∧
      ∃ l1 l2, proc.growth addr = l1 ++ l2 ∧ Reaches k.mm.mem proc.page_table.root_ppn l1 l2 n ∧
        ∀ va, exec_brk ≤ va → va < addr →
          leaf k.mm.mem proc.page_table.root_ppn (Vpn.of va) = none →
            ∃ page ∈ l1, Vpn.of page = Vpn.of va := by
  have hroot : proc.page_table.root_ppn ∈ ({proc.page_table.root_ppn} : Set Nat) := rfl
  have hcur' : (k.leaving n).current = some proc := hcur
  have ht' : Tables (k.leaving n).mm {proc.page_table.root_ppn} :=
    ht.transport ⟨ht.ok.aligned, Nat.le_add_right _ _, hn⟩ (le_refl _) fun _ _ _ _ _ _ _ => rfl
  have hend : (k.leaving n).mm.framesLeft = n := by
    show (k.mm.pages.current + 4096 * n - k.mm.pages.current) / 4096 = n
    omega
  have hmem : (k.leaving n).mm.mem = k.mm.mem := rfl
  obtain ⟨hforward, hback⟩ := sys_brk_run hcur' haddr
  rw [← hmem]
  constructor
  · rintro ⟨r, k', hrun, hmapped, -⟩
    obtain ⟨rfl, hloop⟩ := hback r k' hrun
    obtain ⟨l1, l2, hsplit, hreach⟩ := fill_loop_runs hroot _ ht' hend hloop
    obtain ⟨t, hloop', hfilled⟩ := fill_loop_ok ht' hroot hend hreach
    rw [hsplit, hloop'] at hloop
    cases hloop
    refine ⟨?_, l1, l2, hsplit, hreach, ?_⟩
    · intro va hlo hhi hne
      obtain ⟨e, he⟩ := Option.ne_none_iff_exists'.mp hne
      obtain ⟨e', he', hflags⟩ := hmapped rfl va hlo hhi
      rw [hfilled.old _ e he] at he'
      cases he'
      exact ⟨e, he, hflags⟩
    · intro va hlo hhi hnone
      obtain ⟨e', he', -⟩ := hmapped rfl va hlo hhi
      exact hfilled.only _ hnone (by rw [he']; simp)
  · rintro ⟨hold, l1, l2, hsplit, hreach, hmiss⟩
    obtain ⟨t, hloop, hfilled⟩ := fill_loop_ok ht' hroot hend hreach
    rw [← hsplit] at hloop
    obtain ⟨k', hrun, hmm⟩ := hforward t hloop
    refine ⟨_, k', hrun, ?_, fun hne => absurd rfl hne⟩
    intro _ va hlo hhi
    rw [hmm]
    cases hva : leaf (k.leaving n).mm.mem proc.page_table.root_ppn (Vpn.of va) with
    | none =>
      obtain ⟨page, hpage, heq⟩ := hmiss va hlo hhi hva
      rw [← heq] at hva
      obtain ⟨e, he, hflags⟩ := hfilled.new page hpage hva
      rw [heq] at he
      refine ⟨e, he, ?_⟩
      rw [hflags]
      exact userWritable_flags
    | some e =>
      obtain ⟨e', he', hflags⟩ := hold va hlo hhi (by rw [hva]; simp)
      exact ⟨e', hfilled.old _ e' he', hflags⟩

/-- A process with an empty table, and eight frames left. -/
def newProcess : Process where
  pid := 1
  ppid := 0
  state := .Running
  page_table := ⟨0x80200⟩
  trap_frame := .new
  kernel_stack := 0
  brk := 0
  exit_code := 0
  fd_table := .new

def newKernel : Kernel :=
  { bootKernel with mm := newTable, procs := (∅ : Std.TreeMap Nat Process).insert 1 newProcess, current_pid := 1 }

theorem newKernel_current : newKernel.current = some newProcess := by
  show ((∅ : Std.TreeMap Nat Process).insert 1 newProcess)[1]? = some newProcess
  rw [Assoc.get_insert, if_pos rfl]

/-- The first page of the break is mapped. -/
theorem break_mapped_first : BrkMeets newKernel newProcess 0x10000 0x10001 8 := by
  have hgrowth : newProcess.growth 0x10001 = [0x10000] := by decide +kernel
  refine (break_mapped_iff newKernel newProcess newKernel_current newTable_empty.1 0x10000 0x10001 8
    (by decide) (by decide)).mpr ⟨?_, [0x10000], [], hgrowth, Or.inr ⟨rfl, ?_⟩, ?_⟩
  · intro va _ _ hne
    exact absurd (newTable_empty.2 _) hne
  · exact (framesFor_one _ _ _).trans (by decide)
  · intro va hlo hhi _
    refine ⟨0x10000, List.mem_singleton_self _, ?_⟩
    rw [show va = 0x10000 by omega]

/-- The first process, from its file. -/
theorem CalmStart.first {env : Env} {s : System} (h : CalmStart env s) :
    ∃ (proc : Process) (elf_data : List UInt8) (elf : Elf) (argc : Nat),
      env.parse_elf elf_data = some elf ∧ s.k.current = some (proc.first elf elf.max_end argc) := by
  obtain ⟨k0, k1, elf_data, argv, satp, -, -, -, hinit, hs, -⟩ := h
  obtain ⟨proc, elf, max_end, ka, kb, -, hload, hk1⟩ := init_user_proc_cases hinit
  obtain ⟨top, data, sp, k2, k3, k4, -, -, hparse, hloaded, -⟩ := load_program_cases hload
  obtain ⟨t, hinto, -⟩ := Prog.zoom_eq_ok.mp hloaded
  rw [load_elf_into_end hinto] at hk1
  refine ⟨proc, elf_data, elf, argv.length, hparse, ?_⟩
  rw [hs, hk1]
  show (kb.procs.insert 1 _)[1]? = _
  rw [Assoc.get_insert, if_pos rfl]

/-- The first page of the kernel is mapped, and not for the user. -/
theorem KernelMapped.first {m : Mem} {r : Nat} (h : KernelMapped m r) :
    leaf m r (Vpn.of 0x8000_0000) = some (identityEntry (0x8000_0000, kernelFlags)) ∧
      (identityEntry (0x8000_0000, kernelFlags)).flags.contains .U = false := by
  have hpage : ((0x8000_0000, kernelFlags) : Nat × PTEFlags) ∈ identityPages := by
    unfold identityPages
    refine List.mem_append_left _ (List.mem_append_left _ (List.mem_append_left _ ?_))
    obtain ⟨rest, hrest⟩ := pages_eq_cons (by decide : 0x8000_0000 < 0x8800_0000)
    rw [hrest, List.map_cons]
    exact List.mem_cons_self
  exact (h (Vpn.of 0x8000_0000) (identityEntry (0x8000_0000, kernelFlags))).mpr ⟨_, hpage, rfl, rfl⟩

/-- The break of the first process when there are no segments to load. -/
theorem quiet_break {s : System} (h : CalmStart Env.quiet s) (hcur : s.k.current = some proc) :
    proc.break_ = 0x10000 := by
  obtain ⟨p, elf_data, elf, argc, hparse, hfirst⟩ := h.first
  cases hparse
  rw [hfirst] at hcur
  cases hcur
  have hbrk : initial_brk (Elf.max_end ⟨0x10000, 64, 56, []⟩) = 0x10000 := by decide +kernel
  show (if initial_brk _ = 0 then 0x10000 else initial_brk _) = 0x10000
  rw [hbrk]
  rfl

/-- **A break near the end of the address space**: the rounding wraps around, the
    loop has nothing to do, and the break is set all the same. -/
theorem break_wraps : ∃ s proc, CalmStart Env.quiet s ∧ s.k.current = some proc ∧
    proc.break_ = 0x10000 ∧ ∀ n, ¬ BrkMeets s.k proc 0x10000 (2 ^ 64 - 1) n := by
  obtain ⟨s, hstart, -, -⟩ := start_exists fun _ => 0
  obtain ⟨x, hx, -⟩ := hstart.inv.kernel.satp
  obtain ⟨proc, hcur, rfl⟩ : ∃ proc, s.k.current = some proc ∧ proc.home = x := by
    unfold Kernel.home at hx
    exact Option.map_eq_some_iff.mp hx
  have hbreak := quiet_break hstart hcur
  refine ⟨s, proc, hstart, hcur, hbreak, ?_⟩
  rintro n ⟨r, k', hrun, hmapped, -⟩
  have hcur' : (s.k.leaving n).current = some proc := hcur
  obtain ⟨rfl, hloop⟩ := (sys_brk_run hcur' (by decide)).2 r k' hrun
  have hgrowth : proc.growth (2 ^ 64 - 1) = [] := by
    unfold Process.growth
    rw [hbreak]
    decide +kernel
  rw [hgrowth] at hloop
  have hmem : s.k.mm.mem = k'.mm.mem := by
    have hmm : (s.k.leaving n).mm = k'.mm := (EStateM.Result.ok.inj hloop).2
    rw [← hmm]
    rfl
  -- the kernel's own pages are in the range
  obtain ⟨e, hleaf, hU, -⟩ := hmapped rfl 0x8000_0000 (by decide) (by decide)
  rw [← hmem] at hleaf
  obtain ⟨hleaf', hU'⟩ := (hstart.inv.kernel.spaces.kernel proc.page_table.root_ppn ⟨_, _, hx, rfl⟩).first
  rw [hleaf] at hleaf'
  cases hleaf'
  rw [hU] at hU'
  cases hU'

end Call

end Rvos

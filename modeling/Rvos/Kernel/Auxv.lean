import Rvos.Kernel.Image
import Rvos.Kernel.Progress
import Rvos.Kernel.Stack

/-! # The program headers of a loaded program

    The auxiliary vector on the initial stack has an entry `AT_PHDR`, with the
    address at which the program is to find its own program headers.
    `init_user_proc` and `exec_process` compute it from the lowest segment and the
    position of the headers in the file.

    * `load_program_loaded` : the segments and the stack after `load_program`.
    * `HeadersAt` : the image has the headers at this address.
    * `headers_found_iff` : the program finds its headers just if the image has
      them there. -/

namespace Rvos

open Access ByteMem Usize Trie

/-! ## Section 1: Headers in order -/

section Fits

variable {ph : ProgramHeader} {len page : Nat}

/-- A visit within its bounds is not stopped by them. -/
theorem Visit.Within.run_eq {v : Visit} (hw : v.Within len) (pt : PageTable) (data : Nat) :
    load_page pt data v.ph v.page = load_page_within len pt data v.ph v.page := by
  obtain ⟨hzero, hcopy⟩ := hw
  have hdest := v.dest_le
  unfold load_page load_page_within
  refine congrArg (alloc_page >>= ·) (funext fun o => ?_)
  cases o with
  | none => rfl
  | some paddr =>
    refine congrArg (PageTable.map pt v.page paddr v.ph.pte_flags >>= ·) (funext fun _ => ?_)
    unfold ProgramHeader.copy_offset ProgramHeader.file_start ProgramHeader.file_end
      ProgramHeader.zero_len at *
    dsimp only at *
    generalize wsub (min (wadd v.page PAGE_SIZE) v.ph.seg_mem_end) v.page = zero_len at *
    generalize max v.page v.ph.vaddr = file_start at *
    generalize min (wadd v.page PAGE_SIZE) v.ph.seg_file_end = file_end at *
    generalize wadd v.ph.offset (file_start - v.ph.vaddr) = copy_offset at *
    rw [if_neg (show ¬ zero_len > PAGE_SIZE by omega)]
    refine congrArg (phys_zero paddr zero_len >>= ·) (funext fun _ => ?_)
    by_cases hfile : file_end > file_start
    · have hlen := hcopy hfile
      have hpage := hdest hfile
      rw [if_pos hfile, if_pos hfile, if_neg (by omega), if_neg (by omega)]
    · rw [if_neg hfile, if_neg hfile]

theorem ProgramHeader.Fits.load_pages_eq (h : ph.Fits len) (hlen : len < 2 ^ 63) (pt : PageTable)
    (data fuel : Nat) : ∀ {page : Nat}, 4096 ∣ page → ph.vaddr < page + 4096 → page ≤ 2 ^ 39 →
    load_pages_with (load_page pt data ph) ph.last_page fuel page =
      load_pages_with (load_page_within len pt data ph) ph.last_page fuel page := by
  induction fuel with
  | zero => exact fun _ _ _ => rfl
  | succ fuel ih =>
    intro page hdvd hge hle
    rw [load_pages_with, load_pages_with]
    by_cases hlast : page > ph.last_page
    · rw [if_pos hlast, if_pos hlast]
    · have hlt : page < ph.vaddr + ph.memsz := by
        have := not_congr (h.last_page_lt hdvd)
        omega
      have hlow := h.low
      have hadd : wadd page PAGE_SIZE = page + 4096 := wadd_of_lt (by unfold PAGE_SIZE; omega)
      have hturn := (h.within hlen (ph.mem_pages_of hdvd hlt hge)).run_eq pt data
      dsimp only at hturn
      rw [if_neg hlast, if_neg hlast, hturn, hadd]
      refine congrArg (load_page_within len pt data ph page >>= ·) (funext fun o => ?_)
      cases o with
      | none => rfl
      | some u => exact ih (by omega) (by omega) (by omega)

/-- **Headers in order**: the loader stays within bounds. -/
theorem load_elf_into_within {elf : Elf} (hfits : ∀ ph ∈ elf.loads, ph.Fits len) (hlen : len < 2 ^ 63)
    (pt : PageTable) (data : Nat) : load_elf_into pt data elf = load_elf_within len pt data elf := by
  rw [load_elf_into_eq]
  unfold load_elf_within load_elf_with
  rw [Prog.each_congr fun ph hph => ?_]
  unfold load_segment_with
  cases hload : ph.load with
  | none => rfl
  | some b =>
    cases b with
    | false => rfl
    | true =>
      have h := hfits ph (List.mem_filter.mpr ⟨hph, by simp [hload]⟩)
      have hlow := h.low
      have hpos := h.nonempty
      refine congrArg (get >>= ·) (funext fun s => ?_)
      have hfirst : ph.first_page = ph.vaddr / 4096 * 4096 := page_down (by omega)
      exact h.load_pages_eq hlen pt data _ (by omega) (by omega) (by omega)

/-- A file that has been loaded, with headers in order: all visits have been made. -/
theorem load_elf_into_visits {s t : Mm} {R : Set Nat} {r data e : Nat} {elf : Elf} (ht : Tables s R)
    (hr : r ∈ R) (hdata : 0x8000_0000 ≤ data ∧ data + len ≤ kernelEnd)
    (hfits : ∀ ph ∈ elf.loads, ph.Fits len) (hrun : load_elf_into ⟨r⟩ data elf s = .ok (some e) t) :
    ∃ u, Prog.each (Visit.run (load_page_within len ⟨r⟩ data)) elf.visits s = .ok (some u) t := by
  have hlen : len < 2 ^ 63 := by unfold kernelEnd at hdata; omega
  have hend := ht.ok.end_le
  rw [load_elf_into_within hfits hlen] at hrun
  unfold load_elf_within load_elf_with at hrun
  have hturn : TakesFrame (fun s => Tables s R) (load_page_within len ⟨r⟩ data) :=
    within_takes hr hdata
  have heq := load_segments_eq hturn elf.program_headers (2 ^ 40) s ht (by omega)
  obtain ⟨o, t1, hloop, hrest⟩ := Prog.bind_eq_ok.mp hrun
  rw [heq] at hloop
  obtain ⟨o1, t2, hvisits, hfilter⟩ := Prog.bind_eq_ok.mp hloop
  cases hfilter
  cases o1 with
  | none => cases hrest
  | some u =>
    cases hread : readable elf.program_headers with
    | false =>
      rw [hread] at hrest
      cases hrest
    | true =>
      rw [hread] at hrest
      cases hrest
      rw [visits_eq (by norm_num) _ hread hfits] at hvisits
      exact ⟨u, hvisits⟩

end Fits

/-! ## Section 2: Loading the program -/

/-- The address that the program is given for its headers. -/
def Elf.at_phdr (elf : Elf) : Nat := wadd elf.base_vaddr elf.ph_offset

/-- The program in memory: its segments, and the entry `AT_PHDR` (number 3) of the
    auxiliary vector on its stack. -/
structure Loaded (m : Mem) (r : Nat) (elf : Elf) (file : List UInt8) (argc envc : Nat) : Prop where
  image : ∀ ph ∈ elf.loads, ∀ page ∈ ph.pages, ∃ e, userLeaf m r (Vpn.of page) = some e ∧
    ∀ o < 4096, m (4096 * e.ppn + o) = ph.image file (page + o)
  vector : ∃ f, UserPage m r (Vpn.of stackTop) f ∧
    readLE m (4096 * f + 8 * (argc + envc + 5)) 8 = 3 ∧
    readLE m (4096 * f + 8 * (argc + envc + 6)) 8 = elf.at_phdr

section Program

variable {s0 : Mm} {R K : Set Nat} {r : Nat} {k k' : Kernel} {env : Env} {elf : Elf} {max_end : Nat}
  {file : List UInt8} {argv envp : List Path}

theorem align_elf_run {ptr : Nat} (h : align_elf file k = .ok (some ptr) k') :
    ∃ heap, heap_alloc k.heap file.length 4 = (some ptr, heap) ∧
      k' = { k with heap := heap, mm := { k.mm with mem := blit k.mm.mem ptr file } } := by
  unfold align_elf at h
  rw [Prog.bind_run, Prog.get_run] at h
  dsimp only at h
  rcases halloc : heap_alloc k.heap file.length 4 with ⟨_ | ptr', heap⟩
  · rw [halloc] at h
    cases h
  · rw [halloc] at h
    cases h
    exact ⟨heap, rfl, rfl⟩

theorem pte_flags_user (ph : ProgramHeader) : ph.pte_flags.mapped.contains .U = true := by
  unfold ProgramHeader.pte_flags
  cases ph.read <;> cases ph.write <;> cases ph.execute <;> decide

/-- The entry `AT_PHDR` of the words on the initial stack. -/
theorem stack_vector_phdr (argc envc at_phdr phent phnum entry : Nat) :
    (stack_vector argc envc at_phdr phent phnum entry).getD (argc + envc + 5) 0 = 3 ∧
      (stack_vector argc envc at_phdr phent phnum entry).getD (argc + envc + 6) 0 = at_phdr := by
  unfold stack_vector
  generalize hpre : [argc] ++ (List.range argc).map (fun i => stackTop + 0x400 + i * 0x100) ++ [0] ++
    (List.range envc).map (fun i => stackTop + 0x400 + argc * 0x100 + i * 0x100) ++ [0] = pre
  have hlen : pre.length = argc + envc + 3 := by
    rw [← hpre]
    simp only [List.length_append, List.length_map, List.length_range, List.length_singleton]
    omega
  constructor
  · rw [List.getD_append_right _ _ _ _ (by omega), hlen, show argc + envc + 5 - (argc + envc + 3) = 2 by omega]
    rfl
  · rw [List.getD_append_right _ _ _ _ (by omega), hlen, show argc + envc + 6 - (argc + envc + 3) = 3 by omega]
    rfl

/-- **A program that has been loaded** into frames below the heap. -/
theorem load_program_loaded (h : Space s0 R K r k.mm) (hnone : ∀ v, userLeaf k.mm.mem r v = none)
    (hheap : k.heap.Ok) (hroom : k.mm.pages.current + 12288 * 9 ≤ 0x8600_0000)
    (hfit : StackFits (argv ++ envp)) (hfits : ∀ ph ∈ elf.loads, ph.Fits file.length)
    (hrun : load_program env ⟨r⟩ file argv envp k = .ok (some (elf, max_end)) k')
    (hroom' : k'.mm.pages.current ≤ 0x8600_0000) :
    Loaded k'.mm.mem r elf file argv.length envp.length := by
  obtain ⟨top, ptr, sp, k1, k2, k3, hstack, halign, -, hload, hbuild⟩ := load_program_cases hrun
  obtain ⟨t1, hmap, rfl⟩ := Prog.zoom_eq_ok.mp hstack
  obtain ⟨t3, hinto, rfl⟩ := Prog.zoom_eq_ok.mp hload
  obtain ⟨t4, hstore, rfl⟩ := Prog.zoom_eq_ok.mp hbuild
  obtain ⟨heap, halloc, rfl⟩ := align_elf_run halign
  obtain ⟨-, hlo, hhi⟩ := heap_alloc_block hheap halloc
  obtain ⟨hspace1, hused1, htop, -⟩ := (map_stack_wp h hnone).ok hmap
  obtain ⟨f, rfl, hpage, -⟩ := htop top rfl
  have hbelow := hspace1.builds.own.user_below r hspace1.builds.root _ f hpage
  -- the copy of the file lies above all frames
  obtain ⟨hspace2, hleaf2⟩ := hspace1.write (m := blit t1.mem ptr file) fun a hne => by
    right
    by_contra hlt
    exact hne (blit_out (by omega))
  have ht2 := hspace2.builds.own.tables
  have hr := hspace2.builds.root
  have hdata : 0x8000_0000 ≤ ptr ∧ ptr + file.length ≤ kernelEnd := by
    unfold kernelEnd
    omega
  obtain ⟨u, hvisits⟩ := load_elf_into_visits ht2 hr hdata hfits hinto
  obtain ⟨-, -, hup⟩ := each_visits_keeps (within_takes hr hdata) _ ht2 hvisits
  have htop : 4096 * f + 4096 ≤ kernelEnd := by
    unfold kernelEnd
    omega
  obtain ⟨t4', hstore', hpages4, hkept4, hwords⟩ := build_stack_words htop hfit (wadd elf.base_vaddr elf.ph_offset) elf.ph_entry_size
    elf.program_headers.length elf.entry t3
  obtain ⟨-, rfl⟩ := EStateM.Result.ok.inj (hstore.symm.trans hstore')
  have hcur3 : t3.pages.current ≤ 0x8600_0000 := by
    rw [← hpages4]
    exact hroom'
  have hcur2 : t1.pages.current ≤ t3.pages.current := hup
  have haside : Aside ptr file.length r t3.pages.current { t1 with mem := blit t1.mem ptr file } :=
    .beyond ht2 hr (by show t1.pages.current ≤ ptr; omega) (by omega)
  have hfile : ∀ i < file.length, blit t1.mem ptr file (ptr + i) = file.getD i 0 := by
    intro i hi
    rw [blit, patch_in (by omega) (by omega), Nat.add_sub_cancel_left]
  have himage := visits_imaged (fun i => file.getD i 0) hr hdata elf.visits ht2 haside hfile hvisits
    (le_refl _)
  -- the initial stack is written to the topmost page alone
  obtain ⟨hspace3, hkeep3, -⟩ := (load_elf_into_wp hspace2 ptr elf).ok hinto
  have hpage2 : UserPage (blit t1.mem ptr file) r (Vpn.of stackTop) f := by
    obtain ⟨e, he, hf⟩ := hpage
    exact ⟨e, (hleaf2 _).trans he, hf⟩
  have hpage3 := hkeep3.page hpage2
  obtain ⟨-, hkeep4⟩ := hspace3.write_page hpage3 (m := t4.mem) hkept4
  constructor
  · intro ph hph page hmem
    obtain ⟨g, hleaf, hge, hlt, -, hbytes⟩ :=
      himage.loaded ⟨ph, page⟩ (Elf.mem_visits.mpr ⟨hph, hmem⟩)
    have hge' : t1.pages.current ≤ 4096 * g := hge
    have hflags : (PageTableEntry.new g ph.pte_flags.mapped).flags = ph.pte_flags.mapped :=
      PageTableEntry.new_flags (by omega) _
    have hppn : (PageTableEntry.new g ph.pte_flags.mapped).ppn = g := PageTableEntry.new_ppn (by omega) _
    have huser : userLeaf t3.mem r (Vpn.of page) = some (PageTableEntry.new g ph.pte_flags.mapped) := by
      unfold userLeaf
      rw [hleaf, Option.filter_some, if_pos (by rw [hflags]; exact pte_flags_user ph)]
    refine ⟨_, (hkeep4 _ (by rw [huser]; simp)).trans huser, ?_⟩
    intro o ho
    rw [hppn, hkept4 _ (by omega), hbytes o ho]
    exact (hfits ph hph).byte rfl (by omega) hmem (fun _ _ => rfl) ho
  · obtain ⟨htag, hvalue⟩ := stack_vector_phdr argv.length envp.length
      (wadd elf.base_vaddr elf.ph_offset) elf.ph_entry_size elf.program_headers.length elf.entry
    refine ⟨f, hkeep4.page hpage3, ?_, ?_⟩
    · rw [hwords _ (by omega), htag]
      rfl
    · rw [hwords _ (by omega), hvalue]
      exact Nat.mod_eq_of_lt (wadd_lt _ _)

end Program

/-! ## Section 3: The program headers -/

/-- The length of the table of program headers. -/
def Elf.ph_table_size (elf : Elf) : Nat := elf.ph_entry_size * elf.program_headers.length

/-- The image has the program headers of the file at the address for them. -/
def Elf.HeadersAt (elf : Elf) (file : List UInt8) : Prop :=
  ∀ i < elf.ph_table_size, ∃ ph ∈ elf.loads, wadd elf.at_phdr i / 4096 * 4096 ∈ ph.pages ∧
    ph.image file (wadd elf.at_phdr i) = file.getD (elf.ph_offset + i) 0

/-- From the address `addr` on the program can read its headers, in pages of the
    image. -/
def HeadersRead (m : Mem) (r : Nat) (elf : Elf) (file : List UInt8) (addr : Nat) : Prop :=
  ∀ i < elf.ph_table_size, ∃ page ∈ elf.pages, page = wadd addr i / 4096 * 4096 ∧
    ∃ e, userLeaf m r (Vpn.of page) = some e ∧
      m (4096 * e.ppn + wadd addr i % 4096) = file.getD (elf.ph_offset + i) 0

/-- **The headers are found** at the address that stands as `AT_PHDR` on the stack,
    after `argc` arguments and `envc` variables. -/
def FindsHeaders (m : Mem) (r : Nat) (elf : Elf) (file : List UInt8) (argc envc : Nat) : Prop :=
  ∃ f, UserPage m r (Vpn.of stackTop) f ∧ readLE m (4096 * f + 8 * (argc + envc + 5)) 8 = 3 ∧
    HeadersRead m r elf file (readLE m (4096 * f + 8 * (argc + envc + 6)) 8)

section Headers

variable {m : Mem} {r argc envc : Nat} {elf : Elf} {file : List UInt8}

theorem Loaded.headersRead_iff (h : Loaded m r elf file argc envc) :
    HeadersRead m r elf file elf.at_phdr ↔ elf.HeadersAt file := by
  unfold HeadersRead Elf.HeadersAt
  refine forall₂_congr fun i _ => ?_
  generalize wadd elf.at_phdr i = a
  have ha : a / 4096 * 4096 + a % 4096 = a := by omega
  constructor
  · rintro ⟨page, hpage, rfl, e, he, hbyte⟩
    obtain ⟨ph, hph, hmem⟩ := List.mem_flatMap.mp hpage
    obtain ⟨e', he', himage⟩ := h.image ph hph _ hmem
    rw [he'] at he
    cases he
    refine ⟨ph, hph, hmem, ?_⟩
    rw [← hbyte, himage _ (Nat.mod_lt _ (by omega)), ha]
  · rintro ⟨ph, hph, hmem, hbyte⟩
    obtain ⟨e, he, himage⟩ := h.image ph hph _ hmem
    refine ⟨_, List.mem_flatMap.mpr ⟨ph, hph, hmem⟩, rfl, e, he, ?_⟩
    rw [himage _ (Nat.mod_lt _ (by omega)), ha, hbyte]

theorem Loaded.findsHeaders_iff (h : Loaded m r elf file argc envc) :
    FindsHeaders m r elf file argc envc ↔ elf.HeadersAt file := by
  obtain ⟨f, hpage, htag, hvalue⟩ := h.vector
  rw [← h.headersRead_iff]
  constructor
  · rintro ⟨g, hpage', -, hread⟩
    -- the stack has one topmost page
    obtain ⟨e, he, rfl⟩ := hpage
    obtain ⟨e', he', rfl⟩ := hpage'
    rw [he] at he'
    cases he'
    rwa [hvalue] at hread
  · intro hread
    refine ⟨f, hpage, htag, ?_⟩
    rwa [hvalue]

end Headers

/-- A segment that has the headers, at the same distance from the lowest address
    as in the file. -/
theorem headersAt_of_segment {elf : Elf} {file : List UInt8} {ph : ProgramHeader} (hph : ph ∈ elf.loads)
    (hfits : ph.Fits file.length) (hlo : ph.offset ≤ elf.ph_offset)
    (hhi : elf.ph_offset + elf.ph_table_size ≤ ph.offset + ph.filesz)
    (hdist : ph.vaddr = elf.base_vaddr + ph.offset) : elf.HeadersAt file := by
  intro i hi
  have hlow := hfits.low
  have hfile := hfits.file_le
  have haddr : wadd elf.at_phdr i = elf.base_vaddr + elf.ph_offset + i := by
    have hbase : elf.at_phdr = elf.base_vaddr + elf.ph_offset := wadd_of_lt (by omega)
    rw [hbase, wadd_of_lt (by omega)]
  rw [haddr]
  refine ⟨ph, hph, ph.mem_pages_of (Nat.dvd_mul_left _ _) (by omega) (by omega), ?_⟩
  unfold ProgramHeader.image
  rw [if_pos (by omega)]
  congr 1
  omega

section Callers

variable {env : Env} {file : List UInt8} {elf : Elf} {k k' : Kernel} {argv envp : List Path}
  {proc : Process}

/-- A table with nothing but the identity pages. -/
theorem Space.of_kernel {s0 s : Mm} {R K : Set Nat} {r : Nat} (hb : Builds s0 R K r s)
    (hkernel : KernelMapped s.mem r) (hnone : ∀ v, userLeaf s.mem r v = none) : Space s0 R K r s := by
  refine ⟨hb, hkernel, ?_⟩
  intro x hx v e he
  rw [Set.mem_singleton_iff.mp hx, hnone v] at he
  cases he

/-- The first program. -/
theorem init_user_proc_loaded (hparse : env.parse_elf file = some elf)
    (hfits : ∀ ph ∈ elf.loads, ph.Fits file.length) (hboot : Boot k)
    (hroom : k.mm.pages.current + 4096 * bootFrames ≤ 0x8600_0000)
    (hfit : StackFits (argv ++ [utf8 "PATH=/bin"]))
    (hinit : init_user_proc env file argv k = .ok (some ()) k')
    (hroom' : k'.mm.pages.current ≤ 0x8600_0000) (hcur : k'.current = some proc) :
    Loaded k'.mm.mem proc.page_table.root_ppn elf file argv.length 1 := by
  have hend := hboot.frames_end
  have hspaces := noHome_spaces hboot.frames
  unfold bootFrames newFrames at hroom
  obtain ⟨p, elf', max_end, ka, kb, hnew, hload, rfl⟩ := init_user_proc_cases hinit
  obtain ⟨t, hmake, rfl⟩ := Prog.zoom_eq_ok.mp hnew
  obtain ⟨p', hp, hpt, -, hb, hkernel, hnone, hused⟩ := (Process.new_wp
    (hspaces.own.mono (Set.Subset.refl _) (Set.empty_subset _)) 1 (by omega)).ok hmake
  cases hp
  obtain ⟨top, ptr, sp, k1, k2, k3, -, -, hparse', -⟩ := load_program_cases hload
  rw [hparse] at hparse'
  cases hparse'
  have hcur' : (kb.procs.insert 1 (p.first elf max_end argv.length))[1]? = some proc := hcur
  rw [Assoc.get_insert, if_pos rfl] at hcur'
  cases hcur'
  rw [hpt] at hload
  have hroot : (p.first elf max_end argv.length).page_table.root_ppn = k.mm.next := by
    show p.page_table.root_ppn = _
    rw [hpt]
  rw [hroot]
  have hloaded : Loaded kb.mm.mem k.mm.next elf file argv.length 1 :=
    load_program_loaded (k := { k with mm := t }) (.of_kernel hb hkernel hnone) hnone
      ⟨hboot.heap_lo, hboot.heap_hi, hboot.heap_end⟩ (by show t.pages.current + 12288 * 9 ≤ _; omega)
      hfit hfits hload hroom'
  exact hloaded

/-- A program started by `execve`. -/
theorem exec_process_loaded {sp : Nat} (hparse : env.parse_elf file = some elf)
    (hfits : ∀ ph ∈ elf.loads, ph.Fits file.length) (hinv : k.Inv)
    (hroom : k.mm.pages.current + 4096 * newFrames ≤ 0x8600_0000) (hfit : StackFits (argv ++ envp))
    (hexec : exec_process env k.current_pid file argv envp k = .ok (some sp) k')
    (hroom' : k'.mm.pages.current ≤ 0x8600_0000) (hcur : k'.current = some proc) :
    Loaded k'.mm.mem proc.page_table.root_ppn elf file argv.length envp.length := by
  unfold newFrames at hroom
  obtain ⟨parent, hparent, -⟩ := hinv.current
  rcases exec_process_cases hexec with ⟨hno, -⟩ |
    ⟨pt, mm1, mm2, loaded, k3, hnew, hident, hload, hend⟩
  · cases hno
  · rcases hend with ⟨hno, -⟩ | ⟨elf', max_end, -, rfl, rfl⟩
    · cases hno
    · rcases PageTable.new_cases hinv.spaces.own.tables.ok with ⟨hfree, halloc⟩ | ⟨-, halloc⟩
      · rw [halloc] at hnew
        cases hnew
        obtain ⟨hb, hempty⟩ := Builds.new hinv.spaces.own hfree
        obtain ⟨hb2, hkernel2, hnone2, hused2⟩ := (identity_map_wp hb hempty).ok hident
        have hcursor : k.mm.take.pages.current = k.mm.pages.current + 4096 := rfl
        obtain ⟨top, ptr, sp', k1, k2, k4, -, -, hparse', -⟩ := load_program_cases hload
        rw [hparse] at hparse'
        cases hparse'
        have hrest := (rest_load_program env ⟨k.mm.next⟩ file argv envp).of_ok hload
        simp only [Kernel.rest, Prod.mk.injEq] at hrest
        obtain ⟨-, hprocs, hpid, -⟩ := hrest
        have hcur' : (k3.procs.modify k.current_pid (Process.execed ⟨k.mm.next⟩ elf max_end))[k3.current_pid]? =
            some proc := hcur
        rw [hpid, Assoc.get_modify, if_pos rfl, hprocs,
          show k.procs[k.current_pid]? = some parent from hparent] at hcur'
        cases hcur'
        have hloaded : Loaded k3.mm.mem k.mm.next elf file argv.length envp.length :=
          load_program_loaded (k := { k with mm := mm2 }) (.of_kernel hb2 hkernel2 hnone2) hnone2
            hinv.heap (by show mm2.pages.current + 12288 * 9 ≤ _; omega) hfit hfits hload hroom'
        exact hloaded
      · rw [halloc] at hnew
        cases hnew

end Callers

/-! ## Section 4: Programs that can be loaded -/

/-- The file can be loaded into any new address space: its headers are in order,
    and its pages are apart from each other, from the kernel's and from the stack. -/
structure Elf.Startable (elf : Elf) (len : Nat) : Prop where
  readable : readable elf.program_headers = true
  fits : ∀ ph ∈ elf.loads, ph.Fits len
  apart : elf.pages.Nodup
  off_kernel : ∀ page ∈ elf.pages, ∀ p ∈ identityPages, p.1 ≠ page
  off_stack : ∀ page ∈ elf.pages, ∀ i ≤ 8, stackTop - 4096 * i ≠ page

section Start

variable {s0 : Mm} {R K : Set Nat} {r : Nat} {k : Kernel} {env : Env} {elf : Elf}
  {file : List UInt8} {argv envp : List Path}

theorem framesFor_le (m : Mem) (r : Nat) (l : List Nat) : framesFor m r l ≤ 4 * l.length := by
  unfold framesFor pagePaths
  generalize paths m r = X
  induction l generalizing X with
  | nil => rw [List.map_nil, demand_nil]; omega
  | cons page l ih =>
    have hcost : cost X (Vpn.of page).path ≤ 4 := cost_le _ _
    have hrest := ih (grow X (Vpn.of page).path)
    rw [List.map_cons, demand_cons, List.length_cons]
    omega

/-- The pages of the file are unmapped when only the stack has been mapped. -/
theorem Elf.Startable.loadable {m : Mem} (h : elf.Startable file.length) (hkernel : KernelMapped m r)
    (honly : ∀ v, userLeaf m r v ≠ none → ∃ i ≤ 8, v = Vpn.of (stackTop - 4096 * i)) :
    elf.Loadable file.length m r := by
  refine ⟨h.readable, h.fits, h.apart, fun page hpage => ?_⟩
  have hlow : 4096 ∣ page ∧ page < 2 ^ 38 := by
    obtain ⟨ph, hph, hmem⟩ := List.mem_flatMap.mp hpage
    obtain ⟨hdvd, hlt, -⟩ := ph.mem_page hmem
    have := (h.fits ph hph).low
    exact ⟨hdvd, by omega⟩
  cases hleaf : leaf m r (Vpn.of page) with
  | none => rfl
  | some e =>
    cases hU : e.flags.contains .U with
    | false =>
      obtain ⟨p, hp, hv, -⟩ := (hkernel _ e).mp ⟨hleaf, hU⟩
      obtain ⟨hplt, hpal, -⟩ := identityPages_mem hp
      exact absurd (Vpn.of_inj (by omega) (by omega) hlow.1 hpal hv).symm (h.off_kernel page hpage p hp)
    | true =>
      obtain ⟨i, hi, hv⟩ := honly (Vpn.of page) (by simp [userLeaf, hleaf, hU])
      have hstack : stackTop = 0x3f_ffff_f000 := rfl
      exact absurd (Vpn.of_inj (by omega) (by omega) hlow.1 (by omega) hv).symm (h.off_stack page hpage i hi)

/-- **A program that can be loaded** is loaded, if there are frames below the heap. -/
theorem load_program_starts (h : Space s0 R K r k.mm) (hnone : ∀ v, userLeaf k.mm.mem r v = none)
    (hheap : k.heap.Ok) (hend : 0x8600_0000 ≤ k.mm.pages.end_)
    (hroom : k.mm.pages.current + 12288 * 9 + 16384 * elf.pages.length ≤ 0x8600_0000)
    (hfit : StackFits (argv ++ envp)) (hparse : env.parse_elf file = some elf)
    (hstart : elf.Startable file.length) (halloc : (heap_alloc k.heap file.length 4).1 ≠ none) :
    ∃ k', load_program env ⟨r⟩ file argv envp k = .ok (some (elf, elf.max_end)) k' ∧
      k'.mm.pages.current ≤ 0x8600_0000 := by
  have hends := h.builds.end_eq
  -- the stack
  obtain ⟨o, t1, hmap, hspace1, hused1, htop, hfull⟩ :=
    (map_stack_wp h hnone).total fun _ _ he => by omega
  obtain ⟨top, rfl⟩ := Option.ne_none_iff_exists'.mp fun ho => absurd (hfull ho) (by omega)
  obtain ⟨f, rfl, hpage, honly⟩ := htop top rfl
  have hbelow := hspace1.builds.own.user_below r hspace1.builds.root _ f hpage
  -- the copy of the file
  obtain ⟨ptr, heap, hblock⟩ : ∃ ptr heap, heap_alloc k.heap file.length 4 = (some ptr, heap) := by
    rcases hcase : heap_alloc k.heap file.length 4 with ⟨_ | ptr, heap⟩
    · exact absurd (by rw [hcase]) halloc
    · exact ⟨ptr, heap, rfl⟩
  obtain ⟨-, hlo, hhi⟩ := heap_alloc_block hheap hblock
  obtain ⟨hspace2, hleaf2⟩ := hspace1.write (m := blit t1.mem ptr file) fun a hne => by
    right
    by_contra hlt
    exact hne (blit_out (by omega))
  have ht2 := hspace2.builds.own.tables
  have hr := hspace2.builds.root
  have halign : align_elf file { k with mm := t1 } = .ok (some ptr)
      { k with heap := heap, mm := { t1 with mem := blit t1.mem ptr file } } := by
    unfold align_elf
    rw [Prog.bind_run, Prog.get_run]
    dsimp only
    rw [hblock]
    rfl
  -- the segments
  have hload : elf.Loadable file.length (blit t1.mem ptr file) r :=
    hstart.loadable hspace2.kernel fun v hv => honly v (by rwa [hleaf2 v] at hv)
  have hframes := framesFor_le (blit t1.mem ptr file) r elf.pages
  have hend1 := hspace1.builds.end_eq
  have hfile : ∀ i < file.length, blit t1.mem ptr file (ptr + i) = file.getD i 0 := by
    intro i hi
    rw [blit, patch_in (by omega) (by omega), Nat.add_sub_cancel_left]
  obtain ⟨t3, hinto, himage⟩ := load_elf_imaged ht2 hr (by unfold kernelEnd; omega) hload
    (.beyond ht2 hr (by show t1.pages.current ≤ ptr; omega)
      (by show t1.pages.current + 4096 * framesFor (blit t1.mem ptr file) r elf.pages ≤ ptr; omega))
    hfile (by show t1.pages.current + 4096 * framesFor (blit t1.mem ptr file) r elf.pages ≤ t1.pages.end_; omega)
  have hused3 : t3.pages.current =
      t1.pages.current + 4096 * framesFor (blit t1.mem ptr file) r (pagesOf elf.visits) := himage.used
  rw [elf.pagesOf_visits] at hused3
  -- the initial contents of the stack
  have htop : 4096 * f + 4096 ≤ kernelEnd := by
    unfold kernelEnd
    omega
  obtain ⟨t4, hstore, hpages4, -⟩ := build_stack_words htop hfit (wadd elf.base_vaddr elf.ph_offset) elf.ph_entry_size
    elf.program_headers.length elf.entry t3
  refine ⟨{ k with heap := heap, mm := t4 }, ?_, ?_⟩
  · unfold load_program
    rw [Prog.bind_of_ok (KM.mm_of_ok hmap)]
    dsimp only
    rw [Prog.bind_of_ok halign]
    dsimp only
    rw [hparse]
    dsimp only
    rw [Prog.bind_of_ok (KM.mm_of_ok hinto)]
    dsimp only
    rw [Prog.bind_of_ok (KM.mm_of_ok hstore)]
    rfl
  · show t4.pages.current ≤ _
    rw [hpages4]
    omega

/-- The first program is started. -/
theorem init_user_proc_starts (hboot : Boot k)
    (hroom : k.mm.pages.current + 4096 * bootFrames + 16384 * elf.pages.length ≤ 0x8600_0000)
    (hfit : StackFits (argv ++ [utf8 "PATH=/bin"])) (hparse : env.parse_elf file = some elf)
    (hstart : elf.Startable file.length) (halloc : (heap_alloc k.heap file.length 4).1 ≠ none) :
    ∃ k' proc, init_user_proc env file argv k = .ok (some ()) k' ∧ k'.current = some proc ∧
      k'.mm.pages.current ≤ 0x8600_0000 := by
  have hend := hboot.frames_end
  have hspaces := noHome_spaces hboot.frames
  unfold bootFrames newFrames at hroom
  obtain ⟨o, t, hnew, proc, rfl, hpt, -, hb, hkernel, hnone, hused⟩ := (Process.new_wp
    (hspaces.own.mono (Set.Subset.refl _) (Set.empty_subset _)) 1 (by omega)).total fun _ _ he => he
  have hends := hb.end_eq
  obtain ⟨k2, hload, hroom2⟩ := load_program_starts (k := { k with mm := t })
    (.of_kernel hb hkernel hnone) hnone
    ⟨hboot.heap_lo, hboot.heap_hi, hboot.heap_end⟩ (by show _ ≤ t.pages.end_; omega)
    (by show t.pages.current + 12288 * 9 + 16384 * elf.pages.length ≤ _; omega) hfit hparse hstart halloc
  rw [← hpt] at hload
  refine ⟨{ k2 with
    current_pid := 1
    procs := k2.procs.insert 1 (proc.first elf elf.max_end argv.length)
    next_pid := 2 }, proc.first elf elf.max_end argv.length, ?_, ?_, hroom2⟩
  · unfold init_user_proc
    rw [Prog.bind_of_ok (KM.mm_of_ok hnew)]
    dsimp only
    rw [Prog.bind_of_ok hload]
    rfl
  · show (k2.procs.insert 1 _)[1]? = _
    rw [Assoc.get_insert, if_pos rfl]

end Start

/-- An environment in which every file has these headers. -/
def Env.loading (elf : Elf) : Env := { Env.idle with parse_elf := fun _ => some elf }

/-- The bytes of the file are their own positions. -/
def countFile : List UInt8 := (List.range 0x80).map UInt8.ofNat

/-- The headers are in the only segment, which begins at the start of the file, or
    with the headers. -/
def wholeElf : Elf := ⟨0x10000, 64, 56, [⟨some true, 0x10000, 0x80, 0x80, 0, true, false, true⟩]⟩

def partElf : Elf := ⟨0x10000, 64, 56, [⟨some true, 0x10000, 56, 56, 64, true, false, true⟩]⟩

/-- A file with one segment in the page `0x10000`. -/
theorem startable_of_page {elf : Elf} {ph : ProgramHeader} {len : Nat} (hloads : elf.loads = [ph])
    (hread : readable elf.program_headers = true) (hfits : ph.Fits len) (hpages : ph.pages = [0x10000]) :
    elf.Startable len := by
  have hpage : elf.pages = [0x10000] := by
    unfold Elf.pages
    rw [hloads, List.flatMap_singleton, hpages]
  refine ⟨hread, ?_, ?_, ?_, ?_⟩
  · intro p hp
    rw [hloads, List.mem_singleton] at hp
    rw [hp]
    exact hfits
  · rw [hpage]
    exact List.nodup_singleton _
  · intro page hmem p hp
    rw [hpage, List.mem_singleton] at hmem
    obtain ⟨-, -, -, hregion⟩ := identityPages_mem hp
    rw [hmem]
    simp only [Finset.mem_union, Finset.mem_Icc, Finset.mem_insert, Finset.mem_singleton] at hregion
    omega
  · intro page hmem i hi
    rw [hpage, List.mem_singleton] at hmem
    have hstack : stackTop = 0x3f_ffff_f000 := rfl
    omega

theorem countFile_length : countFile.length = 0x80 := by
  unfold countFile
  rw [List.length_map, List.length_range]

theorem wholeElf_fits : ∀ ph ∈ wholeElf.loads, ph.Fits countFile.length := by
  intro ph hph
  have hwhole : ph ∈ [(⟨some true, 0x10000, 0x80, 0x80, 0, true, false, true⟩ : ProgramHeader)] := hph
  rw [List.mem_singleton.mp hwhole, countFile_length]
  exact ⟨by decide, by decide, by decide, by decide⟩

theorem partElf_fits : ∀ ph ∈ partElf.loads, ph.Fits countFile.length := by
  intro ph hph
  have hpart : ph ∈ [(⟨some true, 0x10000, 56, 56, 64, true, false, true⟩ : ProgramHeader)] := hph
  rw [List.mem_singleton.mp hpart, countFile_length]
  exact ⟨by decide, by decide, by decide, by decide⟩

/-- A program with one page is started on a new machine. -/
theorem bootKernel_starts {elf : Elf} {ph : ProgramHeader} (hloads : elf.loads = [ph])
    (hread : readable elf.program_headers = true) (hfits : ph.Fits countFile.length)
    (hpages : ph.pages = [0x10000]) :
    ∃ k' proc, init_user_proc (Env.loading elf) countFile [] bootKernel = .ok (some ()) k' ∧
      k'.current = some proc ∧ k'.mm.pages.current ≤ 0x8600_0000 := by
  have hlen : elf.pages.length = 1 := by
    unfold Elf.pages
    rw [hloads, List.flatMap_singleton, hpages]
    rfl
  refine init_user_proc_starts bootKernel_boot (by rw [hlen]; decide) path_fits rfl
    (startable_of_page hloads hread hfits hpages) ?_
  rw [countFile_length]
  decide +kernel

end Rvos

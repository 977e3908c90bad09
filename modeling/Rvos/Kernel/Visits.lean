import Rvos.Kernel.Load
import Rvos.Mm.Demand

/-! # The loader's page loop

    `load_elf_into` takes its numbers from the headers of the file, and these can
    be anything: a segment may be empty, may wrap around the address space, share
    its pages with another one, or name bytes that the file does not have.

    * `load_elf_within` : the loader, stopped before it reads outside the file or
      writes outside the frame of the page.
    * `visits` : the pages that the headers make it go through.
    * `load_cleanly_iff` : it returns just if it gets through these pages, all
      unmapped and within bounds, until they end or the frames are used up. -/

namespace Rvos

open Access ByteMem Usize Trie

/-! ## Section 1: The loader with bounds -/

def ProgramHeader.first_page (ph : ProgramHeader) : Nat := ph.vaddr &&& bnot (PAGE_SIZE - 1)

def ProgramHeader.last_page (ph : ProgramHeader) : Nat :=
  wsub ph.seg_mem_end 1 &&& bnot (PAGE_SIZE - 1)

/-- The part of a page that comes from the file. -/
def ProgramHeader.file_start (ph : ProgramHeader) (page : Nat) : Nat := max page ph.vaddr

def ProgramHeader.file_end (ph : ProgramHeader) (page : Nat) : Nat :=
  min (wadd page PAGE_SIZE) ph.seg_file_end

/-- Where the file has the bytes of a page. -/
def ProgramHeader.copy_offset (ph : ProgramHeader) (page : Nat) : Nat :=
  wadd ph.offset (ph.file_start page - ph.vaddr)

/-- `load_page` for a file of `len` bytes, stopped before an access that leaves
    the file or the page's frame. -/
def load_page_within (len : Nat) (pt : PageTable) (data : Nat) (ph : ProgramHeader) (page : Nat) :
    MmM (Option PUnit) := do
  match ← alloc_page with
  | none => return none
  | some paddr =>
    pt.map page paddr ph.pte_flags
    if ph.zero_len page > PAGE_SIZE then
      throw (.fault (paddr + PAGE_SIZE))
    phys_zero paddr (ph.zero_len page)
    if ph.file_end page > ph.file_start page then
      let copy_len := ph.file_end page - ph.file_start page
      if ph.copy_offset page + copy_len > len then
        throw (.fault (data + len))
      if ph.file_start page - page + copy_len > PAGE_SIZE then
        throw (.fault (paddr + PAGE_SIZE))
      phys_copy (wadd data (ph.copy_offset page)) (paddr + (ph.file_start page - page)) copy_len
    return some ⟨⟩

/-- The loops of the loader, for any way to load a page. -/
def load_pages_with (turn : Nat → MmM (Option PUnit)) (last_page : Nat) :
    (fuel page : Nat) → MmM (Option PUnit)
  | 0, _ => throw .spin
  | fuel + 1, page => do
    if page > last_page then
      return some ⟨⟩
    match ← turn page with
    | none => return none
    | some _ => load_pages_with turn last_page fuel (wadd page PAGE_SIZE)

def load_segment_with (turn : ProgramHeader → Nat → MmM (Option PUnit)) (ph : ProgramHeader) :
    MmM (Option PUnit) := do
  match ph.load with
  | none => return none
  | some false => return some ⟨⟩
  | some true =>
    let s ← get
    load_pages_with (turn ph) ph.last_page (s.pages.end_ - s.pages.current + 1) ph.first_page

def load_elf_with (turn : ProgramHeader → Nat → MmM (Option PUnit)) (elf : Elf) :
    MmM (Option Nat) := do
  let r ← Prog.each (load_segment_with turn) elf.program_headers
  return r.map fun _ => elf.max_end

/-- `load_elf_into` with bounds. -/
def load_elf_within (len : Nat) (pt : PageTable) (data : Nat) (elf : Elf) : MmM (Option Nat) :=
  load_elf_with (load_page_within len pt data) elf

theorem load_pages_eq (pt : PageTable) (data : Nat) (ph : ProgramHeader) (last_page fuel : Nat) :
    ∀ page, load_pages pt data ph last_page fuel page =
      load_pages_with (load_page pt data ph) last_page fuel page := by
  induction fuel with
  | zero => exact fun _ => rfl
  | succ fuel ih =>
    intro page
    rw [load_pages, load_pages_with]
    by_cases hlast : page > last_page
    · rw [if_pos hlast, if_pos hlast]
    · rw [if_neg hlast, if_neg hlast]
      refine congrArg (load_page pt data ph page >>= ·) (funext fun o => ?_)
      cases o with
      | none => rfl
      | some u => exact ih _

/-- The loader of the source is the one without bounds. -/
theorem load_elf_into_eq (pt : PageTable) (data : Nat) (elf : Elf) :
    load_elf_into pt data elf = load_elf_with (load_page pt data) elf := by
  have hseg : load_segment pt data = load_segment_with (load_page pt data) := by
    funext ph
    unfold load_segment load_segment_with ProgramHeader.last_page ProgramHeader.first_page
    cases hload : ph.load with
    | none => rfl
    | some b =>
      cases b with
      | false => rfl
      | true =>
        dsimp only
        simp only [load_pages_eq]
  unfold load_elf_into load_elf_with
  rw [hseg]

/-! ## Section 2: The pages gone through -/

/-- One turn of the page loop. -/
structure Visit where
  ph : ProgramHeader
  page : Nat
  deriving DecidableEq, Repr

/-- The turns for one segment from a page on, `fuel` of them at most. -/
def ProgramHeader.visits (ph : ProgramHeader) : (fuel page : Nat) → List Visit
  | 0, _ => []
  | fuel + 1, page =>
    if page > ph.last_page then [] else ⟨ph, page⟩ :: ph.visits fuel (wadd page PAGE_SIZE)

/-- The turns for all segments, up to a header of invalid type. -/
def visits (fuel : Nat) : List ProgramHeader → List Visit
  | [] => []
  | ph :: rest =>
    match ph.load with
    | none => []
    | some false => visits fuel rest
    | some true => ph.visits fuel ph.first_page ++ visits fuel rest

/-- No header has an invalid type. -/
def readable (hs : List ProgramHeader) : Bool := hs.all fun ph => ph.load.isSome

/-- The turn for a visit. -/
def Visit.run (turn : ProgramHeader → Nat → MmM (Option PUnit)) (v : Visit) : MmM (Option PUnit) :=
  turn v.ph v.page

/-- While `I` holds, a turn that loads its page takes a frame. -/
structure TakesFrame (I : Mm → Prop) (turn : ProgramHeader → Nat → MmM (Option PUnit)) : Prop where
  le_end : ∀ s, I s → s.pages.current ≤ s.pages.end_
  step : ∀ v s t u, I s → Visit.run turn v s = .ok (some u) t →
    I t ∧ t.pages.end_ = s.pages.end_ ∧ s.pages.current + 4096 ≤ t.pages.current

section Reduce

variable {turn : ProgramHeader → Nat → MmM (Option PUnit)} {I : Mm → Prop}

/-- The page loop is a loop over its visits, whatever the fuel is, if it is more
    than the frames there are. -/
theorem load_pages_with_eq (hturn : TakesFrame I turn) (ph : ProgramHeader) (fuel : Nat) :
    ∀ (K page : Nat) (s : Mm), I s → s.pages.end_ < s.pages.current + 4096 * fuel →
      s.pages.end_ < s.pages.current + 4096 * K →
      load_pages_with (turn ph) ph.last_page fuel page s =
        Prog.each (Visit.run turn) (ph.visits K page) s := by
  induction fuel with
  | zero =>
    intro K page s hI hfuel _
    have := hturn.le_end s hI
    omega
  | succ fuel ih =>
    intro K page s hI hfuel hK
    have hle := hturn.le_end s hI
    obtain ⟨K, rfl⟩ : ∃ K', K = K' + 1 := ⟨K - 1, by omega⟩
    rw [load_pages_with, ProgramHeader.visits]
    by_cases hlast : page > ph.last_page
    · rw [if_pos hlast, if_pos hlast]
      rfl
    · rw [if_neg hlast, if_neg hlast]
      cases hrun : Visit.run turn ⟨ph, page⟩ s with
      | error e t => exact (Prog.bind_of_error hrun).trans (Prog.each_cons_error hrun).symm
      | ok o t =>
        refine (Prog.bind_of_ok hrun).trans ?_
        cases o with
        | none => exact (Prog.each_cons_none hrun).symm
        | some u =>
          obtain ⟨hI', hend, htakes⟩ := hturn.step _ s t u hI hrun
          refine Eq.trans ?_ (Prog.each_cons_some hrun).symm
          exact ih K _ t hI' (by omega) (by omega)

theorem load_segment_with_load (turn : ProgramHeader → Nat → MmM (Option PUnit)) {ph : ProgramHeader}
    (hload : ph.load = some true) (s : Mm) : load_segment_with turn ph s =
      load_pages_with (turn ph) ph.last_page (s.pages.end_ - s.pages.current + 1) ph.first_page s := by
  unfold load_segment_with
  rw [hload]
  dsimp only
  rw [Prog.bind_run, Prog.get_run]

/-- A loop over visits keeps `I`, and takes frames. -/
theorem each_visits_keeps (hturn : TakesFrame I turn) (l : List Visit) : ∀ {s t : Mm} {u : PUnit},
    I s → Prog.each (Visit.run turn) l s = .ok (some u) t →
    I t ∧ t.pages.end_ = s.pages.end_ ∧ s.pages.current ≤ t.pages.current := by
  induction l with
  | nil =>
    intro s t u hI hrun
    cases hrun
    exact ⟨hI, rfl, le_refl _⟩
  | cons v l ih =>
    intro s t u hI hrun
    cases hv : Visit.run turn v s with
    | error e s1 =>
      rw [Prog.each_cons_error hv] at hrun
      cases hrun
    | ok o s1 =>
      cases o with
      | none =>
        rw [Prog.each_cons_none hv] at hrun
        cases hrun
      | some u1 =>
        rw [Prog.each_cons_some hv] at hrun
        obtain ⟨hI1, hend1, hcur1⟩ := hturn.step v s s1 u1 hI hv
        obtain ⟨hI2, hend2, hcur2⟩ := ih hI1 hrun
        exact ⟨hI2, hend2.trans hend1, by omega⟩

/-- **The loader is a loop over its visits**; a header of invalid type makes it
    return `None`. -/
theorem load_segments_eq (hturn : TakesFrame I turn) (hs : List ProgramHeader) :
    ∀ (K : Nat) (s : Mm), I s → s.pages.end_ < s.pages.current + 4096 * K →
      Prog.each (load_segment_with turn) hs s =
        (Prog.each (Visit.run turn) (visits K hs) >>= fun o =>
          pure (o.filter fun _ => readable hs)) s := by
  induction hs with
  | nil =>
    intro K s _ _
    rfl
  | cons ph rest ih =>
    intro K s hI hK
    cases hload : ph.load with
    | none =>
      have hseg : load_segment_with turn ph s = .ok none s := by
        unfold load_segment_with
        rw [hload]
        rfl
      have hvisits : visits K (ph :: rest) = [] := by
        rw [visits, hload]
      have hread : readable (ph :: rest) = false := by
        simp [readable, hload]
      rw [Prog.each_cons_none hseg, hvisits, hread]
      rfl
    | some b =>
      have hread : readable (ph :: rest) = readable rest := by
        simp [readable, hload]
      cases b with
      | false =>
        have hseg : load_segment_with turn ph s = .ok (some ⟨⟩) s := by
          unfold load_segment_with
          rw [hload]
          rfl
        have hvisits : visits K (ph :: rest) = visits K rest := by
          rw [visits, hload]
        rw [Prog.each_cons_some hseg, hvisits, hread]
        exact ih K s hI hK
      | true =>
        have hseg : load_segment_with turn ph s =
            Prog.each (Visit.run turn) (ph.visits K ph.first_page) s := by
          have hle := hturn.le_end s hI
          rw [load_segment_with_load turn hload]
          exact load_pages_with_eq hturn ph _ K _ s hI (by omega) hK
        have hvisits : visits K (ph :: rest) = ph.visits K ph.first_page ++ visits K rest := by
          rw [visits, hload]
        rw [hvisits, hread, Prog.each_append, Prog.bind_run, Prog.bind_run]
        cases hrun : Prog.each (Visit.run turn) (ph.visits K ph.first_page) s with
        | error e t =>
          rw [hrun] at hseg
          exact Prog.each_cons_error hseg
        | ok o t =>
          rw [hrun] at hseg
          cases o with
          | none => exact Prog.each_cons_none hseg
          | some u =>
            obtain ⟨hI', hend, hcur⟩ := each_visits_keeps hturn _ hI hrun
            refine (Prog.each_cons_some hseg).trans ?_
            rw [ih K t hI' (by omega), Prog.bind_run]
            rfl

end Reduce

/-! ## Section 3: One visit -/

/-- A visit stays within the file and within the frame of its page. -/
def Visit.Within (len : Nat) (v : Visit) : Prop :=
  v.ph.zero_len v.page ≤ PAGE_SIZE ∧
    (v.ph.file_start v.page < v.ph.file_end v.page →
      v.ph.copy_offset v.page + (v.ph.file_end v.page - v.ph.file_start v.page) ≤ len)

/-- The bytes that a visit is to leave in its page, from those of the file. -/
def Visit.byte (v : Visit) (file : Nat → UInt8) (o : Nat) : UInt8 :=
  if v.ph.file_start v.page ≤ v.page + o ∧ v.page + o < v.ph.file_end v.page then
    file (v.ph.copy_offset v.page + (v.page + o - v.ph.file_start v.page))
  else 0

/-- The bytes at `data` lie neither in a node of the table nor in the free frames
    up to `hi`. -/
def Aside (data len r hi : Nat) (s : Mm) : Prop :=
  ∀ i < len, (data + i < s.pages.current ∨ hi ≤ data + i) ∧
    ∀ p f, p.length ≤ 2 → node s.mem r p = some f → ¬ (4096 * f ≤ data + i ∧ data + i < 4096 * f + 4096)

section One

variable {s t : Mm} {R : Set Nat} {r data len : Nat} {v : Visit}

theorem Visit.dest_le (v : Visit) (h : v.ph.file_start v.page < v.ph.file_end v.page) :
    v.ph.file_start v.page - v.page + (v.ph.file_end v.page - v.ph.file_start v.page) ≤ PAGE_SIZE := by
  have hadd : wadd v.page PAGE_SIZE ≤ v.page + PAGE_SIZE := by
    unfold wadd
    exact Nat.mod_le _ _
  unfold ProgramHeader.file_start ProgramHeader.file_end at *
  omega

theorem within_full (h : alloc_page s = .ok none s) :
    Visit.run (load_page_within len ⟨r⟩ data) v s = .ok none s := by
  unfold Visit.run load_page_within
  rw [Prog.bind_of_ok h]
  rfl

/-- The part of a visit that follows the mapping. -/
def load_bytes_within (len data : Nat) (v : Visit) (paddr : Nat) : MmM (Option PUnit) := do
  if v.ph.zero_len v.page > PAGE_SIZE then
    throw (.fault (paddr + PAGE_SIZE))
  phys_zero paddr (v.ph.zero_len v.page)
  if v.ph.file_end v.page > v.ph.file_start v.page then
    let copy_len := v.ph.file_end v.page - v.ph.file_start v.page
    if v.ph.copy_offset v.page + copy_len > len then
      throw (.fault (data + len))
    if v.ph.file_start v.page - v.page + copy_len > PAGE_SIZE then
      throw (.fault (paddr + PAGE_SIZE))
    phys_copy (wadd data (v.ph.copy_offset v.page)) (paddr + (v.ph.file_start v.page - v.page))
      copy_len
  return some ⟨⟩

theorem within_eq (hroom : alloc_page s = .ok (some s.pages.current) s.take) :
    Visit.run (load_page_within len ⟨r⟩ data) v s =
      (PageTable.map ⟨r⟩ v.page s.pages.current v.ph.pte_flags >>= fun _ =>
        load_bytes_within len data v s.pages.current) s.take := by
  unfold Visit.run load_page_within
  rw [Prog.bind_of_ok hroom]
  rfl

theorem phys_zero_run {a n : Nat} (h : a + n ≤ kernelEnd) (t : Mm) :
    phys_zero a n t = .ok ⟨⟩ { t with mem := fill t.mem a n 0 } := by
  unfold phys_zero
  rw [if_neg (by omega)]
  rfl

theorem phys_copy_run {src dst n : Nat} (hlo : 0x8000_0000 ≤ src) (hsrc : src + n ≤ kernelEnd)
    (hdst : dst + n ≤ kernelEnd) (t : Mm) :
    phys_copy src dst n t = .ok ⟨⟩ { t with mem := ByteMem.copy t.mem dst src n } := by
  unfold phys_copy
  rw [if_neg (by omega)]
  rfl

/-- The bytes of a page, for a visit that stays within bounds. -/
theorem load_bytes_run (hdata : 0x8000_0000 ≤ data ∧ data + len ≤ kernelEnd) {paddr : Nat}
    (hpaddr : paddr + 4096 ≤ kernelEnd) (hw : v.Within len) (t : Mm)
    (hzero : ∀ a, paddr ≤ a → a < paddr + 4096 → t.mem a = 0) :
    ∃ m, load_bytes_within len data v paddr t = .ok (some ⟨⟩) { t with mem := m } ∧
      (∀ a, a < paddr ∨ paddr + 4096 ≤ a → m a = t.mem a) ∧
      ((∀ i < len, data + i < paddr ∨ paddr + 4096 ≤ data + i) →
        ∀ o < 4096, m (paddr + o) = v.byte (fun i => t.mem (data + i)) o) := by
  obtain ⟨hlen, hcopy⟩ := hw
  have hlen' : ¬ v.ph.zero_len v.page > PAGE_SIZE := by omega
  have hfill : paddr + v.ph.zero_len v.page ≤ kernelEnd := by unfold PAGE_SIZE at hlen; omega
  have hzeroed : ∀ a, fill t.mem paddr (v.ph.zero_len v.page) 0 a = t.mem a := by
    intro a
    by_cases hin : paddr ≤ a ∧ a < paddr + v.ph.zero_len v.page
    · unfold PAGE_SIZE at hlen
      rw [fill_in hin.1 hin.2, hzero a hin.1 (by omega)]
    · exact fill_out (by omega)
  have hmem : fill t.mem paddr (v.ph.zero_len v.page) 0 = t.mem := funext hzeroed
  have hrun : phys_zero paddr (v.ph.zero_len v.page) t = .ok ⟨⟩ t := by
    rw [phys_zero_run (by omega), hmem]
  unfold load_bytes_within
  dsimp only
  rw [if_neg hlen']
  by_cases hfile : v.ph.file_end v.page > v.ph.file_start v.page
  · -- the bytes of the file
    have hsrc := hcopy hfile
    have hdst := v.dest_le hfile
    have hadd : wadd data (v.ph.copy_offset v.page) = data + v.ph.copy_offset v.page := by
      unfold kernelEnd at hdata
      exact wadd_of_lt (by omega)
    have hstart : v.page ≤ v.ph.file_start v.page := Nat.le_max_left _ _
    refine ⟨ByteMem.copy t.mem (paddr + (v.ph.file_start v.page - v.page))
      (data + v.ph.copy_offset v.page) (v.ph.file_end v.page - v.ph.file_start v.page), ?_, ?_, ?_⟩
    · rw [Prog.bind_of_ok hrun, if_pos hfile, hadd, if_neg (by omega), if_neg (by omega), Prog.bind_of_ok (phys_copy_run ?_ ?_ ?_ t)]
      · rfl
      · omega
      · omega
      · unfold PAGE_SIZE at hdst
        omega
    · intro a ha
      unfold PAGE_SIZE at hdst
      exact copy_out (by omega)
    · intro hout o ho
      unfold Visit.byte
      by_cases hin : v.ph.file_start v.page ≤ v.page + o ∧ v.page + o < v.ph.file_end v.page
      · rw [if_pos hin, ByteMem.copy_in (by omega) (by omega)]
        congr 1
        omega
      · rw [if_neg hin, copy_out (by omega)]
        exact hzero _ (by omega) (by omega)
  · refine ⟨t.mem, ?_, fun _ _ => rfl, ?_⟩
    · rw [Prog.bind_of_ok hrun, if_neg hfile]
      rfl
    · intro _ o ho
      unfold Visit.byte
      rw [if_neg (by omega)]
      exact hzero _ (by omega) (by omega)

/-- A visit that leaves its bounds is stopped. -/
theorem load_bytes_stops {paddr : Nat} (hw : ¬ v.Within len) (t : Mm) (o : Option PUnit) (t' : Mm) :
    load_bytes_within len data v paddr t ≠ .ok o t' := by
  intro hrun
  apply hw
  unfold load_bytes_within at hrun
  by_cases hlen : v.ph.zero_len v.page > PAGE_SIZE
  · rw [if_pos hlen] at hrun
    cases hrun
  · rw [if_neg hlen] at hrun
    refine ⟨by omega, fun hfile => ?_⟩
    obtain ⟨⟨⟩, t1, -, hrun⟩ := Prog.bind_eq_ok.mp hrun
    rw [if_pos hfile] at hrun
    by_contra hsrc
    rw [if_pos (by omega)] at hrun
    cases hrun

/-- **A visit to an unmapped page** with frames for it and its nodes. -/
theorem within_fits (ht : Tables s R) (hr : r ∈ R)
    (hdata : 0x8000_0000 ≤ data ∧ data + len ≤ kernelEnd)
    (hnone : leaf s.mem r (Vpn.of v.page) = none)
    (hfit : s.pages.current + 4096 * cost (paths s.mem r) (Vpn.of v.page).path ≤ s.pages.end_)
    (hw : v.Within len) :
    ∃ t, Visit.run (load_page_within len ⟨r⟩ data) v s = .ok (some ⟨⟩) t ∧
      Placed R r v.ph.pte_flags (Vpn.of v.page) s t ∧
      ∀ hi, t.pages.current ≤ hi → Aside data len r hi s → ∀ o < 4096,
        t.mem (s.pages.current + o) = v.byte (fun i => s.mem (data + i)) o := by
  have hpos := cost_pos (leaf_eq_none_iff.mp hnone)
  have hend := ht.ok.end_le
  rcases alloc_page_cases ht.ok with ⟨hroom, halloc⟩ | ⟨hfull, -⟩
  · rw [within_eq halloc]
    rcases place_exact ht hr hroom v.ph.pte_flags hnone with ⟨-, t, hmap, hp, hzero⟩ | ⟨hfull, -⟩
    · obtain ⟨m, hbytes, hkept, hcontents⟩ := load_bytes_run (v := v) hdata
        (show s.pages.current + 4096 ≤ kernelEnd by unfold kernelEnd; omega) hw t hzero
      refine ⟨_, (Prog.bind_of_ok hmap).trans hbytes, hp.write hr ht.ok hkept, ?_⟩
      intro hi hle haside o ho
      have hle' : t.pages.current ≤ hi := hle
      have hup := hp.room
      refine (hcontents (fun i hi => by have := (haside i hi).1; omega) o ho).trans ?_
      -- the file has not been touched by the mapping
      unfold Visit.byte
      split
      · next hin =>
        have hi : v.ph.copy_offset v.page + (v.page + o - v.ph.file_start v.page) < len := by
          have := hw.2 (by omega)
          omega
        by_contra hne
        obtain ⟨hout, hnodes⟩ := haside _ hi
        rcases hp.grows.bytes _ hne with ⟨p, f, hp2, hf, h1, h2⟩ | hfresh
        · exact hnodes p f hp2 hf ⟨h1, h2⟩
        · omega
      · rfl
    · omega
  · omega

/-- A visit that loads its page. -/
theorem within_some (ht : Tables s R) (hr : r ∈ R) {u : PUnit}
    (h : Visit.run (load_page_within len ⟨r⟩ data) v s = .ok (some u) t) :
    leaf s.mem r (Vpn.of v.page) = none ∧
      s.pages.current + 4096 * cost (paths s.mem r) (Vpn.of v.page).path ≤ s.pages.end_ ∧
      v.Within len := by
  rcases alloc_page_cases ht.ok with ⟨hroom, halloc⟩ | ⟨-, halloc⟩
  · rw [within_eq halloc] at h
    obtain ⟨⟨⟩, t1, hmap, hbytes⟩ := Prog.bind_eq_ok.mp h
    have hw : v.Within len := by
      by_contra hw
      exact load_bytes_stops hw t1 _ t hbytes
    have hnone : leaf s.mem r (Vpn.of v.page) = none := by
      have hok := ht.ok
      have := hok.le_end
      have := hok.end_le
      have hwas := (map_spec (tables_take ht hroom) hr (by omega) hmap).was
      rwa [leaf_of_same (same_take ht hr)] at hwas
    refine ⟨hnone, ?_, hw⟩
    rcases place_exact ht hr hroom v.ph.pte_flags hnone with ⟨hfit, -⟩ | ⟨-, t2, hmap2⟩
    · exact hfit
    · rw [hmap2] at hmap
      cases hmap
  · rw [within_full halloc] at h
    cases h

/-- A visit that finds no frame. -/
theorem within_none (ht : Tables s R)
    (h : Visit.run (load_page_within len ⟨r⟩ data) v s = .ok none t) :
    s.pages.end_ < s.pages.current + 4096 := by
  rcases alloc_page_cases ht.ok with ⟨-, halloc⟩ | ⟨hfull, -⟩
  · rw [within_eq halloc] at h
    obtain ⟨⟨⟩, t1, -, hbytes⟩ := Prog.bind_eq_ok.mp h
    unfold load_bytes_within at hbytes
    dsimp only at hbytes
    split at hbytes
    · cases hbytes
    · obtain ⟨⟨⟩, t2, -, hbytes⟩ := Prog.bind_eq_ok.mp hbytes
      split at hbytes
      · split at hbytes
        · cases hbytes
        · split at hbytes
          · cases hbytes
          · obtain ⟨⟨⟩, t3, -, hbytes⟩ := Prog.bind_eq_ok.mp hbytes
            cases hbytes
      · cases hbytes
  · exact hfull

/-- A turn takes a frame. -/
theorem within_takes (hr : r ∈ R) (hdata : 0x8000_0000 ≤ data ∧ data + len ≤ kernelEnd) :
    TakesFrame (fun s => Tables s R) (load_page_within len ⟨r⟩ data) where
  le_end := fun s ht => ht.ok.le_end
  step := by
    intro v s t u ht hrun
    obtain ⟨hnone, hfit, hw⟩ := within_some ht hr hrun
    obtain ⟨t', hrun', hp, -⟩ := within_fits ht hr hdata hnone hfit hw
    rw [hrun'] at hrun
    cases hrun
    exact ⟨hp.grows.tables, hp.grows.end_eq, hp.room⟩

end One

/-! ## Section 4: All visits -/

/-- The visits of `l` can all be made: their pages are different and unmapped, and
    they stay within bounds. -/
structure Visitable (m : Mem) (r len : Nat) (l : List Visit) : Prop where
  apart : (l.map fun v => Vpn.of v.page).Nodup
  unmapped : ∀ v ∈ l, leaf m r (Vpn.of v.page) = none
  within : ∀ v ∈ l, v.Within len

/-- The addresses that are visited. -/
def pagesOf (l : List Visit) : List Nat := l.map (·.page)

section All

variable {s t : Mm} {R : Set Nat} {r data len : Nat} {v : Visit} {l : List Visit}

theorem Visitable.nil (m : Mem) (r len : Nat) : Visitable m r len [] :=
  ⟨List.nodup_nil, fun _ h => absurd h List.not_mem_nil, fun _ h => absurd h List.not_mem_nil⟩

/-- After the first visit the others can still be made. -/
theorem Visitable.next (hr : r ∈ R) (h : Visitable s.mem r len (v :: l))
    (hp : Placed R r v.ph.pte_flags (Vpn.of v.page) s t) : Visitable t.mem r len l := by
  have hnodup := List.nodup_cons.mp h.apart
  refine ⟨hnodup.2, fun w hw => ?_, fun w hw => h.within w (List.mem_cons_of_mem _ hw)⟩
  rw [hp.others r hr _ fun heq => hnodup.1 ?_]
  · exact h.unmapped w (List.mem_cons_of_mem _ hw)
  · exact List.mem_map.mpr ⟨w, hw, heq.2⟩

theorem Visitable.cons (hr : r ∈ R) (hp : Placed R r v.ph.pte_flags (Vpn.of v.page) s t)
    (hw : v.Within len) (h : Visitable t.mem r len l) : Visitable s.mem r len (v :: l) := by
  have hne : ∀ w ∈ l, Vpn.of w.page ≠ Vpn.of v.page := by
    intro w hw heq
    have := h.unmapped w hw
    rw [heq, hp.entry] at this
    cases this
  refine ⟨List.nodup_cons.mpr ⟨?_, h.apart⟩, ?_, ?_⟩
  · intro hmem
    obtain ⟨w, hw, heq⟩ := List.mem_map.mp hmem
    exact hne w hw heq
  · intro w hw
    rcases List.mem_cons.mp hw with rfl | hw
    · exact hp.was
    · rw [← hp.others r hr _ fun heq => hne w hw heq.2]
      exact h.unmapped w hw
  · intro w hw'
    rcases List.mem_cons.mp hw' with rfl | hw'
    · exact hw
    · exact h.within w hw'

/-- **Visits for which there are frames** are all made. -/
theorem visits_fit (hr : r ∈ R) (hdata : 0x8000_0000 ≤ data ∧ data + len ≤ kernelEnd)
    (l : List Visit) : ∀ {s : Mm}, Tables s R → Visitable s.mem r len l →
    s.pages.current + 4096 * framesFor s.mem r (pagesOf l) ≤ s.pages.end_ →
    ∃ t, Prog.each (Visit.run (load_page_within len ⟨r⟩ data)) l s = .ok (some ⟨⟩) t ∧
      Tables t R ∧ t.pages.end_ = s.pages.end_ ∧
      t.pages.current = s.pages.current + 4096 * framesFor s.mem r (pagesOf l) := by
  induction l with
  | nil =>
    intro s ht _ _
    exact ⟨s, rfl, ht, rfl, by rw [pagesOf, List.map_nil, framesFor_nil]; omega⟩
  | cons v l ih =>
    intro s ht hv hfit
    have hcost := cost_le_framesFor s.mem r v.page (pagesOf l)
    have hpages : pagesOf (v :: l) = v.page :: pagesOf l := rfl
    rw [hpages] at hfit ⊢
    obtain ⟨t, hrun, hp, -⟩ := within_fits ht hr hdata (hv.unmapped v List.mem_cons_self) (by omega)
      (hv.within v List.mem_cons_self)
    have hused := hp.used
    have hend := hp.grows.end_eq
    rw [hp.framesFor] at hfit ⊢
    obtain ⟨u, hloop, htu, hendu, hcuru⟩ := ih hp.grows.tables (hv.next hr hp) (by omega)
    exact ⟨u, (Prog.each_cons_some hrun).trans hloop, htu, hendu.trans hend, by omega⟩

/-- A loop over visits that returns has made those that it reaches. -/
theorem visits_run (hr : r ∈ R) (hdata : 0x8000_0000 ≤ data ∧ data + len ≤ kernelEnd)
    (l : List Visit) : ∀ {s t : Mm} {o : Option PUnit} {n : Nat}, Tables s R →
    s.pages.end_ = s.pages.current + 4096 * n →
    Prog.each (Visit.run (load_page_within len ⟨r⟩ data)) l s = .ok o t →
    ∃ l1 l2, l = l1 ++ l2 ∧ Reaches s.mem r (pagesOf l1) (pagesOf l2) n ∧
      Visitable s.mem r len l1 := by
  induction l with
  | nil =>
    intro s t o n _ _ _
    refine ⟨[], [], rfl, Or.inr ⟨rfl, ?_⟩, .nil _ _ _⟩
    rw [pagesOf, List.map_nil, framesFor_nil]
    omega
  | cons v l ih =>
    intro s t o n ht hn hrun
    cases hv : Visit.run (load_page_within len ⟨r⟩ data) v s with
    | error e s1 =>
      rw [Prog.each_cons_error hv] at hrun
      cases hrun
    | ok o1 s1 =>
      cases o1 with
      | none =>
        -- the frames have run out before this page
        have hfull := within_none ht hv
        refine ⟨[], v :: l, rfl, Or.inl ?_, .nil _ _ _⟩
        rw [pagesOf, List.map_nil, framesFor_nil]
        omega
      | some u =>
        rw [Prog.each_cons_some hv] at hrun
        obtain ⟨hnone, hfit, hw⟩ := within_some ht hr hv
        obtain ⟨s2, hv2, hp, -⟩ := within_fits ht hr hdata hnone hfit hw
        rw [hv2] at hv
        cases hv
        have hused := hp.used
        have hend := hp.grows.end_eq
        obtain ⟨l1, l2, rfl, hreach, hvisit⟩ := ih (n := n - cost (paths s.mem r) (Vpn.of v.page).path)
          hp.grows.tables (by omega) hrun
        refine ⟨v :: l1, l2, rfl, ?_, hvisit.cons hr hp hw⟩
        have hpages : pagesOf (v :: l1) = v.page :: pagesOf l1 := rfl
        unfold Reaches at *
        rw [hpages, hp.framesFor]
        rcases hreach with hreach | ⟨hnil, hreach⟩
        · exact Or.inl (by omega)
        · exact Or.inr ⟨hnil, by omega⟩

/-- **Visits with `n` frames left**: they return just if those that the frames
    reach can be made. -/
theorem visits_ok_iff (ht : Tables s R) (hr : r ∈ R)
    (hdata : 0x8000_0000 ≤ data ∧ data + len ≤ kernelEnd) {n : Nat}
    (hn : s.pages.end_ = s.pages.current + 4096 * n) (l : List Visit) :
    (∃ o t, Prog.each (Visit.run (load_page_within len ⟨r⟩ data)) l s = .ok o t) ↔
      ∃ l1 l2, l = l1 ++ l2 ∧ Reaches s.mem r (pagesOf l1) (pagesOf l2) n ∧
        Visitable s.mem r len l1 := by
  constructor
  · rintro ⟨o, t, hrun⟩
    exact visits_run hr hdata l ht hn hrun
  · rintro ⟨l1, l2, rfl, hreach, hvisit⟩
    have hle : framesFor s.mem r (pagesOf l1) ≤ n := by
      rcases hreach with h | h
      · omega
      · exact h.2
    obtain ⟨t, hrun, htt, hend, hcur⟩ := visits_fit hr hdata l1 ht hvisit (by omega)
    rw [Prog.each_append, Prog.bind_of_ok hrun]
    cases l2 with
    | nil => exact ⟨_, _, rfl⟩
    | cons w l2 =>
      -- the next visit finds no frame
      have hfull : framesFor s.mem r (pagesOf l1) = n := by
        rcases hreach with h | h
        · exact h
        · exact absurd h.1 (by simp [pagesOf])
      rcases alloc_page_cases htt.ok with ⟨hroom, -⟩ | ⟨-, halloc⟩
      · omega
      · exact ⟨_, _, Prog.each_cons_none (within_full halloc)⟩

end All

/-! ## Section 5: The loader -/

/-- With bounds, the loader of the source does the same as long as it is not
    stopped. -/
theorem load_page_within_refines (len : Nat) (pt : PageTable) (data : Nat) (ph : ProgramHeader)
    (page : Nat) : Prog.Refines (load_page_within len pt data ph page) (load_page pt data ph page) := by
  unfold load_page_within load_page ProgramHeader.copy_offset ProgramHeader.file_start
    ProgramHeader.file_end ProgramHeader.zero_len
  refine (Prog.Refines.refl _).bind fun o => ?_
  cases o with
  | none => exact .refl _
  | some paddr =>
    refine (Prog.Refines.refl _).bind fun _ => ?_
    dsimp only
    generalize wsub (min (wadd page PAGE_SIZE) ph.seg_mem_end) page = zero_len
    generalize max page ph.vaddr = file_start
    generalize min (wadd page PAGE_SIZE) ph.seg_file_end = file_end
    generalize wadd ph.offset (file_start - ph.vaddr) = copy_offset
    by_cases hlen : zero_len > PAGE_SIZE
    · rw [if_pos hlen]
      exact fun s a t h => by cases h
    · rw [if_neg hlen]
      refine (Prog.Refines.refl _).bind fun _ => ?_
      by_cases hfile : file_end > file_start
      · rw [if_pos hfile, if_pos hfile]
        split
        · exact fun s a t h => by cases h
        · split
          · exact fun s a t h => by cases h
          · exact .refl _
      · rw [if_neg hfile, if_neg hfile]
        exact .refl _

theorem load_pages_with_refines {c d : Nat → MmM (Option PUnit)} (h : ∀ page, Prog.Refines (c page) (d page))
    (last_page fuel : Nat) : ∀ page,
    Prog.Refines (load_pages_with c last_page fuel page) (load_pages_with d last_page fuel page) := by
  induction fuel with
  | zero => exact fun _ => .refl _
  | succ fuel ih =>
    intro page
    rw [load_pages_with, load_pages_with]
    split
    · exact .refl _
    · refine (h page).bind fun o => ?_
      cases o with
      | none => exact .refl _
      | some _ => exact ih _

theorem load_elf_within_refines (len : Nat) (pt : PageTable) (data : Nat) (elf : Elf) :
    Prog.Refines (load_elf_within len pt data elf) (load_elf_into pt data elf) := by
  rw [load_elf_into_eq]
  unfold load_elf_within load_elf_with
  refine (Prog.Refines.each (fun ph => ?_) _).bind fun _ => .refl _
  unfold load_segment_with
  split
  · exact .refl _
  · exact .refl _
  · refine (Prog.Refines.refl _).bind fun s => ?_
    exact load_pages_with_refines (fun page => load_page_within_refines len pt data ph page) _ _ _

/-- **Clean loading** of a file of `len` bytes at `data`: the loader returns, and
    neither reads outside the file nor writes outside the frames of its pages. -/
def LoadsCleanly (len r data : Nat) (elf : Elf) (s : Mm) : Prop :=
  ∃ o t, load_elf_within len ⟨r⟩ data elf s = .ok o t ∧ load_elf_into ⟨r⟩ data elf s = .ok o t

/-- **Malformed files.**  With `n` frames left the loader returns cleanly just if
    the pages that the headers make it visit, up to where the frames are used up,
    are unmapped, different from each other, and loaded within bounds. -/
theorem load_cleanly_iff (s : Mm) (r : Nat) (ht : Tables s {r}) (data len : Nat)
    (hdata : 0x8000_0000 ≤ data ∧ data + len ≤ kernelEnd) (n : Nat)
    (hn : s.pages.end_ = s.pages.current + 4096 * n) (elf : Elf) :
    LoadsCleanly len r data elf s ↔
      ∃ l1 l2, visits (n + 1) elf.program_headers = l1 ++ l2 ∧
        Reaches s.mem r (pagesOf l1) (pagesOf l2) n ∧ Visitable s.mem r len l1 := by
  have hr : r ∈ ({r} : Set Nat) := rfl
  have hturn : TakesFrame (fun s => Tables s {r}) (load_page_within len ⟨r⟩ data) :=
    within_takes hr hdata
  have heq := load_segments_eq hturn elf.program_headers (n + 1) s ht (by omega)
  rw [← visits_ok_iff ht hr hdata hn]
  unfold LoadsCleanly
  constructor
  · rintro ⟨o, t, hrun, -⟩
    unfold load_elf_within load_elf_with at hrun
    obtain ⟨o1, t1, hrun, -⟩ := Prog.bind_eq_ok.mp hrun
    rw [heq] at hrun
    obtain ⟨o2, t2, hrun, -⟩ := Prog.bind_eq_ok.mp hrun
    exact ⟨o2, t2, hrun⟩
  · rintro ⟨o, t, hrun⟩
    have hwithin : ∃ o' t', load_elf_within len ⟨r⟩ data elf s = .ok o' t' := by
      unfold load_elf_within load_elf_with
      rw [Prog.bind_run, heq, Prog.bind_of_ok hrun]
      exact ⟨_, _, rfl⟩
    obtain ⟨o', t', h⟩ := hwithin
    exact ⟨o', t', h, load_elf_within_refines len ⟨r⟩ data elf s o' t' h⟩

/-- A new table, and eight frames left. -/
def newTable : Mm := (⟨fun _ => 0, ⟨0x8020_0000, 0x8020_9000⟩⟩ : Mm).take

theorem take_empty (m : Mem) : Tables (⟨m, ⟨0x8020_0000, 0x8020_9000⟩⟩ : Mm).take {0x80200} ∧
    ∀ v, leaf (⟨m, ⟨0x8020_0000, 0x8020_9000⟩⟩ : Mm).take.mem 0x80200 v = none := by
  have hok : (⟨m, ⟨0x8020_0000, 0x8020_9000⟩⟩ : Mm).Ok :=
    ⟨by dsimp only; decide, by dsimp only; decide, by dsimp only; decide⟩
  have hnone : Tables ⟨m, ⟨0x8020_0000, 0x8020_9000⟩⟩ ∅ :=
    ⟨hok, fun r hr => absurd hr (Set.notMem_empty r), fun r hr => absurd hr (Set.notMem_empty r),
      fun r hr => absurd hr (Set.notMem_empty r)⟩
  have hnext : (⟨m, ⟨0x8020_0000, 0x8020_9000⟩⟩ : Mm).next = 0x80200 := by
    unfold Mm.next
    dsimp only
  obtain ⟨htables, hempty⟩ := tables_new hnone (by dsimp only; decide)
  rw [hnext] at htables hempty
  rw [insert_empty_eq] at htables
  exact ⟨htables, hempty⟩

theorem newTable_empty : Tables newTable {0x80200} ∧ ∀ v, leaf newTable.mem 0x80200 v = none :=
  take_empty _

/-- Code at the start of a page, and data further on. -/
def codeHeader : ProgramHeader := ⟨some true, 0x10000, 0x100, 0x100, 0, true, false, true⟩
def dataHeader : ProgramHeader := ⟨some true, 0x10100, 0x100, 0x100, 0x100, true, true, false⟩

/-- A page takes four frames at most. -/
theorem framesFor_one (m : Mem) (r page : Nat) : framesFor m r [page] ≤ 4 := by
  unfold framesFor pagePaths
  rw [List.map_singleton, demand_cons, demand_nil]
  exact cost_le _ _

/-- A file with one segment is loaded. -/
theorem load_cleanly_code : LoadsCleanly 0x100 0x80200 0x8600_0000 ⟨0x10000, 64, 56, [codeHeader]⟩
    newTable := by
  refine (load_cleanly_iff newTable 0x80200 newTable_empty.1 0x8600_0000 0x100 (by decide) 8 rfl
    _).mpr ⟨[⟨codeHeader, 0x10000⟩], [], by decide +kernel, Or.inr ⟨rfl, ?_⟩, ?_⟩
  · exact (framesFor_one _ _ 0x10000).trans (by decide)
  · refine ⟨List.nodup_singleton _, fun _ _ => newTable_empty.2 _, ?_⟩
    intro v hv
    rw [List.mem_singleton.mp hv]
    exact ⟨by decide +kernel, fun _ => by decide +kernel⟩

/-- **Two segments in one page**, as in most files: the loader does not return. -/
theorem load_shared_page : ¬ LoadsCleanly 0x200 0x80200 0x8600_0000
    ⟨0x10000, 64, 56, [codeHeader, dataHeader]⟩ newTable := by
  rw [load_cleanly_iff newTable 0x80200 newTable_empty.1 0x8600_0000 0x200 (by decide) 8 rfl]
  rintro ⟨l1, l2, hsplit, hreach, hvisit⟩
  have hvisits : visits 9 [codeHeader, dataHeader] = [⟨codeHeader, 0x10000⟩, ⟨dataHeader, 0x10000⟩] := by
    decide +kernel
  rw [hvisits] at hsplit
  have hcost := framesFor_one newTable.mem 0x80200 0x10000
  cases l1 with
  | nil =>
    subst hsplit
    rcases hreach with h | h
    · rw [pagesOf, List.map_nil, framesFor_nil] at h
      omega
    · exact absurd h.1 (by simp [pagesOf])
  | cons v l1 =>
    rw [List.cons_append, List.cons.injEq] at hsplit
    obtain ⟨rfl, hsplit⟩ := hsplit
    cases l1 with
    | nil =>
      subst hsplit
      rcases hreach with h | h
      · have h' : framesFor newTable.mem 0x80200 [0x10000] = 8 := h
        omega
      · exact absurd h.1 (by simp [pagesOf])
    | cons w l1 =>
      rw [List.cons_append, List.cons.injEq] at hsplit
      obtain ⟨rfl, -⟩ := hsplit
      have hnodup := hvisit.apart
      simp at hnodup

end Rvos

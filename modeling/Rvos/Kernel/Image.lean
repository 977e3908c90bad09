import Rvos.Kernel.Visits

/-! # The image of a program

    For a file whose headers are in order, what `load_elf_into` leaves in memory
    is said by the file alone: each page of a segment holds the bytes that the
    file gives for its addresses, and zeros elsewhere.

    * `ProgramHeader.Fits` : the sizes of a header are in order.
    * `Elf.pages` : the pages of all segments.
    * `ProgramHeader.image` : the byte that a segment gives an address.
    * `load_elf_image` : the pages after loading. -/

namespace Rvos

open Access ByteMem Usize Trie

/-! ## Section 1: The image as the file gives it -/

/-- The segments of a file. -/
def Elf.loads (elf : Elf) : List ProgramHeader := elf.program_headers.filter (·.load = some true)

/-- The sizes of a segment are in order, for a file of `len` bytes. -/
structure ProgramHeader.Fits (len : Nat) (ph : ProgramHeader) : Prop where
  nonempty : 0 < ph.memsz
  file_le : ph.filesz ≤ ph.memsz
  in_file : ph.offset + ph.filesz ≤ len
  low : ph.vaddr + ph.memsz ≤ 2 ^ 38

/-- The pages that a segment meets. -/
def ProgramHeader.pages (ph : ProgramHeader) : List Nat :=
  Rvos.pages (ph.vaddr / 4096 * 4096) (ph.vaddr + ph.memsz)

/-- The pages of all segments. -/
def Elf.pages (elf : Elf) : List Nat := elf.loads.flatMap ProgramHeader.pages

/-- The byte that a segment gives to an address of its pages. -/
def ProgramHeader.image (ph : ProgramHeader) (file : List UInt8) (a : Nat) : UInt8 :=
  if ph.vaddr ≤ a ∧ a < ph.vaddr + ph.filesz then file.getD (ph.offset + (a - ph.vaddr)) 0 else 0

theorem pages_cons {lo hi : Nat} (h : lo < hi) : pages lo hi = lo :: pages (lo + 4096) hi := by
  unfold pages PAGE_SIZE
  have hn : (hi - lo + (4096 - 1)) / 4096 = (hi - (lo + 4096) + (4096 - 1)) / 4096 + 1 := by omega
  rw [hn, List.range_succ_eq_map, List.map_cons, List.map_map]
  refine congrArg₂ _ (by omega) (List.map_congr_left fun k _ => ?_)
  simp only [Function.comp_apply]
  omega

theorem pages_nil {lo hi : Nat} (h : hi ≤ lo) : pages lo hi = [] := by
  unfold pages PAGE_SIZE
  rw [show (hi - lo + (4096 - 1)) / 4096 = 0 by omega]
  rfl

section Fits

variable {ph : ProgramHeader} {len page : Nat}

theorem ProgramHeader.Fits.mem_end (h : ph.Fits len) : ph.seg_mem_end = ph.vaddr + ph.memsz := by
  have := h.low
  unfold ProgramHeader.seg_mem_end satAdd
  omega

theorem ProgramHeader.Fits.file_end (h : ph.Fits len) : ph.seg_file_end = ph.vaddr + ph.filesz := by
  have := h.low
  have := h.file_le
  unfold ProgramHeader.seg_file_end satAdd
  omega

theorem page_down {a : Nat} (h : a < 2 ^ 64) : a &&& bnot (PAGE_SIZE - 1) = a / 4096 * 4096 :=
  and_bnot_eq_div_mul (k := 12) h (by omega)

/-- The loop ends at the end of the segment. -/
theorem ProgramHeader.Fits.last_page_lt (h : ph.Fits len) (hpage : 4096 ∣ page) :
    page > ph.last_page ↔ ph.vaddr + ph.memsz ≤ page := by
  have hlow := h.low
  have hpos := h.nonempty
  unfold ProgramHeader.last_page
  rw [h.mem_end, wsub_of_le (by omega) (by omega), page_down (by omega)]
  omega

/-- The visits of a segment are its pages. -/
theorem ProgramHeader.Fits.visits_from (h : ph.Fits len) (K : Nat) : ∀ {page : Nat}, 4096 ∣ page →
    page ≤ 2 ^ 39 → ph.vaddr + ph.memsz ≤ page + 4096 * K →
    ph.visits K page = (Rvos.pages page (ph.vaddr + ph.memsz)).map fun page => ⟨ph, page⟩ := by
  induction K with
  | zero =>
    intro page _ _ hK
    rw [pages_nil (by omega)]
    rfl
  | succ K ih =>
    intro page hpage hle hK
    have hlow := h.low
    rw [ProgramHeader.visits]
    by_cases hlast : page > ph.last_page
    · rw [if_pos hlast, pages_nil ((h.last_page_lt hpage).mp hlast)]
      rfl
    · have hlt : page < ph.vaddr + ph.memsz := by
        have := not_congr (h.last_page_lt hpage)
        omega
      have hadd : wadd page PAGE_SIZE = page + 4096 := wadd_of_lt (by unfold PAGE_SIZE; omega)
      rw [if_neg hlast, pages_cons hlt, List.map_cons, hadd,
        ih (by omega) (by omega) (by omega)]

theorem ProgramHeader.Fits.visits (h : ph.Fits len) {K : Nat} (hK : 2 ^ 26 ≤ K) :
    ph.visits K ph.first_page = ph.pages.map fun page => ⟨ph, page⟩ := by
  have hlow := h.low
  unfold ProgramHeader.first_page ProgramHeader.pages
  rw [page_down (by omega)]
  exact h.visits_from K (Nat.dvd_mul_left _ _) (by omega) (by omega)

/-- A page of a segment. -/
theorem ProgramHeader.mem_page (hpage : page ∈ ph.pages) :
    4096 ∣ page ∧ page < ph.vaddr + ph.memsz ∧ ph.vaddr < page + 4096 := by
  obtain ⟨k, hk, hlt⟩ := mem_pages hpage
  refine ⟨?_, hlt, ?_⟩
  · omega
  · omega

theorem ProgramHeader.mem_pages_of (hdvd : 4096 ∣ page) (hlt : page < ph.vaddr + ph.memsz)
    (hge : ph.vaddr < page + 4096) : page ∈ ph.pages := by
  unfold ProgramHeader.pages Rvos.pages PAGE_SIZE
  refine List.mem_map.mpr ⟨(page - ph.vaddr / 4096 * 4096) / 4096, List.mem_range.mpr ?_, ?_⟩
  · omega
  · omega

/-- A visit to a page of a segment stays within bounds. -/
theorem ProgramHeader.Fits.within (h : ph.Fits len) (hlen : len < 2 ^ 63) (hpage : page ∈ ph.pages) :
    Visit.Within len ⟨ph, page⟩ := by
  obtain ⟨-, hlt, hge⟩ := ph.mem_page hpage
  have hlow := h.low
  have hfile := h.file_le
  have hin := h.in_file
  have hadd : wadd page PAGE_SIZE = page + 4096 := wadd_of_lt (by unfold PAGE_SIZE; omega)
  constructor
  · show wsub (min (wadd page PAGE_SIZE) ph.seg_mem_end) page ≤ PAGE_SIZE
    rw [hadd, h.mem_end, wsub_of_le (by omega) (by omega)]
    unfold PAGE_SIZE
    omega
  · intro hcopy
    unfold ProgramHeader.copy_offset ProgramHeader.file_start ProgramHeader.file_end at *
    rw [hadd, h.file_end] at *
    dsimp only at *
    rw [wadd_of_lt (by omega)]
    omega

/-- What a visit leaves in the page is the image. -/
theorem ProgramHeader.Fits.byte (h : ph.Fits len) {file : List UInt8} (hlen : file.length = len)
    (hlen' : len < 2 ^ 63) (hpage : page ∈ ph.pages) {bytes : Nat → UInt8}
    (hbytes : ∀ i < len, bytes i = file.getD i 0) {o : Nat} (ho : o < 4096) :
    Visit.byte ⟨ph, page⟩ bytes o = ph.image file (page + o) := by
  obtain ⟨-, hlt, hge⟩ := ph.mem_page hpage
  have hlow := h.low
  have hfile := h.file_le
  have hin := h.in_file
  have hadd : wadd page PAGE_SIZE = page + 4096 := wadd_of_lt (by unfold PAGE_SIZE; omega)
  unfold Visit.byte ProgramHeader.image ProgramHeader.copy_offset ProgramHeader.file_start
    ProgramHeader.file_end
  dsimp only
  rw [hadd, h.file_end]
  by_cases hcase : ph.vaddr ≤ page + o ∧ page + o < ph.vaddr + ph.filesz
  · rw [if_pos hcase, if_pos (by omega), wadd_of_lt (by omega), hbytes _ (by omega)]
    congr 1
    omega
  · rw [if_neg hcase, if_neg (by omega)]

end Fits

/-! ## Section 2: Memory after loading -/

/-- The pages of the visits `l` have been loaded from the bytes `file`, each into a
    new frame of its own, and nothing else has changed. -/
structure Imaged (R : Set Nat) (r : Nat) (file : Nat → UInt8) (l : List Visit) (s t : Mm) : Prop where
  was : ∀ v ∈ l, leaf s.mem r (Vpn.of v.page) = none
  grows : Grows R r s t
  used : t.pages.current = s.pages.current + 4096 * framesFor s.mem r (pagesOf l)
  loaded : ∀ v ∈ l, ∃ f, leaf t.mem r (Vpn.of v.page) =
      some (PageTableEntry.new f v.ph.pte_flags.mapped) ∧
    s.pages.current ≤ 4096 * f ∧ 4096 * f + 4096 ≤ t.pages.current ∧
    (∀ x ∈ R, ∀ p, p.length ≤ 2 → node t.mem x p ≠ some f) ∧
    ∀ o < 4096, t.mem (4096 * f + o) = v.byte file o
  others : ∀ x ∈ R, ∀ w, ¬ (x = r ∧ ∃ v ∈ l, Vpn.of v.page = w) → leaf t.mem x w = leaf s.mem x w
  apart : ∀ v ∈ l, ∀ w ∈ l, ∀ e e', leaf t.mem r (Vpn.of v.page) = some e →
    leaf t.mem r (Vpn.of w.page) = some e' → e.ppn = e'.ppn → Vpn.of v.page = Vpn.of w.page

section Load

variable {s t u : Mm} {R : Set Nat} {r data len : Nat} {v : Visit} {l : List Visit}
  {file : Nat → UInt8}

theorem Imaged.nil (ht : Tables s R) : Imaged R r file [] s s where
  was := fun _ h => absurd h List.not_mem_nil
  grows := Grows.refl r ht
  used := by rw [pagesOf, List.map_nil, framesFor_nil]; omega
  loaded := fun _ h => absurd h List.not_mem_nil
  others := fun _ _ _ _ => rfl
  apart := fun _ h => absurd h List.not_mem_nil

/-- A frame that is no node keeps its bytes. -/
theorem Grows.frame_kept (hg : Grows R r s t) (hr : r ∈ R) {f : Nat}
    (hbelow : 4096 * f + 4096 ≤ s.pages.current)
    (hnode : ∀ x ∈ R, ∀ p, p.length ≤ 2 → node s.mem x p ≠ some f) :
    (∀ o < 4096, t.mem (4096 * f + o) = s.mem (4096 * f + o)) ∧
      ∀ x ∈ R, ∀ p, p.length ≤ 2 → node t.mem x p ≠ some f := by
  constructor
  · intro o ho
    by_contra hne
    rcases hg.bytes _ hne with ⟨p, g, hp, hg', h1, h2⟩ | hfresh
    · obtain rfl : g = f := by omega
      exact hnode r hr p hp hg'
    · omega
  · intro x hx p hp hf
    rcases hg.fresh x hx p f hp hf with hf | ⟨-, hge⟩
    · exact hnode x hx p hp hf
    · omega

/-- **One visit, and then the others.** -/
theorem Imaged.cons (ht : Tables s R) (hr : r ∈ R)
    (hp : Placed R r v.ph.pte_flags (Vpn.of v.page) s t)
    (hcontents : ∀ o < 4096, t.mem (s.pages.current + o) = v.byte file o)
    (h : Imaged R r file l t u) : Imaged R r file (v :: l) s u := by
  have hnext := ht.ok.next_eq
  have hend := ht.ok.end_le
  have hle := ht.ok.le_end
  have hroom := hp.room
  have hup := h.grows.cursor
  obtain ⟨hkept, hnode⟩ := h.grows.frame_kept hr (f := s.next) (by omega) hp.apart
  have hnew : ∀ w ∈ l, Vpn.of w.page ≠ Vpn.of v.page := by
    intro w hw heq
    have hwas := h.was w hw
    rw [heq, hp.entry] at hwas
    cases hwas
  have hentry : leaf u.mem r (Vpn.of v.page) =
      some (PageTableEntry.new s.next v.ph.pte_flags.mapped) := by
    rw [h.others r hr _ fun hh => ?_, hp.entry]
    obtain ⟨-, w, hw, heq⟩ := hh
    exact hnew w hw heq
  -- the frames of the other pages lie further on
  have hfar : ∀ w ∈ l, ∀ e, leaf u.mem r (Vpn.of w.page) = some e → s.next < e.ppn := by
    intro w hw e he
    obtain ⟨f, hf, hge, hlt, -⟩ := h.loaded w hw
    rw [hf] at he
    cases he
    have := h.grows.tables.ok.le_end
    have := h.grows.tables.ok.end_le
    rw [PageTableEntry.new_ppn (by omega)]
    omega
  have hself : ∀ e, leaf u.mem r (Vpn.of v.page) = some e → e.ppn = s.next := by
    intro e he
    rw [hentry] at he
    cases he
    exact PageTableEntry.new_ppn (by omega) _
  refine ⟨?_, hp.grows.trans hr h.grows, ?_, ?_, ?_, ?_⟩
  · intro w hw
    rcases List.mem_cons.mp hw with rfl | hwl
    · exact hp.was
    · rw [← hp.others r hr _ fun hh => hnew w hwl hh.2]
      exact h.was w hwl
  · have hpages : pagesOf (v :: l) = v.page :: pagesOf l := rfl
    rw [hpages, hp.framesFor, h.used, hp.used]
    omega
  · intro w hw
    rcases List.mem_cons.mp hw with rfl | hw
    · refine ⟨s.next, hentry, by omega, by omega, hnode, ?_⟩
      intro o ho
      rw [hkept o ho, hnext, hcontents o ho]
    · obtain ⟨f, hf, hge, hrest⟩ := h.loaded w hw
      exact ⟨f, hf, by omega, hrest⟩
  · intro x hx w hw
    rw [h.others x hx w fun hh => ?_, hp.others x hx w fun hh => ?_]
    · exact hw ⟨hh.1, v, List.mem_cons_self, hh.2.symm⟩
    · obtain ⟨hxr, y, hy, heq⟩ := hh
      exact hw ⟨hxr, y, List.mem_cons_of_mem _ hy, heq⟩
  · intro a ha b hb e e' he he' heq
    rcases List.mem_cons.mp ha with rfl | hal
    · rcases List.mem_cons.mp hb with rfl | hbl
      · rfl
      · have := hself e he
        have := hfar b hbl e' he'
        omega
    · rcases List.mem_cons.mp hb with rfl | hbl
      · have := hself e' he'
        have := hfar a hal e he
        omega
      · exact h.apart a hal b hbl e e' he he' heq

/-- The file stays aside while pages are mapped. -/
theorem Aside.placed {w : Vpn} {flags : PTEFlags} {hi : Nat} (h : Aside data len r hi s) (hr : r ∈ R)
    (hp : Placed R r flags w s t) (hle : t.pages.current ≤ hi) :
    Aside data len r hi t ∧ ∀ i < len, t.mem (data + i) = s.mem (data + i) := by
  have hup := hp.grows.cursor
  constructor
  · intro i hi
    obtain ⟨hout, hnodes⟩ := h i hi
    refine ⟨by omega, fun p f hp2 hf hin => ?_⟩
    rcases hp.grows.fresh r hr p f hp2 hf with hf | ⟨-, hge⟩
    · exact hnodes p f hp2 hf hin
    · have := hp.grows.tables.below r hr p f hp2 ‹_›
      omega
  · intro i hi
    obtain ⟨hout, hnodes⟩ := h i hi
    by_contra hne
    rcases hp.grows.bytes _ hne with ⟨p, f, hp2, hf, h1, h2⟩ | hfresh
    · exact hnodes p f hp2 hf ⟨h1, h2⟩
    · omega

/-- **Visits and the image**: visits that have all been made leave the image in
    their pages, if the file is aside of the frames they took. -/
theorem visits_imaged (file : Nat → UInt8) (hr : r ∈ R)
    (hdata : 0x8000_0000 ≤ data ∧ data + len ≤ kernelEnd) {hi : Nat} (l : List Visit) :
    ∀ {s t : Mm} {u : PUnit}, Tables s R → Aside data len r hi s →
    (∀ i < len, s.mem (data + i) = file i) →
    Prog.each (Visit.run (load_page_within len ⟨r⟩ data)) l s = .ok (some u) t →
    t.pages.current ≤ hi → Imaged R r file l s t := by
  induction l with
  | nil =>
    intro s t u ht _ _ hrun _
    cases hrun
    exact .nil ht
  | cons v l ih =>
    intro s t u ht haside hfile hrun hle
    cases hv : Visit.run (load_page_within len ⟨r⟩ data) v s with
    | error e s1 =>
      rw [Prog.each_cons_error hv] at hrun
      cases hrun
    | ok o s1 =>
      cases o with
      | none =>
        rw [Prog.each_cons_none hv] at hrun
        cases hrun
      | some u1 =>
        rw [Prog.each_cons_some hv] at hrun
        obtain ⟨hnone, hfit, hw⟩ := within_some ht hr hv
        obtain ⟨s2, hv2, hp, hcontents⟩ := within_fits ht hr hdata hnone hfit hw
        rw [hv2] at hv
        cases hv
        obtain ⟨-, -, hup⟩ := each_visits_keeps (within_takes hr hdata) l hp.grows.tables hrun
        obtain ⟨haside', hkept⟩ := haside.placed hr hp (by omega)
        refine Imaged.cons ht hr hp ?_ (ih hp.grows.tables haside'
          (fun i hi => by rw [hkept i hi, hfile i hi]) hrun hle)
        intro o ho
        rw [hcontents hi (by omega) haside o ho]
        unfold Visit.byte
        split
        · next hin =>
          refine hfile _ ?_
          have := hw.2 (by omega)
          omega
        · rfl

end Load

/-! ## Section 3: Well-formed files -/

/-- A file that can be loaded into the table `r`: its headers are in order, and its
    pages are unmapped and belong to one segment each. -/
structure Elf.Loadable (elf : Elf) (len : Nat) (m : Mem) (r : Nat) : Prop where
  readable : readable elf.program_headers = true
  fits : ∀ ph ∈ elf.loads, ph.Fits len
  apart : elf.pages.Nodup
  unmapped : ∀ page ∈ elf.pages, leaf m r (Vpn.of page) = none

section Elf

variable {s t : Mm} {R : Set Nat} {r data : Nat} {elf : Elf} {file : List UInt8}

/-- The visits of a file. -/
def Elf.visits (elf : Elf) : List Visit :=
  elf.loads.flatMap fun ph => ph.pages.map fun page => ⟨ph, page⟩

theorem visits_eq {len K : Nat} (hK : 2 ^ 26 ≤ K) (hs : List ProgramHeader)
    (hread : readable hs = true) (hfits : ∀ ph ∈ hs.filter (·.load = some true), ph.Fits len) :
    visits K hs = (hs.filter (·.load = some true)).flatMap fun ph =>
      ph.pages.map fun page => ⟨ph, page⟩ := by
  induction hs with
  | nil => rfl
  | cons ph rest ih =>
    have hrest : readable rest = true := by
      unfold readable at hread ⊢
      rw [List.all_cons, Bool.and_eq_true] at hread
      exact hread.2
    cases hload : ph.load with
    | none => simp [readable, hload] at hread
    | some b =>
      cases b with
      | false =>
        have hskip : (ph :: rest).filter (·.load = some true) = rest.filter (·.load = some true) := by
          rw [List.filter_cons_of_neg (by simp [hload])]
        rw [hskip] at hfits ⊢
        rw [visits, hload]
        exact ih hrest hfits
      | true =>
        have htake : (ph :: rest).filter (·.load = some true) =
            ph :: rest.filter (·.load = some true) := by
          rw [List.filter_cons_of_pos (by simp [hload])]
        rw [htake] at hfits ⊢
        rw [visits, hload, List.flatMap_cons, (hfits ph List.mem_cons_self).visits hK]
        dsimp only
        rw [ih hrest fun p hp => hfits p (List.mem_cons_of_mem _ hp)]

theorem Elf.mem_visits {v : Visit} : v ∈ elf.visits ↔ v.ph ∈ elf.loads ∧ v.page ∈ v.ph.pages := by
  unfold Elf.visits
  rw [List.mem_flatMap]
  constructor
  · rintro ⟨ph, hph, hv⟩
    obtain ⟨page, hpage, rfl⟩ := List.mem_map.mp hv
    exact ⟨hph, hpage⟩
  · rintro ⟨hph, hpage⟩
    exact ⟨v.ph, hph, List.mem_map.mpr ⟨v.page, hpage, rfl⟩⟩

theorem Elf.pagesOf_visits (elf : Elf) : pagesOf elf.visits = elf.pages := by
  unfold pagesOf Elf.visits Elf.pages
  rw [List.map_flatMap]
  refine List.flatMap_congr fun ph _ => ?_
  rw [List.map_map]
  exact List.map_id _

theorem Elf.Loadable.page_lt {len page : Nat} {m : Mem} (h : elf.Loadable len m r)
    (hpage : page ∈ elf.pages) : 4096 ∣ page ∧ page < 2 ^ 38 := by
  obtain ⟨ph, hph, hmem⟩ := List.mem_flatMap.mp hpage
  obtain ⟨hdvd, hlt, -⟩ := ph.mem_page hmem
  have := (h.fits ph hph).low
  exact ⟨hdvd, by omega⟩

theorem Elf.Loadable.visitable {len : Nat} (h : elf.Loadable len s.mem r) (hlen : len < 2 ^ 63) :
    Visitable s.mem r len elf.visits where
  apart := by
    have hvpns : (elf.pages.map Vpn.of).Nodup :=
      h.apart.map_on fun a ha b hb => by
        obtain ⟨haddr, hlt⟩ := h.page_lt ha
        obtain ⟨haddr', hlt'⟩ := h.page_lt hb
        exact Vpn.of_inj (by omega) (by omega) haddr haddr'
    rwa [← elf.pagesOf_visits, pagesOf, List.map_map] at hvpns
  unmapped := by
    intro v hv
    refine h.unmapped v.page ?_
    rw [← elf.pagesOf_visits]
    exact List.mem_map.mpr ⟨v, hv, rfl⟩
  within := by
    intro v hv
    obtain ⟨hph, hpage⟩ := Elf.mem_visits.mp hv
    exact (h.fits v.ph hph).within hlen hpage

/-- **Loading a well-formed file**, with frames for its pages and their nodes. -/
theorem load_elf_imaged (ht : Tables s R) (hr : r ∈ R)
    (hdata : 0x8000_0000 ≤ data ∧ data + file.length ≤ kernelEnd)
    (hload : elf.Loadable file.length s.mem r)
    (haside : Aside data file.length r (s.pages.current + 4096 * framesFor s.mem r elf.pages) s)
    (hfile : ∀ i < file.length, s.mem (data + i) = file.getD i 0)
    (hroom : s.pages.current + 4096 * framesFor s.mem r elf.pages ≤ s.pages.end_) :
    ∃ t, load_elf_into ⟨r⟩ data elf s = .ok (some elf.max_end) t ∧
      Imaged R r (fun i => file.getD i 0) elf.visits s t := by
  have hlen : file.length < 2 ^ 63 := by unfold kernelEnd at hdata; omega
  have hend := ht.ok.end_le
  obtain ⟨t, hrun, -, -, hcur⟩ := visits_fit hr hdata elf.visits ht (hload.visitable hlen)
    (by rw [elf.pagesOf_visits]; exact hroom)
  rw [elf.pagesOf_visits] at hcur
  have himage := visits_imaged (fun i => file.getD i 0) hr hdata elf.visits ht haside hfile hrun
    (Nat.le_of_eq hcur)
  refine ⟨t, ?_, himage⟩
  refine load_elf_within_refines file.length ⟨r⟩ data elf s _ t ?_
  have hturn : TakesFrame (fun s => Tables s R) (load_page_within file.length ⟨r⟩ data) :=
    within_takes hr hdata
  have heq := load_segments_eq hturn elf.program_headers (2 ^ 40) s ht (by omega)
  have hvisits : visits (2 ^ 40) elf.program_headers = elf.visits :=
    visits_eq (by norm_num) _ hload.readable hload.fits
  rw [hvisits, Prog.bind_of_ok hrun, hload.readable] at heq
  unfold load_elf_within load_elf_with
  exact Prog.bind_of_ok heq

/-- The end of the highest segment. -/
theorem foldl_max_spec (g : ProgramHeader → Nat) (l : List ProgramHeader) : ∀ m0 : Nat,
    m0 ≤ l.foldl (fun m ph => max m (g ph)) m0 ∧
      (∀ ph ∈ l, g ph ≤ l.foldl (fun m ph => max m (g ph)) m0) ∧
      (l.foldl (fun m ph => max m (g ph)) m0 = m0 ∨
        ∃ ph ∈ l, l.foldl (fun m ph => max m (g ph)) m0 = g ph) := by
  induction l with
  | nil => exact fun m0 => ⟨Nat.le_refl _, fun _ h => absurd h List.not_mem_nil, Or.inl rfl⟩
  | cons ph l ih =>
    intro m0
    obtain ⟨hle, hall, hone⟩ := ih (max m0 (g ph))
    rw [List.foldl_cons]
    refine ⟨by omega, ?_, ?_⟩
    · intro p hp
      rcases List.mem_cons.mp hp with rfl | hp
      · omega
      · exact hall p hp
    · rcases hone with hone | ⟨p, hp, hone⟩
      · rw [hone]
        rcases Nat.le_total (g ph) m0 with h | h
        · exact Or.inl (by omega)
        · exact Or.inr ⟨ph, List.mem_cons_self, by omega⟩
      · exact Or.inr ⟨p, List.mem_cons_of_mem _ hp, hone⟩

/-- The highest end of a segment, `0` if there is none. -/
def Elf.IsEnd (elf : Elf) (e : Nat) : Prop :=
  (∀ ph ∈ elf.loads, ph.vaddr + ph.memsz ≤ e) ∧
    (e = 0 ∨ ∃ ph ∈ elf.loads, e = ph.vaddr + ph.memsz)

theorem Elf.Loadable.max_end {len : Nat} {m : Mem} (h : elf.Loadable len m r) :
    elf.IsEnd elf.max_end := by
  obtain ⟨-, hall, hone⟩ := foldl_max_spec ProgramHeader.seg_mem_end elf.loads 0
  constructor
  · intro ph hph
    rw [← (h.fits ph hph).mem_end]
    exact hall ph hph
  · rcases hone with hone | ⟨ph, hph, hone⟩
    · exact Or.inl hone
    · refine Or.inr ⟨ph, hph, ?_⟩
      rw [← (h.fits ph hph).mem_end]
      exact hone

/-- Addresses of one page. -/
theorem Vpn.of_add {page o : Nat} (hpage : 4096 ∣ page) (ho : o < 4096) :
    Vpn.of (page + o) = Vpn.of page := by
  have h : (page + o) / 4096 = page / 4096 := by omega
  unfold Vpn.of PAGE_SIZE_BITS
  simp only [Nat.shiftRight_eq_div_pow, show 2 ^ 12 = 4096 from rfl, h]

/-- The physical address of an address in a mapped page. -/
theorem translate_page (ht : Tables s R) (hr : r ∈ R) {page o f : Nat} {flags : PTEFlags}
    (hpage : 4096 ∣ page) (ho : o < 4096) (hf : f < 2 ^ 51)
    (h : leaf s.mem r (Vpn.of page) = some (PageTableEntry.new f flags)) :
    PageTable.translate ⟨r⟩ s.mem (page + o) = some (4096 * f + o) := by
  have hoff : (page + o) &&& (PAGE_SIZE - 1) = o := by
    have hlow : (page + o) &&& (PAGE_SIZE - 1) = (page + o) % 4096 := and_low (page + o) 12
    omega
  have hshl : shl f PAGE_SIZE_BITS = f * 2 ^ 12 := by
    rw [shl, Nat.shiftLeft_eq, PAGE_SIZE_BITS, Nat.mod_eq_of_lt (by omega)]
  rw [translate_eq ht hr, Vpn.of_add hpage ho, h, Option.map_some, PageTableEntry.new_ppn (by omega),
    hoff, hshl, mul_or_eq_add (by omega)]
  congr 1
  omega

/-- **The image of a program.**  A well-formed file is loaded, if the frames
    suffice: each page of a segment is mapped to a new frame of its own that holds
    what the file gives for its addresses, what was mapped before stays mapped, and
    bytes outside the frames taken and the nodes of the table stay as they were. -/
theorem load_elf_image (s : Mm) (R : Set Nat) (r : Nat) (ht : Tables s R) (hr : r ∈ R)
    (data : Nat) (file : List UInt8) (hdata : 0x8000_0000 ≤ data ∧ data + file.length ≤ kernelEnd)
    (hfile : ∀ i < file.length, s.mem (data + i) = file.getD i 0)
    (elf : Elf) (hload : elf.Loadable file.length s.mem r)
    (haside : Aside data file.length r (s.pages.current + 4096 * framesFor s.mem r elf.pages) s)
    (hroom : s.pages.current + 4096 * framesFor s.mem r elf.pages ≤ s.pages.end_) :
    ∃ t, load_elf_into ⟨r⟩ data elf s = .ok (some elf.max_end) t ∧ elf.IsEnd elf.max_end ∧
      (∀ ph ∈ elf.loads, ∀ page ∈ ph.pages, ∃ f,
        leaf t.mem r (Vpn.of page) = some (PageTableEntry.new f ph.pte_flags.mapped) ∧
        s.pages.current ≤ 4096 * f ∧ 4096 * f + 4096 ≤ t.pages.current ∧
        ∀ o < 4096, PageTable.translate ⟨r⟩ t.mem (page + o) = some (4096 * f + o) ∧
          t.mem (4096 * f + o) = ph.image file (page + o)) ∧
      (∀ page ∈ elf.pages, ∀ page' ∈ elf.pages, page ≠ page' →
        PageTable.translate ⟨r⟩ t.mem page ≠ PageTable.translate ⟨r⟩ t.mem page') ∧
      (∀ x ∈ R, ∀ w, leaf s.mem x w ≠ none → leaf t.mem x w = leaf s.mem x w) ∧
      ∀ a, Aside a 1 r (s.pages.current + 4096 * framesFor s.mem r elf.pages) s →
        t.mem a = s.mem a := by
  have hlen : file.length < 2 ^ 63 := by unfold kernelEnd at hdata; omega
  obtain ⟨t, hrun, himage⟩ := load_elf_imaged ht hr hdata hload haside hfile hroom
  have ht' := himage.grows.tables
  have hend := ht'.ok.end_le
  have hle := ht'.ok.le_end
  refine ⟨t, hrun, hload.max_end, ?_, ?_, ?_, ?_⟩
  · intro ph hph page hpage
    obtain ⟨f, hleaf, hge, hlt, -, hbytes⟩ := himage.loaded ⟨ph, page⟩ (Elf.mem_visits.mpr ⟨hph, hpage⟩)
    obtain ⟨hdvd, -⟩ := ph.mem_page hpage
    refine ⟨f, hleaf, hge, hlt, ?_⟩
    intro o ho
    refine ⟨translate_page ht' hr hdvd ho (by omega) hleaf, ?_⟩
    rw [hbytes o ho]
    exact (hload.fits ph hph).byte rfl hlen hpage (fun _ _ => rfl) ho
  · intro page hpage page' hpage' hne heq
    rw [← elf.pagesOf_visits] at hpage hpage'
    obtain ⟨v, hv, rfl⟩ := List.mem_map.mp hpage
    obtain ⟨w, hw, rfl⟩ := List.mem_map.mp hpage'
    obtain ⟨f, hleaf, -, hlt, -⟩ := himage.loaded v hv
    obtain ⟨g, hleaf', -, hlt', -⟩ := himage.loaded w hw
    have hmem : v.page ∈ elf.pages := elf.pagesOf_visits ▸ hpage
    have hmem' : w.page ∈ elf.pages := elf.pagesOf_visits ▸ hpage'
    obtain ⟨hdvd, hlow⟩ := hload.page_lt hmem
    obtain ⟨hdvd', hlow'⟩ := hload.page_lt hmem'
    have htr := translate_page ht' hr hdvd (o := 0) (by omega) (by omega) hleaf
    have htr' := translate_page ht' hr hdvd' (o := 0) (by omega) (by omega) hleaf'
    rw [Nat.add_zero] at htr htr'
    rw [htr, htr', Option.some.injEq] at heq
    have hppn : (PageTableEntry.new f v.ph.pte_flags.mapped).ppn =
        (PageTableEntry.new g w.ph.pte_flags.mapped).ppn := by
      rw [PageTableEntry.new_ppn (by omega), PageTableEntry.new_ppn (by omega)]
      omega
    exact hne (Vpn.of_inj (by omega) (by omega) hdvd hdvd'
      (himage.apart v hv w hw _ _ hleaf hleaf' hppn))
  · intro x hx w hw
    refine himage.others x hx w ?_
    rintro ⟨rfl, v, hv, rfl⟩
    refine hw (hload.unmapped v.page ?_)
    rw [← elf.pagesOf_visits]
    exact List.mem_map.mpr ⟨v, hv, rfl⟩
  · intro a ha
    obtain ⟨hout, hnodes⟩ := ha 0 (by omega)
    rw [Nat.add_zero] at hout hnodes
    by_contra hne
    have hused := himage.used
    rw [elf.pagesOf_visits] at hused
    rcases himage.grows.bytes a hne with ⟨p, f, hp, hf, h1, h2⟩ | hfresh
    · exact hnodes p f hp hf ⟨h1, h2⟩
    · omega

/-! ## Section 4: Examples of files -/

/-- A new table in a memory of ones, and eight frames left. -/
def onesTable : Mm := (⟨fun _ => 1, ⟨0x8020_0000, 0x8020_9000⟩⟩ : Mm).take

theorem onesTable_empty : Tables onesTable {0x80200} ∧ ∀ v, leaf onesTable.mem 0x80200 v = none :=
  take_empty _

theorem onesTable_pages : onesTable.pages = ⟨0x8020_1000, 0x8020_9000⟩ := rfl

theorem onesTable_mem {a : Nat} (h : 0x8020_1000 ≤ a) : onesTable.mem a = 1 :=
  take_mem_out (s := ⟨fun _ => 1, ⟨0x8020_0000, 0x8020_9000⟩⟩) (Or.inr (by dsimp only; omega))

/-- One segment, in the first page of the code. -/
def codeElf : Elf := ⟨0x10000, 64, 56, [codeHeader]⟩

theorem codeElf_pages : codeElf.pages = [0x10000] := by decide +kernel

def ones : List UInt8 := List.replicate 0x100 1

theorem ones_length : ones.length = 0x100 := List.length_replicate

theorem ones_get {i : Nat} (h : i < ones.length) : ones.getD i 0 = 1 :=
  List.getD_replicate _ (by rwa [ones_length] at h)

theorem codeElf_loadable {m : Mem} {r : Nat} (h : leaf m r (Vpn.of 0x10000) = none) :
    codeElf.Loadable ones.length m r where
  readable := by decide
  fits := by
    intro ph hph
    have hcode : ph ∈ [codeHeader] := hph
    rw [List.mem_singleton.mp hcode, ones_length]
    exact ⟨by decide, by decide, by decide, by decide⟩
  apart := by
    rw [codeElf_pages]
    exact List.nodup_singleton _
  unmapped := by
    intro page hpage
    rw [codeElf_pages, List.mem_singleton] at hpage
    rw [hpage]
    exact h

/-- Bytes beyond the frames are aside. -/
theorem Aside.beyond {len data hi : Nat} (ht : Tables s R) (hr : r ∈ R) (h : s.pages.current ≤ data)
    (hle : hi ≤ data) : Aside data len r hi s := by
  intro i _
  refine ⟨by omega, fun p f hp hf hin => ?_⟩
  have := ht.below r hr p f hp hf
  omega

theorem ones_inside : 0x8000_0000 ≤ 0x8600_0000 ∧ 0x8600_0000 + ones.length ≤ kernelEnd := by
  rw [ones_length]
  decide

/-- The segment is loaded into the new table. -/
theorem load_code_image : ∃ t, load_elf_into ⟨0x80200⟩ 0x8600_0000 codeElf onesTable = .ok (some 0x10100) t ∧
    ∃ f, PageTable.translate ⟨0x80200⟩ t.mem 0x10000 = some (4096 * f) ∧ t.mem (4096 * f) = 1 := by
  have hroom : onesTable.pages.current + 4096 * framesFor onesTable.mem 0x80200 codeElf.pages ≤
      onesTable.pages.end_ := by
    have hcost : framesFor onesTable.mem 0x80200 [0x10000] ≤ 4 := framesFor_one _ _ _
    rw [codeElf_pages, onesTable_pages]
    dsimp only
    omega
  obtain ⟨t, hrun, -, hpages, -⟩ := load_elf_image onesTable {0x80200} 0x80200 onesTable_empty.1 rfl
    0x8600_0000 ones ones_inside (fun i hi => (onesTable_mem (by omega)).trans (ones_get hi).symm)
    codeElf (codeElf_loadable (onesTable_empty.2 _))
    (.beyond onesTable_empty.1 rfl (by decide) (hroom.trans (by decide))) hroom
  obtain ⟨f, -, -, -, hbytes⟩ := hpages codeHeader (by decide) 0x10000 (by decide +kernel)
  obtain ⟨htr, hbyte⟩ := hbytes 0 (by omega)
  exact ⟨t, hrun, f, htr, hbyte.trans (by decide +kernel)⟩

/-- A table in which a page is mapped to the frame at the cursor, and the nodes of
    its region are there. -/
theorem cursor_mapped : ∃ s : Mm, Tables s {0x80200} ∧ leaf s.mem 0x80200 (Vpn.of 0x10000) = none ∧
    framesFor s.mem 0x80200 [0x10000] = 1 ∧ s.pages.current + 4096 ≤ s.pages.end_ ∧
    s.pages.end_ = 0x8020_9000 ∧
    PageTable.translate ⟨0x80200⟩ s.mem 0x21100 = some (s.pages.current + 0x100) ∧
    ∀ a, s.pages.current ≤ a → s.mem a = 1 := by
  have hr : (0x80200 : Nat) ∈ ({0x80200} : Set Nat) := rfl
  obtain ⟨ht, hempty⟩ := onesTable_empty
  -- a first page makes the nodes, a second one is mapped to the next frame
  obtain ⟨s1, hmap1⟩ := map_returns ht hr 0 0 (hempty (Vpn.of 0x20000)) (Or.inr (by decide))
  have hm1 := map_spec ht hr (by decide) hmap1
  have hnodes : node s1.mem 0x80200 [(Vpn.of 0x21000).i, (Vpn.of 0x21000).j] ≠ none := by
    have hleaf := hm1.leaves 0x80200 hr (Vpn.of 0x20000)
    rw [if_pos ⟨rfl, rfl⟩] at hleaf
    have hnode := node_of_leaf hleaf
    obtain ⟨hi, hj⟩ := Vpn.of_region (a := 0x20000) (b := 0x21000) (by decide)
    rwa [hi, hj] at hnode
  have hother : leaf s1.mem 0x80200 (Vpn.of 0x21000) = none := by
    rw [hm1.leaves _ hr, if_neg (by decide), hempty]
  have hlt : s1.pages.current < 2 ^ 64 := by
    have := hm1.grows.tables.ok.le_end
    have := hm1.grows.tables.ok.end_le
    omega
  obtain ⟨s, hmap⟩ := map_returns hm1.grows.tables hr s1.pages.current kernelFlags hother (Or.inl hnodes)
  have hm := map_spec hm1.grows.tables hr hlt hmap
  have hcur : s.pages.current = s1.pages.current := hm.reused hnodes
  have hleaf : leaf s.mem 0x80200 (Vpn.of 0x21000) =
      some (PageTableEntry.new s1.next kernelFlags.mapped) := by
    rw [hm.leaves _ hr, if_pos ⟨rfl, rfl⟩, frame_at_cursor]
  have hends : s.pages.end_ = 0x8020_9000 := by
    rw [hm.grows.end_eq, hm1.grows.end_eq]
    rfl
  have hused := hm1.used
  rw [onesTable_pages] at hused
  dsimp only at hused
  have hnext := hm1.grows.tables.ok.next_eq
  have hcode : leaf s.mem 0x80200 (Vpn.of 0x10000) = none := by
    rw [hm.leaves _ hr, if_neg (by decide), hm1.leaves _ hr, if_neg (by decide), hempty]
  refine ⟨s, hm.grows.tables, hcode, ?_, by omega, hends, ?_, ?_⟩
  · have hcost : cost (paths s.mem 0x80200) [(Vpn.of 0x10000).i, (Vpn.of 0x10000).j] = 0 := by
      have hnode := node_of_leaf hleaf
      obtain ⟨hi, hj⟩ := Vpn.of_region (a := 0x21000) (b := 0x10000) (by decide)
      rw [hi, hj] at hnode
      exact cost_eq_zero (prefixes_subset_paths ⟨by simp, hnode⟩)
    unfold framesFor pagePaths
    rw [List.map_singleton, demand_cons, demand_nil, Vpn.cost_path (leaf_eq_none_iff.mp hcode), hcost]
  · have := translate_page hm.grows.tables hr (by decide : 4096 ∣ 0x21000)
      (by decide : 0x100 < 4096) (by omega) hleaf
    rw [hcur, ← hnext]
    exact this
  · intro a ha
    by_contra hne
    have hgrows := hm1.grows.trans hr hm.grows
    have hne' : s.mem a ≠ onesTable.mem a := by
      rw [onesTable_mem ?_]
      · exact hne
      · have := hgrows.cursor
        rw [onesTable_pages] at this
        dsimp only at this
        omega
    rcases hgrows.bytes a hne' with ⟨p, f, hp, hf, -, hlt⟩ | hfresh
    · have := ht.below _ hr p f hp hf
      have := hgrows.cursor
      omega
    · omega

/-- A mapped page that lies in a free frame is overwritten, and a header of
    unknown type stops the loader. -/
theorem load_elf_overwrites : (∃ (s t : Mm) (va pa : Nat), Tables s {0x80200} ∧
      codeElf.Loadable ones.length s.mem 0x80200 ∧ Aside 0x8600_0000 ones.length 0x80200 s.pages.end_ s ∧
      (∀ i < ones.length, s.mem (0x8600_0000 + i) = ones.getD i 0) ∧
      s.pages.current + 4096 * framesFor s.mem 0x80200 codeElf.pages ≤ s.pages.end_ ∧
      load_elf_into ⟨0x80200⟩ 0x8600_0000 codeElf s = .ok (some 0x10100) t ∧
      PageTable.translate ⟨0x80200⟩ s.mem va = some pa ∧ t.mem pa ≠ s.mem pa) ∧
    load_elf_into ⟨0x80200⟩ 0x8600_0000 ⟨0x10000, 64, 56, [{ codeHeader with load := none }]⟩ onesTable =
      .ok none onesTable := by
  have hr : (0x80200 : Nat) ∈ ({0x80200} : Set Nat) := rfl
  constructor
  · obtain ⟨s, ht, hcode, hframes, hroom, hends, htr, hones⟩ := cursor_mapped
    have hle := ht.ok.le_end
    have hload := codeElf_loadable hcode
    have haside : ∀ hi ≤ s.pages.end_, Aside 0x8600_0000 ones.length 0x80200 hi s :=
      fun hi h => .beyond ht hr (by omega) (by omega)
    have hfile : ∀ i < ones.length, s.mem (0x8600_0000 + i) = ones.getD i 0 :=
      fun i hi => (hones _ (by omega)).trans (ones_get hi).symm
    have hframes' : s.pages.current + 4096 * framesFor s.mem 0x80200 codeElf.pages ≤ s.pages.end_ := by
      rw [codeElf_pages]
      omega
    obtain ⟨t, hrun, himage⟩ := load_elf_imaged ht hr ones_inside hload (haside _ hframes') hfile hframes'
    refine ⟨s, t, 0x21100, s.pages.current + 0x100, ht, hload, haside _ (le_refl _), hfile, hframes', hrun, htr, ?_⟩
    obtain ⟨f, -, hge, hlt, -, hbytes⟩ := himage.loaded ⟨codeHeader, 0x10000⟩
      (Elf.mem_visits.mpr ⟨by decide, by decide +kernel⟩)
    have hused := himage.used
    rw [Elf.pagesOf_visits, codeElf_pages, hframes] at hused
    have hframe : s.pages.current = 4096 * f := by omega
    rw [hones _ (by omega), hframe, hbytes 0x100 (by decide)]
    decide +kernel
  · rfl

end Elf

end Rvos

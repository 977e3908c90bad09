import Rvos.Kernel.Proc
import Rvos.Mm.Space

/-! # Loading a program into a new address space

    `init_user_proc` and `exec_process` build a table from new frames: identity
    mappings, stack, segments, and the initial contents of the stack.
    `Space` is what holds of the table all the while, and `load_program_wp` that
    loading keeps it, as long as the strings fit into the topmost stack page.
    Nothing that was there before is touched. -/

namespace Rvos

open Access ByteMem Usize

/-! ## Section 1: A new address space -/

/-- The table `r`, built from frames beyond the state `s0`, has the identity
    mappings and user pages with proper flags. -/
structure Space (s0 : Mm) (R K : Set Nat) (r : Nat) (s : Mm) : Prop where
  builds : Builds s0 R K r s
  kernel : KernelMapped s.mem r
  flags : UserFlags s.mem {r}

section Space

variable {s0 s t : Mm} {R K : Set Nat} {r : Nat}

theorem userLeaf_congr {m m' : Mem} {v : Vpn} (h : leaf m' r v = leaf m r v) :
    userLeaf m' r v = userLeaf m r v := by
  unfold userLeaf
  rw [h]

/-- The same leaves in another state. -/
theorem Space.same (h : Space s0 R K r s) (hb : Builds s0 R K r t)
    (hleaf : ∀ v, leaf t.mem r v = leaf s.mem r v) : Space s0 R K r t where
  builds := hb
  kernel := h.kernel.congr hleaf
  flags := by
    intro x hx v e he
    obtain rfl := Set.mem_singleton_iff.mp hx
    rw [userLeaf_congr (hleaf v)] at he
    exact h.flags x rfl v e he

/-- A user page is added. -/
structure NewPage (r : Nat) (v : Vpn) (s t : Mm) : Prop where
  was : userLeaf s.mem r v = none
  page : UserPage t.mem r v s.next
  others : ∀ w, w ≠ v → userLeaf t.mem r w = userLeaf s.mem r w
  used : t.pages.current ≤ s.pages.current + 12288

/-- **Mapping a new user page**; it fails if the page is mapped already or
    frames run out. -/
theorem Space.map_user (h : Space s0 R K r s) (hroom : s.pages.current + 4096 ≤ s.pages.end_)
    (va : Nat) {flags : PTEFlags} (hU : flags.contains .U = true) :
    Prog.wp (PageTable.map ⟨r⟩ va s.pages.current flags)
      (fun _ t => Space s0 R K r t ∧ NewPage r (Vpn.of va) s t)
      (fun _ _ => leaf s.mem r (Vpn.of va) ≠ none ∨ s.pages.end_ < s.pages.current + 12288)
      s.take := by
  obtain ⟨hb, hfree, hge⟩ := h.builds.take hroom
  have hok := h.builds.own.tables.ok
  have hnext := hok.next_eq
  have hle := hok.le_end
  have hend := hok.end_le
  have hsame := same_take h.builds.own.tables h.builds.root
  have hleaf : ∀ v, leaf s.take.mem r v = leaf s.mem r v := fun v => leaf_of_same hsame v
  have hcur : s.take.pages.current = s.pages.current + 4096 := rfl
  have hend' : s.take.pages.end_ = s.pages.end_ := rfl
  refine (map_wp hb.own.tables hb.root (by omega) flags).mono ?_ ?_
  · intro _ t hm
    rw [frame_at_cursor] at hm
    generalize he : PageTableEntry.new s.next flags.mapped = e at hm
    have hppn : e.ppn = s.next := by rw [← he]; exact PageTableEntry.new_ppn (by omega) _
    have hflags : e.flags = flags.mapped := by rw [← he]; exact PageTableEntry.new_flags (by omega) _
    have hUe : e.flags.contains .U = true := by rw [hflags, PTEFlags.mapped_contains_U, hU]
    have huser := fun w => hm.userLeaf hb.root w
    refine ⟨⟨?_, ?_, ?_⟩, ⟨?_, ?_, ?_, ?_⟩⟩
    · exact hb.mapped hm fun _ => by rw [hppn]; exact ⟨hfree, hge⟩
    · exact (h.kernel.congr hleaf).mapped hb.root hm hUe
    · intro x hx w e' he'
      obtain rfl := Set.mem_singleton_iff.mp hx
      rw [huser] at he'
      split at he'
      · cases he'
        rw [hflags, PTEFlags.mapped_mapped]
      · rw [userLeaf_congr (hleaf w)] at he'
        exact h.flags x rfl w e' he'
    · rw [userLeaf, ← hleaf, hm.was]
      rfl
    · refine ⟨e, ?_, hppn⟩
      rw [huser, if_pos ⟨rfl, rfl⟩, if_pos hUe]
    · intro w hw
      rw [huser, if_neg fun hh => hw hh.2, userLeaf_congr (hleaf w)]
    · have := hm.used
      omega
  · intro e t he
    rcases he with ⟨-, hsome⟩ | ⟨-, -, -, hfull⟩
    · left
      rw [← hleaf]
      exact Option.isSome_iff_ne_none.mp hsome
    · right
      omega

/-- **Writing** to user pages of the new table, or to memory that has not been
    handed out. -/
theorem Space.write (h : Space s0 R K r s) {m : Mem}
    (hm : ∀ a, m a ≠ s.mem a → (∃ v f, UserPage s.mem r v f ∧ 4096 * f ≤ a ∧ a < 4096 * f + 4096) ∨
      s.pages.current ≤ a) :
    Space s0 R K r { s with mem := m } ∧ ∀ v, userLeaf m r v = userLeaf s.mem r v := by
  have hb := h.builds
  obtain ⟨hb', hsame⟩ := hb.write (m := m) fun a hne => by
    have hcur := hb.cursor
    rcases hm a hne with ⟨v, f, hu, hlo, hhi⟩ | hge
    · have := hb.users v f hu
      refine ⟨by omega, fun p g hp hg hin => ?_⟩
      obtain rfl : g = f := by omega
      exact hb.own.user_node r hb.root r hb.root v p g hp hu hg
    · refine ⟨by omega, fun p g hp hg hin => ?_⟩
      have := hb.own.tables.below r hb.root p g hp hg
      omega
  have hleaf : ∀ v, leaf m r v = leaf s.mem r v := fun v => leaf_of_same (hsame r hb.root) v
  exact ⟨h.same hb' hleaf, fun v => userLeaf_congr (hleaf v)⟩

/-! ## Section 2: The stack -/

/-- The address of page `i` of the stack. -/
theorem stack_page_eq {i : Nat} (h : i ≤ 8) :
    wsub stackTop (wmul i PAGE_SIZE) = stackTop - 4096 * i := by
  have hmul : wmul i PAGE_SIZE = 4096 * i := by
    rw [wmul_of_lt] <;> unfold PAGE_SIZE <;> omega
  rw [hmul, wsub_of_le] <;> unfold stackTop <;> omega

theorem stack_page_inj {i j : Nat} (hi : i ≤ 8) (hj : j ≤ 8)
    (h : Vpn.of (stackTop - 4096 * i) = Vpn.of (stackTop - 4096 * j)) : i = j := by
  have := Vpn.of_inj (a := stackTop - 4096 * i) (b := stackTop - 4096 * j)
    (by unfold stackTop; omega) (by unfold stackTop; omega) (by unfold stackTop; omega)
    (by unfold stackTop; omega) h
  unfold stackTop at this
  omega

/-- No page of the stack is an identity page. -/
theorem stack_page_not_identity {i : Nat} (hi : i ≤ 8) {p : Nat × PTEFlags}
    (hp : p ∈ identityPages) : Vpn.of (stackTop - 4096 * i) ≠ Vpn.of p.1 := by
  intro h
  obtain ⟨hlt, hal, -, -⟩ := identityPages_mem hp
  have := Vpn.of_inj (a := stackTop - 4096 * i) (by unfold stackTop; omega) (by omega)
    (by unfold stackTop; omega) hal h
  unfold stackTop at this
  omega

/-- The stack pages mapped so far, with the frame of the topmost. -/
structure StackProgress (s0 : Mm) (R K : Set Nat) (r c f : Nat) (done : List Nat) (s : Mm) :
    Prop where
  space : Space s0 R K r s
  top : UserPage s.mem r (Vpn.of stackTop) f
  only : ∀ v, userLeaf s.mem r v ≠ none → ∃ i ∈ 0 :: done, v = Vpn.of (stackTop - 4096 * i)
  used : s.pages.current ≤ c + 12288 * (done.length + 1)

theorem map_stack_page_wp (h : Space s0 R K r s) {i : Nat} (hi : i ≤ 8)
    (hnew : userLeaf s.mem r (Vpn.of (stackTop - 4096 * i)) = none) :
    Prog.wp (map_stack_page ⟨r⟩ i)
      (fun o t => (o = some s.pages.current ∧ Space s0 R K r t ∧
          NewPage r (Vpn.of (stackTop - 4096 * i)) s t) ∨
        (o = none ∧ t = s ∧ s.pages.end_ < s.pages.current + 12288))
      (fun _ _ => s.pages.end_ < s.pages.current + 12288) s := by
  unfold map_stack_page
  rw [Prog.wp_bind, stack_page_eq hi]
  rcases alloc_page_cases h.builds.own.tables.ok with ⟨hroom, halloc⟩ | ⟨hfull, halloc⟩
  · rw [Prog.wp_of_ok halloc]
    simp only [Prog.wp_bind, Prog.wp_pure]
    refine (h.map_user hroom _ (by decide)).mono ?_ ?_
    · intro _ t ht
      exact Or.inl ⟨trivial, ht⟩
    · intro _ _ he
      refine he.resolve_left ?_
      rw [ne_eq, not_not]
      -- the page is neither an identity page nor a user page
      cases hleaf : leaf s.mem r (Vpn.of (stackTop - 4096 * i)) with
      | none => rfl
      | some e =>
        have hU : e.flags.contains .U = false := by
          simpa [userLeaf, hleaf, Option.filter] using hnew
        obtain ⟨p, hp, hv, -⟩ := (h.kernel _ e).mp ⟨hleaf, hU⟩
        exact absurd hv (stack_page_not_identity hi hp)
  · rw [Prog.wp_of_ok halloc, Prog.wp_pure]
    exact Or.inr ⟨rfl, rfl, by omega⟩

/-- **The user stack**, in a table without user pages. -/
theorem map_stack_wp (h : Space s0 R K r s) (hnone : ∀ v, userLeaf s.mem r v = none) :
    Prog.wp (map_stack ⟨r⟩)
      (fun o t => Space s0 R K r t ∧ t.pages.current ≤ s.pages.current + 12288 * 9 ∧
        (∀ top, o = some top → ∃ f, top = 4096 * f ∧ UserPage t.mem r (Vpn.of stackTop) f ∧
          ∀ v, userLeaf t.mem r v ≠ none → ∃ i ≤ 8, v = Vpn.of (stackTop - 4096 * i)) ∧
        (o = none → s0.pages.end_ < s.pages.current + 12288 * 9))
      (fun _ _ => s0.pages.end_ < s.pages.current + 12288 * 9) s := by
  have hend := h.builds.end_eq
  have hnext := h.builds.own.tables.ok.next_eq
  unfold map_stack
  rw [Prog.wp_bind]
  refine (map_stack_page_wp h (i := 0) (by omega) (hnone _)).mono ?_ (fun _ _ he => by omega)
  intro o t ho
  rcases ho with ⟨rfl, hspace, hpage⟩ | ⟨rfl, rfl, hfull⟩
  · simp only [Prog.wp_bind]
    have hstart : StackProgress s0 R K r s.pages.current s.next [] t := by
      refine ⟨hspace, by simpa using hpage.page, ?_, by simpa using hpage.used⟩
      intro v hv
      by_cases heq : v = Vpn.of (stackTop - 4096 * 0)
      · exact ⟨0, by simp, heq⟩
      · rw [hpage.others v heq, hnone v] at hv
        exact absurd rfl hv
    refine (Prog.each_wp (I := fun done u => StackProgress s0 R K r s.pages.current s.next done u)
      (N := fun u => Space s0 R K r u ∧ u.pages.current ≤ s.pages.current + 12288 * 9 ∧
        s0.pages.end_ < s.pages.current + 12288 * 9)
      (E := fun _ _ => s0.pages.end_ < s.pages.current + 12288 * 9) ?_ hstart).mono ?_ fun _ _ he => he
    · intro done i rest u hl hu
      have hmem : i ∈ [1, 2, 3, 4, 5, 6, 7, 8] := by rw [hl]; simp
      have hlen : done.length + 1 ≤ 8 := by
        have := congrArg List.length hl
        simp only [List.length_cons, List.length_nil, List.length_append] at this
        omega
      have hbounds : ∀ j ∈ [1, 2, 3, 4, 5, 6, 7, 8], 1 ≤ j ∧ j ≤ 8 := by decide
      have hi := hbounds i hmem
      have hused := hu.used
      have hend' := hu.space.builds.end_eq
      have hnew : userLeaf u.mem r (Vpn.of (stackTop - 4096 * i)) = none := by
        by_contra hne
        obtain ⟨j, hj, hv⟩ := hu.only _ hne
        have hj8 : j ≤ 8 := by
          rcases List.mem_cons.mp hj with rfl | hj
          · omega
          · exact (hbounds j (by rw [hl]; simp [hj])).2
        obtain rfl := stack_page_inj hi.2 hj8 hv
        -- `i` would occur twice in the list
        rcases List.mem_cons.mp hj with rfl | hj
        · omega
        · have hnodup : [1, 2, 3, 4, 5, 6, 7, 8].Nodup := by decide
          rw [hl, List.nodup_append] at hnodup
          exact hnodup.2.2 i hj i (by simp) rfl
      simp only [Prog.wp_bind, Prog.wp_pure]
      refine (map_stack_page_wp hu.space hi.2 hnew).mono ?_ (fun _ _ he => by omega)
      intro o' w ho'
      rcases ho' with ⟨rfl, hsp, hpg⟩ | ⟨rfl, rfl, hfull⟩
      · refine Or.inl ⟨rfl, hsp, ?_, ?_, ?_⟩
        · have hne : Vpn.of stackTop ≠ Vpn.of (stackTop - 4096 * i) := by
            intro hv
            have := stack_page_inj (i := 0) (by omega) hi.2 hv
            omega
          obtain ⟨e, he, hf⟩ := hu.top
          exact ⟨e, by rw [hpg.others _ hne, he], hf⟩
        · intro v hv
          by_cases heq : v = Vpn.of (stackTop - 4096 * i)
          · exact ⟨i, by simp, heq⟩
          · rw [hpg.others v heq] at hv
            obtain ⟨j, hj, hvj⟩ := hu.only v hv
            refine ⟨j, ?_, hvj⟩
            rcases List.mem_cons.mp hj with rfl | hj
            · simp
            · simp [hj]
        · have hmore := hpg.used
          rw [List.length_append, List.length_singleton]
          linarith
      · exact Or.inr ⟨rfl, hu.space, by linarith, by linarith⟩
    · intro o' u ho'
      rw [Prog.wp_pure]
      rcases ho' with ⟨rfl, hu⟩ | ⟨rfl, hsp, hused, hfull⟩
      · have hused := hu.used
        simp only [List.length_cons, List.length_nil] at hused
        refine ⟨hu.space, by omega, ?_, ?_⟩
        · intro top htop
          have htop' : s.pages.current = top := Option.some.inj htop
          have hbounds : ∀ i ∈ [0, 1, 2, 3, 4, 5, 6, 7, 8], i ≤ 8 := by decide
          refine ⟨s.next, by omega, hu.top, fun v hv => ?_⟩
          obtain ⟨i, hi, hvi⟩ := hu.only v hv
          exact ⟨i, hbounds i hi, hvi⟩
        · intro hnone'
          exact absurd hnone' (by simp)
      · exact ⟨hsp, hused, by simp, fun _ => hfull⟩
  · rw [Prog.wp_pure]
    exact ⟨h, by omega, by simp, fun _ => by omega⟩

/-! ## Section 3: The segments -/

/-- The user pages of the table stay. -/
def KeepsPages (r : Nat) (s t : Mm) : Prop :=
  ∀ v, userLeaf s.mem r v ≠ none → userLeaf t.mem r v = userLeaf s.mem r v

theorem KeepsPages.refl (r : Nat) (s : Mm) : KeepsPages r s s := fun _ _ => rfl

theorem KeepsPages.trans {u : Mm} (h1 : KeepsPages r s t) (h2 : KeepsPages r t u) :
    KeepsPages r s u := by
  intro v hv
  have h := h1 v hv
  rw [h2 v (by rw [h]; exact hv), h]

theorem KeepsPages.page (h : KeepsPages r s t) {v : Vpn} {f : Nat} (hu : UserPage s.mem r v f) :
    UserPage t.mem r v f := by
  obtain ⟨e, he, hf⟩ := hu
  exact ⟨e, by rw [h v (by rw [he]; simp), he], hf⟩

theorem NewPage.keeps {v : Vpn} (h : NewPage r v s t) : KeepsPages r s t := by
  intro w hw
  refine h.others w ?_
  rintro rfl
  exact hw h.was

/-- Writing to a user page of the new table. -/
theorem Space.write_page (h : Space s0 R K r s) {v : Vpn} {f : Nat} (hu : UserPage s.mem r v f)
    {m : Mem} (hm : ∀ a, a < 4096 * f ∨ 4096 * f + 4096 ≤ a → m a = s.mem a) :
    Space s0 R K r { s with mem := m } ∧ KeepsPages r s { s with mem := m } := by
  obtain ⟨hspace, hleaf⟩ := h.write (m := m) fun a hne => by
    refine Or.inl ⟨v, f, hu, ?_⟩
    by_contra hout
    exact hne (hm a (by omega))
  exact ⟨hspace, fun w _ => hleaf w⟩

theorem phys_zero_wp {a n : Nat} {Q : Unit → Mm → Prop} {E : Halt → Mm → Prop}
    (hQ : a + n ≤ kernelEnd → Q () { s with mem := fill s.mem a n 0 })
    (hE : kernelEnd < a + n → E (.fault kernelEnd) s) : Prog.wp (phys_zero a n) Q E s := by
  unfold phys_zero
  by_cases h : a + n > kernelEnd
  · simp only [if_pos h, Prog.wp_bind, Prog.wp_throw]
    exact hE h
  · simp only [if_neg h, Prog.wp_modify]
    exact hQ (by omega)

theorem phys_write_wp {a : Nat} {bs : List UInt8} {Q : Unit → Mm → Prop} {E : Halt → Mm → Prop}
    (hQ : a + bs.length ≤ kernelEnd → Q () { s with mem := blit s.mem a bs })
    (hE : kernelEnd < a + bs.length → E (.fault kernelEnd) s) :
    Prog.wp (phys_write a bs) Q E s := by
  unfold phys_write
  by_cases h : a + bs.length > kernelEnd
  · simp only [if_pos h, Prog.wp_bind, Prog.wp_throw]
    exact hE h
  · simp only [if_neg h, Prog.wp_modify]
    exact hQ (by omega)

theorem phys_copy_wp {src dst n : Nat} {Q : Unit → Mm → Prop}
    (hQ : Q () { s with mem := ByteMem.copy s.mem dst src n }) :
    Prog.wp (phys_copy src dst n) Q (fun _ _ => True) s := by
  unfold phys_copy
  split
  · simp only [Prog.wp_bind, Prog.wp_throw]
  · simp only [Prog.wp_modify]
    exact hQ

/-- How much of a page `load_page` fills with zeros. -/
def ProgramHeader.zero_len (ph : ProgramHeader) (page : Nat) : Nat :=
  wsub (min (wadd page PAGE_SIZE) ph.seg_mem_end) page

/-- **One page of a segment.**  The zero-fill stays in the page, or the kernel
    faults. -/
theorem load_page_wp (h : Space s0 R K r s) (data : Nat) (ph : ProgramHeader) {page : Nat}
    (hzero : ph.zero_len page ≤ 4096 ∨ kernelEnd < ph.zero_len page) :
    Prog.wp (load_page ⟨r⟩ data ph page)
      (fun o t => (o = some ⟨⟩ ∧ Space s0 R K r t ∧ KeepsPages r s t ∧ ph.zero_len page ≤ 4096) ∨
        (o = none ∧ t = s))
      (fun _ _ => True) s := by
  have hU : ph.pte_flags.contains .U = true := by
    unfold ProgramHeader.pte_flags
    cases ph.read <;> cases ph.write <;> cases ph.execute <;> decide
  unfold load_page
  rw [Prog.wp_bind]
  rcases alloc_page_cases h.builds.own.tables.ok with ⟨hroom, halloc⟩ | ⟨hfull, halloc⟩
  · rw [Prog.wp_of_ok halloc]
    simp only [Prog.wp_bind]
    refine (h.map_user hroom page hU).mono ?_ fun _ _ _ => trivial
    intro _ t ht
    obtain ⟨hspace, hpage⟩ := ht
    have hnext := h.builds.own.tables.ok.next_eq
    refine phys_zero_wp ?_ fun _ => trivial
    intro hle
    have hlen := hzero.resolve_right (by unfold ProgramHeader.zero_len; omega)
    obtain ⟨hspace1, hkeep1⟩ := hspace.write_page hpage.page
      (m := fill t.mem s.pages.current (ph.zero_len page) 0) fun a ha => fill_out (by omega)
    have hkeep := hpage.keeps.trans hkeep1
    by_cases hcopy : min (wadd page PAGE_SIZE) ph.seg_file_end > max page ph.vaddr
    · rw [if_pos hcopy, Prog.wp_bind]
      refine phys_copy_wp ?_
      rw [Prog.wp_pure]
      have hadd : wadd page PAGE_SIZE ≤ page + 4096 := by
        unfold wadd PAGE_SIZE
        exact Nat.mod_le _ _
      generalize hsrc : wadd data (wadd ph.offset (max page ph.vaddr - ph.vaddr)) = src
      obtain ⟨hspace2, hkeep2⟩ := hspace1.write_page (hkeep1.page hpage.page)
        (m := ByteMem.copy (fill t.mem s.pages.current (ph.zero_len page) 0)
          (s.pages.current + (max page ph.vaddr - page)) src
          (min (wadd page PAGE_SIZE) ph.seg_file_end - max page ph.vaddr))
        fun a ha => copy_out (by omega)
      exact Or.inl ⟨rfl, hspace2, hkeep.trans hkeep2, hlen⟩
    · rw [if_neg hcopy, Prog.wp_pure]
      exact Or.inl ⟨rfl, hspace1, hkeep, hlen⟩
  · rw [Prog.wp_of_ok halloc, Prog.wp_pure]
    exact Or.inr ⟨rfl, rfl⟩

/-- The pages that the loop over a segment visits: below its end; an empty
    segment at address 0 makes it start over the whole address space, and fault
    at the second page. -/
def ProgramHeader.Visits (ph : ProgramHeader) (page : Nat) : Prop :=
  page < 2 ^ 64 ∧ (ph.seg_mem_end = 0 → page = 0 ∨ page = 4096)

theorem ProgramHeader.seg_mem_end_lt (ph : ProgramHeader) : ph.seg_mem_end < 2 ^ 64 := by
  unfold ProgramHeader.seg_mem_end satAdd
  omega

/-- The last page of a segment. -/
theorem last_page_le {e page : Nat} (he : 0 < e) (he' : e < 2 ^ 64)
    (h : page ≤ wsub e 1 &&& bnot (PAGE_SIZE - 1)) : page < e := by
  have h1 : wsub e 1 = e - 1 := wsub_of_le he he'
  have h2 : wsub e 1 &&& bnot (PAGE_SIZE - 1) ≤ wsub e 1 := Nat.and_le_left
  omega

theorem ProgramHeader.Visits.zero {ph : ProgramHeader} {page : Nat} (h : ph.Visits page)
    (hle : page ≤ wsub ph.seg_mem_end 1 &&& bnot (PAGE_SIZE - 1)) :
    ph.zero_len page ≤ 4096 ∨ kernelEnd < ph.zero_len page := by
  obtain ⟨hlt, hempty⟩ := h
  have hend := ph.seg_mem_end_lt
  unfold ProgramHeader.zero_len
  by_cases h0 : ph.seg_mem_end = 0
  · rw [h0, Nat.min_zero]
    rcases hempty h0 with rfl | rfl
    · exact Or.inl (by unfold wsub; omega)
    · exact Or.inr (by unfold wsub kernelEnd; omega)
  · have hpage := last_page_le (by omega) hend hle
    left
    by_cases hwrap : page + 4096 < 2 ^ 64
    · rw [show wadd page PAGE_SIZE = page + 4096 from wadd_of_lt hwrap, wsub_of_le (by omega) (by omega)]
      omega
    · have hw : wadd page PAGE_SIZE = page + 4096 - 2 ^ 64 := by
        unfold wadd PAGE_SIZE
        omega
      rw [hw, Nat.min_eq_left (by omega)]
      unfold wsub
      omega

/-- The next page is visited, too, if this one was loaded. -/
theorem ProgramHeader.Visits.next {ph : ProgramHeader} {page : Nat} (h : ph.Visits page)
    (hlen : ph.zero_len page ≤ 4096) : ph.Visits (wadd page PAGE_SIZE) := by
  refine ⟨wadd_lt _ _, fun h0 => ?_⟩
  rcases h.2 h0 with rfl | rfl
  · right
    exact wadd_of_lt (by unfold PAGE_SIZE; omega)
  · unfold ProgramHeader.zero_len at hlen
    rw [h0, Nat.min_zero] at hlen
    unfold wsub at hlen
    omega

theorem load_pages_wp (data : Nat) (ph : ProgramHeader) (fuel : Nat) : ∀ {s : Mm} {page : Nat},
    Space s0 R K r s → ph.Visits page →
    Prog.wp (load_pages ⟨r⟩ data ph (wsub ph.seg_mem_end 1 &&& bnot (PAGE_SIZE - 1)) fuel page)
      (fun _ t => Space s0 R K r t ∧ KeepsPages r s t) (fun _ _ => True) s := by
  induction fuel with
  | zero =>
    intro s page h hv
    rw [load_pages, Prog.wp_throw]
    trivial
  | succ fuel ih =>
    intro s page h hv
    rw [load_pages]
    by_cases hlast : page > wsub ph.seg_mem_end 1 &&& bnot (PAGE_SIZE - 1)
    · rw [if_pos hlast, Prog.wp_pure]
      exact ⟨h, KeepsPages.refl r s⟩
    · rw [if_neg hlast, Prog.wp_bind]
      refine (load_page_wp h data ph (hv.zero (by omega))).mono ?_ fun _ _ _ => trivial
      intro o t ho
      rcases ho with ⟨rfl, hspace, hkeep, hlen⟩ | ⟨rfl, rfl⟩
      · refine (ih hspace (hv.next hlen)).mono ?_ fun _ _ _ => trivial
        intro _ u hu
        exact ⟨hu.1, hkeep.trans hu.2⟩
      · rw [Prog.wp_pure]
        exact ⟨h, KeepsPages.refl r t⟩

theorem load_segment_wp (h : Space s0 R K r s) (data : Nat) (ph : ProgramHeader) :
    Prog.wp (load_segment ⟨r⟩ data ph) (fun _ t => Space s0 R K r t ∧ KeepsPages r s t)
      (fun _ _ => True) s := by
  unfold load_segment
  have hskip := And.intro h (KeepsPages.refl r s)
  cases hload : ph.load with
  | none => simpa only [Prog.wp_pure] using hskip
  | some b =>
    cases b with
    | false => simpa only [Prog.wp_pure] using hskip
    | true =>
      simp only [Prog.wp_bind, Prog.wp_get]
      refine load_pages_wp data ph _ h ⟨?_, ?_⟩
      · have h1 : ph.vaddr &&& bnot (PAGE_SIZE - 1) ≤ bnot (PAGE_SIZE - 1) := Nat.and_le_right
        have h2 : bnot (PAGE_SIZE - 1) < 2 ^ 64 := by unfold bnot; omega
        omega
      · intro h0
        have hv : ph.vaddr = 0 := by
          unfold ProgramHeader.seg_mem_end satAdd at h0
          omega
        rw [hv, Nat.zero_and]
        exact Or.inl rfl

/-- **The segments** of a file. -/
theorem load_elf_into_wp (h : Space s0 R K r s) (data : Nat) (elf : Elf) :
    Prog.wp (load_elf_into ⟨r⟩ data elf)
      (fun o t => Space s0 R K r t ∧ KeepsPages r s t ∧
        (elf.program_headers = [] → o = some elf.max_end ∧ t = s))
      (fun _ _ => elf.program_headers ≠ []) s := by
  unfold load_elf_into
  rw [Prog.wp_bind]
  by_cases hnil : elf.program_headers = []
  · rw [hnil, Prog.each, Prog.wp_pure, Prog.wp_pure]
    exact ⟨h, KeepsPages.refl r s, fun _ => ⟨rfl, rfl⟩⟩
  · refine (Prog.each_wp (I := fun _ t => Space s0 R K r t ∧ KeepsPages r s t)
      (N := fun t => Space s0 R K r t ∧ KeepsPages r s t) (E := fun _ _ => True) ?_
      ⟨h, KeepsPages.refl r s⟩).mono ?_ fun _ _ _ => hnil
    · intro done ph rest t _ ht
      refine (load_segment_wp ht.1 data ph).mono ?_ fun _ _ _ => trivial
      intro o u hu
      have hu' := And.intro hu.1 (ht.2.trans hu.2)
      cases o with
      | none => exact Or.inr ⟨rfl, hu'⟩
      | some x => exact Or.inl ⟨rfl, hu'⟩
    · intro o t ho
      rw [Prog.wp_pure]
      have ht : Space s0 R K r t ∧ KeepsPages r s t := by
        rcases ho with ⟨-, ht⟩ | ⟨-, ht⟩ <;> exact ht
      exact ⟨ht.1, ht.2, fun h => absurd h hnil⟩

/-! ## Section 4: The contents of the stack -/

/-- The strings fit into the topmost page of the stack. -/
def StackFits (strs : List Path) : Prop :=
  ∀ i s, strs[i]? = some s → 0x400 + i * 0x100 + s.length + 1 ≤ 4096

theorem StackFits.length_le {strs : List Path} (h : StackFits strs) : strs.length ≤ 12 := by
  by_contra hlong
  have hlt : 12 < strs.length := by omega
  have := h 12 strs[12] (List.getElem?_eq_getElem hlt)
  omega

theorem write_strings_wp {f : Nat} {v : Vpn} : ∀ {strs : List Path} {off : Nat} {s : Mm},
    Space s0 R K r s → UserPage s.mem r v f →
    (∀ i str, strs[i]? = some str → off + i * 0x100 + str.length + 1 ≤ 4096) →
    Prog.wp (write_strings (4096 * f) strs off)
      (fun _ t => Space s0 R K r t ∧ KeepsPages r s t ∧ t.pages = s.pages)
      (fun _ _ => kernelEnd < 4096 * f + 4096) s := by
  intro strs
  induction strs with
  | nil =>
    intro off s h hu _
    rw [write_strings, Prog.wp_pure]
    exact ⟨h, KeepsPages.refl r s, rfl⟩
  | cons str rest ih =>
    intro off s h hu hfit
    have h0 := hfit 0 str rfl
    have hlen : (str ++ [0]).length = str.length + 1 := by simp
    rw [write_strings, Prog.wp_bind]
    refine phys_write_wp ?_ fun hbad => by omega
    intro _
    obtain ⟨hspace, hkeep⟩ := h.write_page hu (m := blit s.mem (4096 * f + off) (str ++ [0]))
      fun a ha => blit_out (by omega)
    refine (ih hspace (hkeep.page hu) ?_).mono ?_ fun _ _ he => he
    · intro i str' hi
      have := hfit (i + 1) str' hi
      omega
    · intro _ t ht
      exact ⟨ht.1, hkeep.trans ht.2.1, ht.2.2⟩

/-- **The initial contents of the stack** stay in its topmost page. -/
theorem build_stack_wp (h : Space s0 R K r s) {f : Nat} {v : Vpn} (hu : UserPage s.mem r v f)
    {argv envp : List Path} (hfit : StackFits (argv ++ envp)) (at_phdr phent phnum entry : Nat) :
    Prog.wp (build_stack (4096 * f) argv envp at_phdr phent phnum entry)
      (fun _ t => Space s0 R K r t ∧ KeepsPages r s t ∧ t.pages = s.pages)
      (fun _ _ => kernelEnd < 4096 * f + 4096) s := by
  have hvec : ((stack_vector argv.length envp.length at_phdr phent phnum entry).flatMap word).length
      ≤ 4096 := by
    have hword : ∀ l : List Nat, (l.flatMap word).length = 8 * l.length := by
      intro l
      induction l with
      | nil => rfl
      | cons x l ih =>
        rw [List.flatMap_cons, List.length_append, ih, List.length_cons, word, length_leBytes]
        omega
    have hn := hfit.length_le
    rw [List.length_append] at hn
    rw [hword]
    simp only [stack_vector, List.length_append, List.length_map, List.length_range,
      List.length_cons, List.length_nil]
    omega
  unfold build_stack
  simp only [Prog.wp_bind]
  refine phys_write_wp ?_ fun hbad => by omega
  intro _
  generalize (stack_vector argv.length envp.length at_phdr phent phnum entry).flatMap word = vec at *
  obtain ⟨h1, hkeep1⟩ := h.write_page hu (m := blit s.mem (4096 * f) vec) fun a ha => blit_out (by omega)
  refine (write_strings_wp h1 (hkeep1.page hu) fun i str hi => hfit i str hi).mono ?_ fun _ _ he => he
  intro _ t ht
  obtain ⟨h2, hkeep2, hpages⟩ := ht
  refine phys_write_wp ?_ fun hbad => by simp at hbad; omega
  intro _
  rw [Prog.wp_pure]
  obtain ⟨h3, hkeep3⟩ := h2.write_page ((hkeep1.trans hkeep2).page hu)
    (m := blit t.mem (4096 * f + 0x200) (List.replicate 16 0xab))
    fun a ha => blit_out (by simp; omega)
  exact ⟨h3, (hkeep1.trans hkeep2).trans hkeep3, hpages⟩

end Space

/-! ## Section 5: The program -/

/-- What loading a program does not touch. -/
def Kernel.rest (k : Kernel) : Nat × Std.TreeMap Nat Process × Nat × Nat × TrapFrame × Nat × Io :=
  (k.satp, k.procs, k.current_pid, k.next_pid, k.current_trap_frame, k.mmap_base, k.io)

theorem rest_mm {α : Type} (c : MmM α) : Prog.Fixes Kernel.rest (KM.mm c) := by
  intro k
  unfold KM.mm
  rw [Prog.zoom_final]
  rfl

theorem rest_align_elf (data : List UInt8) : Prog.Fixes Kernel.rest (align_elf data) := by
  intro k
  unfold align_elf
  simp only [Prog.bind_run, Prog.get_run]
  rcases heap_alloc k.heap data.length 4 with ⟨_ | ptr, h⟩
  · rfl
  · rfl

theorem rest_load_program (env : Env) (pt : PageTable) (data : List UInt8) (argv envp : List Path) :
    Prog.Fixes Kernel.rest (load_program env pt data argv envp) := by
  unfold load_program
  refine (rest_mm _).bind fun o => ?_
  cases o with
  | none => exact Prog.Fixes.pure _
  | some top =>
    refine (rest_align_elf _).bind fun o => ?_
    cases o with
    | none => exact Prog.Fixes.pure _
    | some ptr =>
      cases env.parse_elf data with
      | none => exact Prog.Fixes.pure _
      | some elf =>
        refine (rest_mm _).bind fun o => ?_
        cases o with
        | none => exact Prog.Fixes.pure _
        | some max_end => exact (rest_mm _).bind fun _ => Prog.Fixes.pure _

section Program

variable {s0 : Mm} {R K : Set Nat} {r : Nat} {k : Kernel}

/-- A copy of the file on the heap, above all frames. -/
theorem align_elf_wp (h : Space s0 R K r k.mm) (hheap : k.heap.Ok)
    (hroom : k.mm.pages.current ≤ 0x8600_0000) (data : List UInt8) :
    Prog.wp (align_elf data)
      (fun o k' => Space s0 R K r k'.mm ∧ KeepsPages r k.mm k'.mm ∧ k'.heap.Ok ∧
        k'.mm.pages = k.mm.pages ∧
        (o = none → (heap_alloc k.heap data.length 4).1 = none))
      (fun _ _ => False) k := by
  unfold align_elf
  simp only [Prog.wp_bind, Prog.wp_get]
  rcases halloc : heap_alloc k.heap data.length 4 with ⟨_ | ptr, h'⟩
  · have hsame := heap_alloc_refused hheap halloc
    unfold Prog.wp
    exact ⟨h, KeepsPages.refl r k.mm, by rw [hsame]; exact hheap, rfl, fun _ => rfl⟩
  · obtain ⟨hok, hlo, hhi⟩ := heap_alloc_block hheap halloc
    obtain ⟨hspace, hleaf⟩ := h.write (m := blit k.mm.mem ptr data) fun a hne => by
      right
      by_contra hlt
      exact hne (blit_out (by omega))
    unfold Prog.wp
    exact ⟨hspace, fun v _ => hleaf v, hok, rfl, fun hnone => by cases hnone⟩

/-- How loading a program can fail: frames or heap run out, the file is not an
    ELF file, or it has segments (which may not fit together). -/
def LoadFails (env : Env) (s0 : Mm) (c : Nat) (heap : HeapAllocator) (data : List UInt8) : Prop :=
  s0.pages.end_ < c + 12288 * 9 ∨ (heap_alloc heap data.length 4).1 = none ∨
    ∀ elf, env.parse_elf data = some elf → elf.program_headers ≠ []

/-- **`load_program`** on a table without user pages keeps to new frames. -/
theorem load_program_wp (h : Space s0 R K r k.mm) (hnone : ∀ v, userLeaf k.mm.mem r v = none)
    (hheap : k.heap.Ok) (hroom : k.mm.pages.current + 12288 * 9 ≤ 0x8600_0000) (env : Env)
    (data : List UInt8) {argv envp : List Path} (hfit : StackFits (argv ++ envp)) :
    Prog.wp (load_program env ⟨r⟩ data argv envp)
      (fun o k' => Space s0 R K r k'.mm ∧ k'.heap.Ok ∧
        (o = none → LoadFails env s0 k.mm.pages.current k.heap data) ∧
        (LoadFails env s0 k.mm.pages.current k.heap data ∨
          k'.mm.pages.current ≤ k.mm.pages.current + 12288 * 9))
      (fun _ _ => LoadFails env s0 k.mm.pages.current k.heap data) k := by
  unfold load_program KM.mm
  rw [Prog.wp_bind, Prog.wp_zoom]
  refine (map_stack_wp h hnone).mono ?_ fun _ _ he => Or.inl he
  intro o t ht
  obtain ⟨hspace, hused, htop, hfull⟩ := ht
  cases o with
  | none =>
    rw [Prog.wp_pure]
    exact ⟨hspace, hheap, fun _ => Or.inl (hfull rfl), Or.inr hused⟩
  | some top =>
    obtain ⟨f, rfl, hpage, -⟩ := htop top rfl
    simp only [Prog.wp_bind]
    refine (align_elf_wp (k := { k with mm := t }) hspace hheap (by show t.pages.current ≤ _; omega)
      data).mono ?_ fun _ _ he => he.elim
    intro o2 k2 h2
    obtain ⟨hspace2, hkeep2, hheap2, hpages2, hfail2⟩ := h2
    have hused2 : k2.mm.pages.current ≤ k.mm.pages.current + 12288 * 9 := by
      rw [hpages2]
      exact hused
    cases o2 with
    | none =>
      rw [Prog.wp_pure]
      exact ⟨hspace2, hheap2, fun _ => Or.inr (Or.inl (hfail2 rfl)), Or.inr hused2⟩
    | some ptr =>
      cases helf : env.parse_elf data with
      | none =>
        simp only [Prog.wp_pure]
        have hfail : LoadFails env s0 k.mm.pages.current k.heap data :=
          Or.inr (Or.inr fun elf he => by rw [helf] at he; cases he)
        exact ⟨hspace2, hheap2, fun _ => hfail, Or.inl hfail⟩
      | some elf =>
        simp only [Prog.wp_bind, Prog.wp_zoom]
        have hbad : elf.program_headers ≠ [] → LoadFails env s0 k.mm.pages.current k.heap data := by
          intro hne
          refine Or.inr (Or.inr fun elf' he => ?_)
          rw [helf] at he
          cases he
          exact hne
        refine (load_elf_into_wp hspace2 ptr elf).mono ?_ fun _ _ he => hbad he
        intro o3 t3 h3
        obtain ⟨hspace3, hkeep3, hempty3⟩ := h3
        cases o3 with
        | none =>
          rw [Prog.wp_pure]
          have hfail := hbad fun hnil => by have := (hempty3 hnil).1; cases this
          exact ⟨hspace3, hheap2, fun _ => hfail, Or.inl hfail⟩
        | some max_end =>
          simp only [Prog.wp_bind, Prog.wp_zoom]
          have hpage3 : UserPage t3.mem r (Vpn.of stackTop) f := hkeep3.page (hkeep2.page hpage)
          have hbelow := hspace.builds.own.user_below r hspace.builds.root _ f hpage
          refine (build_stack_wp hspace3 hpage3 hfit _ _ _ _).mono ?_ ?_
          · intro _ t4 h4
            rw [Prog.wp_pure]
            refine ⟨h4.1, hheap2, (fun hno => absurd hno (by simp)), ?_⟩
            by_cases hnil : elf.program_headers = []
            · right
              show t4.pages.current ≤ _
              rw [h4.2.2, (hempty3 hnil).2]
              exact hused2
            · exact Or.inl (hbad hnil)
          · intro _ _ he
            unfold kernelEnd at he
            omega

end Program

end Rvos

import Mathlib
import Rvos.Mm.Mappings
import Rvos.Mm.Own

/-! # Building an address space

    An address space starts with the identity mappings of kernel and devices;
    then come the user pages.  `identity_map_wp` and `clone_user_space_wp` say
    what holds when each part returns, and that it does return when enough
    frames are left.

    * `KernelMapped` : the pages without the `U` flag are the identity pages.
    * `CopyOf`       : a table with the same user pages as another, in frames
      of its own. -/

namespace Rvos

open ByteMem Usize

/-! ## Section 1: The identity mappings -/

/-- The flags of the kernel's memory and of the devices. -/
def kernelFlags : PTEFlags := .R ||| .W ||| .X

def deviceFlags : PTEFlags := .R ||| .W

/-- Every page the kernel maps to itself, with its flags. -/
def identityPages : List (Nat × PTEFlags) :=
  (pages 0x8000_0000 0x8800_0000).map (·, kernelFlags) ++
  [(0x1000_0000, deviceFlags)] ++
  (pages 0x1000_1000 0x1000_9000).map (·, deviceFlags) ++
  (pages 0x0c00_0000 0x0c20_0000).map (·, deviceFlags)

/-- The entry of an identity page. -/
def identityEntry (p : Nat × PTEFlags) : PageTableEntry :=
  PageTableEntry.new (p.1 >>> PAGE_SIZE_BITS) p.2.mapped

/-- The pages without the `U` flag are exactly the identity pages. -/
def KernelMapped (m : Mem) (r : Nat) : Prop :=
  ∀ v e, (leaf m r v = some e ∧ e.flags.contains .U = false) ↔
    ∃ p ∈ identityPages, v = Vpn.of p.1 ∧ e = identityEntry p

/-- Four loops in a row are one loop over the lists in a row. -/
theorem forM_in_a_row {α : Type} (g : Nat × α → MmM Unit) (l1 l2 l3 : List Nat) (x : Nat)
    (a b : α) :
    (do l1.forM fun n => g (n, a)
        g (x, b)
        l2.forM fun n => g (n, b)
        l3.forM fun n => g (n, b)) =
      (l1.map (·, a) ++ [(x, b)] ++ l2.map (·, b) ++ l3.map (·, b)).forM g := by
  simp [List.forM_eq_forM]

theorem identity_map_eq (pt : PageTable) :
    pt.identity_map = identityPages.forM fun p => pt.map p.1 p.1 p.2 := by
  unfold identityPages
  rw [← forM_in_a_row]
  rfl

theorem mem_pages {lo hi a : Nat} (h : a ∈ pages lo hi) :
    ∃ k, a = lo + 4096 * k ∧ a < hi := by
  unfold pages at h
  obtain ⟨k, hk, rfl⟩ := List.mem_map.mp h
  have hk' := List.mem_range.mp hk
  refine ⟨k, rfl, ?_⟩
  unfold PAGE_SIZE at hk' ⊢
  omega

theorem pages_nodup (lo hi : Nat) : (pages lo hi).Nodup := by
  unfold pages
  refine List.nodup_range.map fun a b hab => ?_
  simpa [PAGE_SIZE] using hab

/-- Where the identity pages are: below `2 ^ 32`, aligned, not for the user, and
    in 66 of the 2 MiB regions that one last-level node covers. -/
theorem identityPages_mem {p : Nat × PTEFlags} (h : p ∈ identityPages) :
    p.1 < 2 ^ 32 ∧ 4096 ∣ p.1 ∧ p.2.contains .U = false ∧
      p.1 / 2 ^ 21 ∈ Finset.Icc 1024 1087 ∪ {128, 96} := by
  simp only [identityPages, List.mem_append, List.mem_map, List.mem_singleton] at h
  have hU : kernelFlags.contains .U = false ∧ deviceFlags.contains .U = false := by decide
  simp only [Finset.mem_union, Finset.mem_Icc, Finset.mem_insert, Finset.mem_singleton]
  rcases h with ((⟨a, ha, rfl⟩ | rfl) | ⟨a, ha, rfl⟩) | ⟨a, ha, rfl⟩
  · obtain ⟨k, rfl, hk⟩ := mem_pages ha
    exact ⟨by omega, by omega, hU.1, by omega⟩
  · exact ⟨by norm_num, by norm_num, hU.2, by norm_num⟩
  · obtain ⟨k, rfl, hk⟩ := mem_pages ha
    exact ⟨by omega, by omega, hU.2, by omega⟩
  · obtain ⟨k, rfl, hk⟩ := mem_pages ha
    exact ⟨by omega, by omega, hU.2, by omega⟩

/-- Aligned addresses below `2 ^ 39` of one page are equal. -/
theorem Vpn.of_inj {a b : Nat} (ha : a < 2 ^ 39) (hb : b < 2 ^ 39) (ha' : 4096 ∣ a)
    (hb' : 4096 ∣ b) (h : Vpn.of a = Vpn.of b) : a = b := by
  have hkey : Rvos.key a = Rvos.key b := by rw [← Vpn.key_of, ← Vpn.key_of, h]
  simp only [Rvos.key, Nat.shiftRight_eq_div_pow, PAGE_SIZE_BITS] at hkey
  omega

theorem identityPages_nodup : (identityPages.map Prod.fst).Nodup := by
  have hfst : ∀ (l : List Nat) (f : PTEFlags), (l.map (·, f)).map Prod.fst = l := by
    intro l f
    simp [Function.comp_def]
  simp only [identityPages, List.map_append, hfst, List.map_cons, List.map_nil]
  rw [List.nodup_append, List.nodup_append, List.nodup_append]
  refine ⟨⟨⟨pages_nodup _ _, List.nodup_singleton _, ?_⟩, pages_nodup _ _, ?_⟩, pages_nodup _ _, ?_⟩
  · intro a ha b hb
    obtain ⟨k, rfl, -⟩ := mem_pages ha
    have := List.mem_singleton.mp hb
    omega
  · intro a ha b hb
    obtain ⟨k, rfl, hk⟩ := mem_pages hb
    rcases List.mem_append.mp ha with ha | ha
    · obtain ⟨l, rfl, -⟩ := mem_pages ha
      omega
    · have := List.mem_singleton.mp ha
      omega
  · intro a ha b hb
    obtain ⟨k, rfl, hk⟩ := mem_pages hb
    rcases List.mem_append.mp ha with ha | ha
    · rcases List.mem_append.mp ha with ha | ha
      · obtain ⟨l, rfl, -⟩ := mem_pages ha
        omega
      · have := List.mem_singleton.mp ha
        omega
    · obtain ⟨l, rfl, -⟩ := mem_pages ha
      omega

theorem identityEntry_flags {p : Nat × PTEFlags} (h : p ∈ identityPages) :
    (identityEntry p).flags = p.2.mapped := by
  have hlt := (identityPages_mem h).1
  refine PageTableEntry.new_flags ?_ _
  rw [Nat.shiftRight_eq_div_pow, PAGE_SIZE_BITS]
  omega

/-! ## Section 2: `identity_map` -/

/-- The leaves of the table are the identity pages of the list. -/
def OnlyIdentity (l : List (Nat × PTEFlags)) (m : Mem) (r : Nat) : Prop :=
  ∀ v e, leaf m r v = some e ↔ ∃ p ∈ l, v = Vpn.of p.1 ∧ e = identityEntry p

section Identity

variable {s0 s s' : Mm} {R K : Set Nat} {r : Nat} {l done : List (Nat × PTEFlags)}

theorem OnlyIdentity.mapped (h : OnlyIdentity done s.mem r) (hr : r ∈ R) {p : Nat × PTEFlags}
    (hm : Mapped R r (Vpn.of p.1) (identityEntry p) s s') :
    OnlyIdentity (done ++ [p]) s'.mem r := by
  intro v e
  rw [hm.leaves r hr v]
  by_cases hv : v = Vpn.of p.1
  · -- the page was not mapped, so no page of `done` is this one
    have hnone : ∀ e', ¬ ∃ q ∈ done, v = Vpn.of q.1 ∧ e' = identityEntry q := by
      intro e' hq
      have hsome := (h v e').mpr hq
      rw [hv, hm.was] at hsome
      cases hsome
    simp only [true_and, hv, if_true, List.mem_append, List.mem_singleton]
    constructor
    · intro he
      exact ⟨p, Or.inr rfl, rfl, (Option.some.inj he).symm⟩
    · rintro ⟨q, hq, hvq, he⟩
      rcases hq with hq | rfl
      · exact absurd ⟨q, hq, hv.trans hvq, he⟩ (hnone e)
      · rw [he]
  · simp only [hv, and_false, if_false, h v e, List.mem_append, List.mem_singleton]
    constructor
    · rintro ⟨q, hq, hrest⟩
      exact ⟨q, Or.inl hq, hrest⟩
    · rintro ⟨q, hq, hvq, he⟩
      rcases hq with hq | rfl
      · exact ⟨q, hq, hvq, he⟩
      · exact absurd hvq hv

theorem OnlyIdentity.kernelMapped {m : Mem} (h : OnlyIdentity identityPages m r) :
    KernelMapped m r ∧ ∀ v, userLeaf m r v = none := by
  have hU : ∀ p ∈ identityPages, (identityEntry p).flags.contains .U = false := by
    intro p hp
    rw [identityEntry_flags hp, PTEFlags.mapped_contains_U]
    exact (identityPages_mem hp).2.2.1
  constructor
  · intro v e
    rw [h v e]
    constructor
    · exact And.left
    · rintro ⟨p, hp, hv, he⟩
      exact ⟨⟨p, hp, hv, he⟩, he ▸ hU p hp⟩
  · intro v
    unfold userLeaf
    cases hleaf : leaf m r v with
    | none => rfl
    | some e =>
      obtain ⟨p, hp, -, rfl⟩ := (h v e).mp hleaf
      simp [Option.filter, hU p hp]

theorem onlyIdentity_nil {m : Mem} (h : ∀ v, leaf m r v = none) : OnlyIdentity [] m r := by
  intro v e
  simp [h v]

/-- The 2 MiB regions of a list of pages: one last-level node each. -/
def regions (l : List (Nat × PTEFlags)) : Finset Nat := (l.map fun p => p.1 / 2 ^ 21).toFinset

theorem regions_snoc (l : List (Nat × PTEFlags)) (p : Nat × PTEFlags) :
    regions (l ++ [p]) = insert (p.1 / 2 ^ 21) (regions l) := by
  ext x
  simp [regions]

theorem regions_identityPages (h : ∀ p ∈ l, p ∈ identityPages) : (regions l).card ≤ 66 := by
  have hsub : regions l ⊆ Finset.Icc 1024 1087 ∪ {128, 96} := by
    intro x hx
    obtain ⟨p, hp, rfl⟩ := List.mem_map.mp (List.mem_toFinset.mp hx)
    exact (identityPages_mem (h p hp)).2.2.2
  calc (regions l).card ≤ (Finset.Icc 1024 1087 ∪ {128, 96} : Finset Nat).card :=
        Finset.card_le_card hsub
    _ ≤ (Finset.Icc 1024 1087 : Finset Nat).card + ({128, 96} : Finset Nat).card :=
        Finset.card_union_le _ _
    _ = 66 := by simp

theorem Vpn.of_region {a b : Nat} (h : a / 2 ^ 21 = b / 2 ^ 21) :
    (Vpn.of a).i = (Vpn.of b).i ∧ (Vpn.of a).j = (Vpn.of b).j := by
  constructor <;> apply Fin.ext <;>
    simp only [Vpn.of, low9_val, Nat.shiftRight_eq_div_pow, PAGE_SIZE_BITS] <;> omega

theorem node_of_leaf {m : Mem} {v : Vpn} {e : PageTableEntry} (h : leaf m r v = some e) :
    node m r [v.i, v.j] ≠ none := by
  intro hnone
  simp [leaf, hnone] at h

/-- The identity pages mapped so far, with the frames their nodes took. -/
structure IdentityProgress (s0 : Mm) (R K : Set Nat) (r c : Nat) (done : List (Nat × PTEFlags))
    (s : Mm) : Prop where
  builds : Builds s0 R K r s
  only : OnlyIdentity done s.mem r
  used : s.pages.current ≤ c + 8192 * (regions done).card

/-- One identity page more. -/
theorem IdentityProgress.step {c : Nat} (h : IdentityProgress s0 R K r c done s)
    {p : Nat × PTEFlags} {rest : List (Nat × PTEFlags)} (hl : identityPages = done ++ p :: rest) :
    Prog.wp (PageTable.map ⟨r⟩ p.1 p.1 p.2)
      (fun _ t => IdentityProgress s0 R K r c (done ++ [p]) t)
      (fun _ _ => s0.pages.end_ < c + 8192 * 66) s := by
  obtain ⟨hb, hid, hused⟩ := h
  have hp : p ∈ identityPages := by simp [hl]
  obtain ⟨hplt, hpal, hU, -⟩ := identityPages_mem hp
  have hnodup := identityPages_nodup
  have hcard : (regions (done ++ [p])).card ≤ 66 :=
    regions_identityPages fun q hq => by
      rw [hl]
      simp only [List.mem_append, List.mem_cons, List.not_mem_nil, or_false] at hq ⊢
      tauto
  have hnone : leaf s.mem r (Vpn.of p.1) = none := by
    cases hleaf : leaf s.mem r (Vpn.of p.1) with
    | none => rfl
    | some e =>
      -- a page of `done` at the same address would occur twice in the list
      obtain ⟨q, hq, hv, -⟩ := (hid _ e).mp hleaf
      have hq' : q ∈ identityPages := by simp [hl, hq]
      obtain ⟨hqlt, hqal, -, -⟩ := identityPages_mem hq'
      have heq := Vpn.of_inj (by omega) (by omega) hpal hqal hv
      rw [hl, List.map_append, List.nodup_append] at hnodup
      exact absurd heq.symm (hnodup.2.2 q.1 (List.mem_map_of_mem hq) p.1 (by simp))
  -- a page of a region seen before finds its node; another region is counted
  have hseen : p.1 / 2 ^ 21 ∈ regions done → node s.mem r [(Vpn.of p.1).i, (Vpn.of p.1).j] ≠ none := by
    intro hseen
    obtain ⟨q, hq, hregion⟩ := List.mem_map.mp (List.mem_toFinset.mp hseen)
    have hnode := node_of_leaf ((hid _ _).mpr ⟨q, hq, rfl, rfl⟩)
    obtain ⟨hi, hj⟩ := Vpn.of_region hregion
    rwa [hi, hj] at hnode
  rw [regions_snoc] at hcard
  refine (map_wp hb.own.tables hb.root (by omega) p.2).mono ?_ ?_
  · intro _ t hm
    refine ⟨?_, hid.mapped hb.root hm, ?_⟩
    · refine hb.mapped hm fun hU' => ?_
      have hflags := identityEntry_flags hp
      unfold identityEntry at hflags
      rw [hflags, PTEFlags.mapped_contains_U, hU] at hU'
      cases hU'
    · rw [regions_snoc]
      by_cases hmem : p.1 / 2 ^ 21 ∈ regions done
      · rw [hm.reused (hseen hmem), Finset.insert_eq_of_mem hmem]
        exact hused
      · have hmore := hm.used
        rw [Finset.card_insert_of_notMem hmem]
        linarith
  · intro e t he
    rcases he with ⟨-, hsome⟩ | ⟨-, -, hnode, hfull⟩
    · simp [hnone] at hsome
    · have hnew : p.1 / 2 ^ 21 ∉ regions done := fun hmem => hseen hmem hnode
      rw [Finset.card_insert_of_notMem hnew] at hcard
      have hend := hb.end_eq
      omega

/-- **The identity mappings** of an empty table; at most 132 frames are needed. -/
theorem identity_map_wp (h : Builds s0 R K r s) (hempty : ∀ v, leaf s.mem r v = none) :
    Prog.wp (PageTable.identity_map ⟨r⟩)
      (fun _ t => Builds s0 R K r t ∧ KernelMapped t.mem r ∧ (∀ v, userLeaf t.mem r v = none) ∧
        t.pages.current ≤ s.pages.current + 8192 * 66)
      (fun _ _ => s0.pages.end_ < s.pages.current + 8192 * 66) s := by
  rw [identity_map_eq]
  have hstart : IdentityProgress s0 R K r s.pages.current [] s := by
    refine ⟨h, onlyIdentity_nil hempty, ?_⟩
    omega
  refine (Prog.forM_wp (fun done p rest t hl ht => ht.step hl) hstart).mono ?_ fun _ _ he => he
  intro _ t ht
  have hcard := regions_identityPages (l := identityPages) fun p hp => hp
  obtain ⟨hkernel, huser⟩ := ht.only.kernelMapped
  exact ⟨ht.builds, hkernel, huser, Nat.le_trans ht.used (by omega)⟩

end Identity

/-! ## Section 3: Copies of an address space -/

instance : Finite Vpn :=
  Finite.of_injective (fun v : Vpn => (v.i, v.j, v.k)) fun v w h => by
    cases v
    cases w
    simp_all

/-- The user pages of a table. -/
def userPages (m : Mem) (r : Nat) : Set Vpn := { v | userLeaf m r v ≠ none }

/-- Two frames hold the same bytes. -/
def SamePage (m : Mem) (f : Nat) (m' : Mem) (f' : Nat) : Prop :=
  ∀ o, o < 4096 → m' (4096 * f' + o) = m (4096 * f + o)

/-- The user pages of `r'` are those of `r` that lie in `D`: with the flags
    that `map` makes of theirs, and with the same bytes. -/
structure CopyOf (m : Mem) (r : Nat) (D : Set Vpn) (m' : Mem) (r' : Nat) : Prop where
  copied : ∀ v ∈ D, ∀ e, userLeaf m r v = some e → ∃ f e', userLeaf m' r' v = some e' ∧
    e'.ppn = f ∧ e'.flags = e.flags.mapped ∧ SamePage m e.ppn m' f
  others : ∀ v, v ∉ D ∨ userLeaf m r v = none → userLeaf m' r' v = none

section Clone

variable {s0 s t : Mm} {R K : Set Nat} {r r' c : Nat} {D : Set Vpn}

theorem KernelMapped.congr {m m' : Mem} (h : KernelMapped m r)
    (hsame : ∀ v, leaf m' r v = leaf m r v) : KernelMapped m' r := by
  intro v e
  rw [hsame v]
  exact h v e

/-- Mapping a user page leaves the identity pages alone. -/
theorem KernelMapped.mapped (h : KernelMapped s.mem r) (hr : r ∈ R) {v : Vpn}
    {e : PageTableEntry} (hm : Mapped R r v e s t) (hU : e.flags.contains .U = true) :
    KernelMapped t.mem r := by
  intro w e'
  rw [← h w e', hm.leaves r hr w]
  by_cases hw : w = v
  · subst hw
    have hwas := hm.was
    simp only [true_and, if_true, hwas]
    constructor
    · rintro ⟨he, hno⟩
      cases he
      rw [hU] at hno
      cases hno
    · rintro ⟨he, _⟩
      cases he
  · simp [hw]

/-- A user page lies at none of the identity pages. -/
theorem KernelMapped.leaf_none {m m' : Mem} (h : KernelMapped m r) (h' : KernelMapped m' r')
    {v : Vpn} (huser : userLeaf m r v ≠ none) (hnone : userLeaf m' r' v = none) :
    leaf m' r' v = none := by
  cases hleaf : leaf m' r' v with
  | none => rfl
  | some e =>
    have hU : e.flags.contains .U = false := by
      simpa [userLeaf, hleaf, Option.filter] using hnone
    -- the page is an identity page of the second table, so of the first
    obtain ⟨hr, hno⟩ := (h v e).mpr ((h' v e).mp ⟨hleaf, hU⟩)
    exact absurd (by simp [userLeaf, hr, hno]) huser

/-- The state inside `clone_user_space`, after the pages in `D`. -/
structure Cloning (s0 : Mm) (R K : Set Nat) (r r' c : Nat) (D : Set Vpn) (s : Mm) : Prop where
  builds : Builds s0 R K r' s
  kernel : KernelMapped s.mem r'
  copy : CopyOf s0.mem r D s.mem r'
  used : s.pages.current ≤ c + 12288 * (userPages s0.mem r ∩ D).ncard

/-- There are too few frames for a copy of the table `r` from the cursor `c` on. -/
def Short (s0 : Mm) (r c : Nat) : Prop :=
  s0.pages.end_ < c + 12288 * (userPages s0.mem r).ncard

theorem Cloning.skip (h : Cloning s0 R K r r' c D s) {D' : Set Vpn} (hsub : D ⊆ D')
    (hskip : ∀ v ∈ D', v ∉ D → userLeaf s0.mem r v = none) : Cloning s0 R K r r' c D' s := by
  refine ⟨h.builds, h.kernel, ⟨?_, ?_⟩, ?_⟩
  · intro v hv e he
    by_cases hD : v ∈ D
    · exact h.copy.copied v hD e he
    · rw [hskip v hv hD] at he
      cases he
  · intro v hv
    refine h.copy.others v ?_
    rcases hv with hv | hv
    · exact Or.inl fun hD => hv (hsub hD)
    · exact Or.inr hv
  · have hle : (userPages s0.mem r ∩ D).ncard ≤ (userPages s0.mem r ∩ D').ncard :=
      Set.ncard_le_ncard (Set.inter_subset_inter_right _ hsub)
    have := h.used
    omega

/-- Counting one page more. -/
theorem ncard_insert_user {v : Vpn} {m : Mem} (huser : userLeaf m r v ≠ none) (hv : v ∉ D) :
    (userPages m r ∩ insert v D).ncard = (userPages m r ∩ D).ncard + 1 ∧
      (userPages m r ∩ D).ncard + 1 ≤ (userPages m r).ncard := by
  have heq : userPages m r ∩ insert v D = insert v (userPages m r ∩ D) :=
    Set.inter_insert_of_mem huser
  have hcard : (insert v (userPages m r ∩ D)).ncard = (userPages m r ∩ D).ncard + 1 :=
    Set.ncard_insert_of_notMem fun h => hv h.2
  refine ⟨heq ▸ hcard, ?_⟩
  rw [← hcard, ← heq]
  exact Set.ncard_le_ncard Set.inter_subset_left

theorem Vpn.of_indices (i j k : Fin 512) :
    Vpn.of (shl ((i.val <<< 18) ||| (j.val <<< 9) ||| k.val) PAGE_SIZE_BITS) = ⟨i, j, k⟩ := by
  have hi := i.isLt
  have hj := j.isLt
  have hk := k.isLt
  have hor : (i.val <<< 18) ||| (j.val <<< 9) ||| k.val = (i.val * 512 + j.val) * 2 ^ 9 + k.val := by
    have h1 : (i.val <<< 18) ||| (j.val <<< 9) = (i.val * 512 + j.val) * 2 ^ 9 := by
      rw [Nat.shiftLeft_eq, Nat.shiftLeft_eq, mul_or_eq_add (by omega)]
      omega
    rw [h1, mul_or_eq_add (by omega)]
  have hva : shl ((i.val * 512 + j.val) * 2 ^ 9 + k.val) PAGE_SIZE_BITS =
      ((i.val * 512 + j.val) * 2 ^ 9 + k.val) * 4096 := by
    rw [shl, PAGE_SIZE_BITS, Nat.shiftLeft_eq, Nat.mod_eq_of_lt (by omega)]
  rw [hor, hva]
  apply Vpn.key_inj
  rw [Vpn.key_of]
  simp only [Rvos.key, Vpn.key, Nat.shiftRight_eq_div_pow, PAGE_SIZE_BITS]
  omega

/-- Bytes that `map` does not touch: those of frames in use that are not nodes. -/
theorem Mapped.bytes_kept {v : Vpn} {e : PageTableEntry} (hm : Mapped R r v e s t) {f : Nat}
    (hbelow : 4096 * f + 4096 ≤ s.pages.current)
    (hnode : ∀ p, p.length ≤ 2 → node s.mem r p ≠ some f) : SamePage s.mem f t.mem f := by
  intro o ho
  by_contra hne
  rcases hm.grows.bytes _ hne with ⟨p, g, hp, hg, h1, h2⟩ | hfresh
  · obtain rfl : g = f := by omega
    exact hnode p hp hg
  · omega

/-- The state after a frame is taken and filled with the frame `f`. -/
def Mm.takeCopy (s : Mm) (f : Nat) : Mm where
  mem := ByteMem.copy s.take.mem s.pages.current (4096 * f) 4096
  pages := s.take.pages

theorem takeCopy_mem (s : Mm) (f : Nat) :
    (s.takeCopy f).mem = ByteMem.copy s.take.mem s.pages.current (4096 * f) 4096 := rfl

theorem Builds.takeCopy (h : Builds s0 R K r' s) (hroom : s.pages.current + 4096 ≤ s.pages.end_)
    {f : Nat} (hf : 4096 * f + 4096 ≤ s0.pages.current) :
    Builds s0 R K r' (s.takeCopy f) ∧ Free (s.takeCopy f) (insert r' R) K s.next ∧
      (∀ v, leaf (s.takeCopy f).mem r' v = leaf s.mem r' v) ∧
      (∀ a, a < s.pages.current → (s.takeCopy f).mem a = s.mem a) ∧
      SamePage s0.mem f (s.takeCopy f).mem s.next := by
  obtain ⟨hb, hfree, hge⟩ := h.take hroom
  have hnext := h.own.tables.ok.next_eq
  have hcur := h.cursor
  have htake := same_take h.own.tables h.root
  have hout : ∀ a, (s.takeCopy f).mem a ≠ s.take.mem a →
      s.pages.current ≤ a ∧ a < s.pages.current + 4096 := by
    intro a hne
    by_contra hno
    exact hne (copy_out (by omega))
  obtain ⟨hb', hsame⟩ := hb.write (m := (s.takeCopy f).mem) fun a hne => by
    have ha := hout a hne
    refine ⟨by omega, fun p g hp hg hin => ?_⟩
    -- nodes were handed out earlier than the frame that is filled
    rw [node_of_same htake (by omega)] at hg
    have := h.own.tables.below r' h.root p g hp hg
    omega
  refine ⟨hb', hfree.transport (Nat.le_refl _) hsame, ?_, ?_, ?_⟩
  · intro v
    rw [leaf_of_same (hsame r' h.root), leaf_of_same htake]
  · intro a ha
    by_contra hne
    rw [← take_mem_out (Or.inl ha)] at hne
    have := hout a hne
    omega
  · intro o ho
    rw [takeCopy_mem, hnext, ByteMem.copy_in (by omega) (by omega), show s.pages.current + o - s.pages.current = o by omega,
      take_mem_out (Or.inl (by omega)), h.bytes _ (by omega)]

/-- The new page of the copy is mapped. -/
theorem Cloning.mapped (h : Cloning s0 R K r r' c D s) {v : Vpn} {e e' : PageTableEntry}
    (he : userLeaf s0.mem r v = some e) (hv : v ∉ D)
    (hroom : s.pages.current + 4096 ≤ s.pages.end_) (hbelow : 4096 * e.ppn + 4096 ≤ s0.pages.current)
    (hppn : e'.ppn = s.next) (hflags : e'.flags = e.flags.mapped)
    (hm : Mapped (insert r' R) r' v e' (s.takeCopy e.ppn) t) :
    Cloning s0 R K r r' c (insert v D) t := by
  obtain ⟨hb, hfree, hleaf, hbytes, hcopy⟩ := h.builds.takeCopy hroom hbelow
  have hnext := h.builds.own.tables.ok.next_eq
  have hroot := h.builds.root
  have hU : e'.flags.contains .U = true := by
    rw [hflags, PTEFlags.mapped_contains_U]
    simp only [userLeaf, Option.filter_eq_some_iff] at he
    exact he.2
  have huser : ∀ w, userLeaf (s.takeCopy e.ppn).mem r' w = userLeaf s.mem r' w := by
    intro w
    rw [userLeaf, userLeaf, hleaf w]
  have hcard := (ncard_insert_user (D := D) (by rw [he]; simp) hv).1
  refine ⟨hb.mapped hm fun _ => ?_, (h.kernel.congr hleaf).mapped hroot hm hU, ⟨?_, ?_⟩, ?_⟩
  · rw [hppn]
    exact ⟨hfree, by have := h.builds.cursor; omega⟩
  · intro w hw ew hew
    by_cases hwv : w = v
    · subst hwv
      obtain rfl : e = ew := Option.some.inj (he.symm.trans hew)
      refine ⟨s.next, e', ?_, hppn, hflags, ?_⟩
      · rw [hm.userLeaf hroot]
        simp [hU]
      · have hkept := hm.bytes_kept hfree.below (fun p hp => hfree.node r' hroot p hp)
        intro o ho
        rw [hkept o ho, hcopy o ho]
    · -- the pages copied earlier are not nodes, so `map` leaves them alone
      have hwD : w ∈ D := (Set.mem_insert_iff.mp hw).resolve_left hwv
      obtain ⟨f, ef, hef, hf, hfl, hsame⟩ := h.copy.copied w hwD ew hew
      have hpage : UserPage (s.takeCopy e.ppn).mem r' w f := ⟨ef, by rw [huser, hef], hf⟩
      refine ⟨f, ef, ?_, hf, hfl, ?_⟩
      · rw [hm.userLeaf hroot, if_neg (fun hh => hwv hh.2), huser, hef]
      · have hkept := hm.bytes_kept (hb.own.user_below r' hroot w f hpage)
          (fun p hp => hb.own.user_node r' hroot r' hroot w p f hp hpage)
        have hold := h.builds.own.user_below r' hroot w f ⟨ef, hef, hf⟩
        intro o ho
        rw [hkept o ho, hbytes _ (by omega), hsame o ho]
  · intro w hw
    have hwv : w ≠ v := by
      rintro rfl
      rcases hw with hw | hw
      · exact hw (Set.mem_insert _ _)
      · rw [he] at hw
        cases hw
    rw [hm.userLeaf hroot, if_neg (fun hh => hwv hh.2), huser]
    refine h.copy.others w ?_
    rcases hw with hw | hw
    · exact Or.inl fun hD => hw (Set.mem_insert_of_mem v hD)
    · exact Or.inr hw
  · have hused := h.used
    have hmore : t.pages.current ≤ s.pages.current + 4096 + 2 * 4096 := hm.used
    rw [hcard]
    linarith

/-- One turn of the inner loop: the page is skipped or copied. -/
theorem Cloning.page (h : Cloning s0 R K r r' c D s) (hr : r ∈ R) {i j k : Fin 512} {g : Nat}
    (hg : node s0.mem r [i, j] = some g) (hv : (⟨i, j, k⟩ : Vpn) ∉ D) :
    Prog.wp (PageTable.clone_page ⟨r'⟩ g i j k)
      (fun o t => (o = some () ∧ Cloning s0 R K r r' c (insert ⟨i, j, k⟩ D) t) ∨
        (o = none ∧ Builds s0 R K r' t ∧ Short s0 r c))
      (fun _ _ => KernelMapped s0.mem r → Short s0 r c) s := by
  have hsmall := h.builds.base.tables.small hr (by simp) hg
  have hentry : pte s.mem (slot g k) = entry s0.mem g k := by
    rw [entry_eq_pte hsmall]
    exact h.builds.same hr [i, j] g (by simp) hg k
  have hleaf : leaf s0.mem r ⟨i, j, k⟩ =
      if (entry s0.mem g k).is_valid then some (entry s0.mem g k) else none := by
    rw [leaf, hg]
    rfl
  unfold PageTable.clone_page
  simp only [Prog.wp_bind, Prog.wp_get, hentry]
  generalize entry s0.mem g k = e at hleaf ⊢
  by_cases hvalid : e.is_valid = true
  · by_cases hU : e.flags.contains .U = true
    · have he : userLeaf s0.mem r ⟨i, j, k⟩ = some e := by
        simp [userLeaf, hleaf, hvalid, Option.filter, hU]
      have hbelow := h.builds.base.user_below r hr _ e.ppn ⟨e, he, rfl⟩
      have hok := h.builds.own.tables.ok
      have hbase := h.builds.base.tables.ok
      have hle := hbase.le_end
      have hend := hbase.end_le
      have hcard := ncard_insert_user (D := D) (by rw [he]; simp) hv
      have hused := h.used
      have hshort : s.pages.end_ < s.pages.current + 12288 → Short s0 r c := by
        intro hlt
        unfold Short
        have := h.builds.end_eq
        omega
      have hsrc : shl e.ppn PAGE_SIZE_BITS = 4096 * e.ppn := by
        rw [shl, PAGE_SIZE_BITS, Nat.shiftLeft_eq, Nat.mul_comm, Nat.mod_eq_of_lt (by omega)]
      simp only [hvalid, hU, Bool.not_true, Bool.false_eq_true, if_false, Prog.wp_bind, hsrc,
        PAGE_SIZE]
      rcases alloc_page_cases hok with ⟨hroom, halloc⟩ | ⟨hfull, halloc⟩
      · rw [Prog.wp_of_ok halloc]
        simp only [Prog.wp_bind, Prog.wp_modify, Prog.wp_pure]
        obtain ⟨hb, -, hleaves, -, -⟩ := h.builds.takeCopy hroom hbelow
        have hcur : s.pages.current < 2 ^ 64 := by
          have := hok.end_le
          omega
        refine (map_wp hb.own.tables hb.root hcur e.flags).mono ?_ ?_
        · intro _ t hm
          rw [Vpn.of_indices, frame_at_cursor] at hm
          have hnext := hok.next_eq
          refine Or.inl ⟨trivial, h.mapped he hv hroom hbelow ?_ ?_ hm⟩
          · exact PageTableEntry.new_ppn (by omega) _
          · exact PageTableEntry.new_flags (by omega) _
        · intro _ _ hhalt hkernel
          rw [Vpn.of_indices] at hhalt
          rcases hhalt with ⟨-, hsome⟩ | ⟨-, -, -, hfull⟩
          · -- the page is not an identity page and has not been copied yet
            have hnone := hkernel.leaf_none h.kernel (by rw [he]; simp)
              (h.copy.others _ (Or.inl hv))
            rw [hleaves, hnone] at hsome
            cases hsome
          · refine hshort ?_
            have hcur' : (s.takeCopy e.ppn).pages.current = s.pages.current + 4096 := rfl
            have hend' : (s.takeCopy e.ppn).pages.end_ = s.pages.end_ := rfl
            omega
      · rw [Prog.wp_of_ok halloc, Prog.wp_pure]
        exact Or.inr ⟨rfl, h.builds, hshort (by omega)⟩
    · simp only [hvalid, hU, Bool.not_true, Bool.not_false, Bool.false_eq_true, if_false, if_true,
        Prog.wp_pure]
      refine Or.inl ⟨trivial, h.skip (Set.subset_insert _ _) fun v hv hD => ?_⟩
      obtain rfl := (Set.mem_insert_iff.mp hv).resolve_right hD
      simp [userLeaf, hleaf, hvalid, Option.filter, hU]
  · simp only [hvalid, Bool.not_false, if_true, Prog.wp_pure]
    refine Or.inl ⟨trivial, h.skip (Set.subset_insert _ _) fun v hv hD => ?_⟩
    obtain rfl := (Set.mem_insert_iff.mp hv).resolve_right hD
    simp [userLeaf, hleaf, hvalid]

/-- How a part of `clone_user_space` ends: with the pages in `D` copied, or early. -/
def CloneEnds (s0 : Mm) (R K : Set Nat) (r r' c : Nat) (D : Set Vpn) (o : Option Unit) (t : Mm) :
    Prop :=
  (o = some () ∧ Cloning s0 R K r r' c D t) ∨ (o = none ∧ Builds s0 R K r' t ∧ Short s0 r c)

/-- A loop over the 512 slots of a node, whose turn `a` copies the pages in `S a`. -/
theorem Cloning.slots (body : Fin 512 → MmM (Option Unit)) (S : Fin 512 → Set Vpn)
    {E : Halt → Mm → Prop} (hS : ∀ a b, a ≠ b → Disjoint (S a) (S b))
    (hbody : ∀ a D s, Cloning s0 R K r r' c D s → Disjoint D (S a) →
      Prog.wp (body a) (CloneEnds s0 R K r r' c (D ∪ S a)) E s)
    (h : Cloning s0 R K r r' c D s) (hD : ∀ a, Disjoint D (S a)) :
    Prog.wp (Prog.each body (List.finRange 512)) (CloneEnds s0 R K r r' c (D ∪ ⋃ a, S a)) E s := by
  have hfin : (⋃ a ∈ List.finRange 512, S a) = ⋃ a, S a := by simp
  rw [← hfin]
  refine Prog.each_wp (I := fun done t => Cloning s0 R K r r' c (D ∪ ⋃ a ∈ done, S a) t) ?_ ?_
  · intro done a rest t hl ht
    have hunion : (D ∪ ⋃ b ∈ done ++ [a], S b) = (D ∪ ⋃ b ∈ done, S b) ∪ S a := by
      ext v
      simp only [Set.mem_union, Set.mem_iUnion, List.mem_append, List.mem_singleton, exists_prop,
        or_and_right, exists_or, exists_eq_left, or_assoc]
    rw [hunion]
    refine hbody a _ t ht ?_
    rw [Set.disjoint_union_left]
    refine ⟨hD a, ?_⟩
    simp only [Set.disjoint_iUnion_left]
    intro b hb
    refine hS b a ?_
    -- `a` comes after `b` in a list without repetitions
    have hnodup := List.nodup_finRange 512
    rw [hl, List.nodup_append] at hnodup
    exact hnodup.2.2 b hb a (by simp)
  · simpa using h

/-- The middle loop: the pages of one last-level node. -/
theorem Cloning.low (h : Cloning s0 R K r r' c D s) (hr : r ∈ R) {i j : Fin 512} {f : Nat}
    (hf : node s0.mem r [i] = some f) (hD : Disjoint D { v | v.i = i ∧ v.j = j }) :
    Prog.wp (PageTable.clone_low ⟨r'⟩ f i j)
      (CloneEnds s0 R K r r' c (D ∪ { v | v.i = i ∧ v.j = j }))
      (fun _ _ => KernelMapped s0.mem r → Short s0 r c) s := by
  have hsmall := h.builds.base.tables.small hr (by simp) hf
  have hentry : pte s.mem (slot f j) = entry s0.mem f j := by
    rw [entry_eq_pte hsmall]
    exact h.builds.same hr [i] f (by simp) hf j
  unfold PageTable.clone_low
  simp only [Prog.wp_bind, Prog.wp_get, hentry]
  by_cases hvalid : (entry s0.mem f j).is_valid = true
  · have hg := node_child hf hvalid
    have hset : { v : Vpn | v.i = i ∧ v.j = j } = ⋃ k, {⟨i, j, k⟩} := by
      ext v
      simp only [Set.mem_ofPred_eq, Set.mem_iUnion, Set.mem_singleton_iff]
      constructor
      · rintro ⟨rfl, rfl⟩
        exact ⟨v.k, rfl⟩
      · rintro ⟨k, rfl⟩
        exact ⟨rfl, rfl⟩
    simp only [hvalid, Bool.not_true, Bool.false_eq_true, if_false]
    rw [hset] at hD ⊢
    refine Cloning.slots (PageTable.clone_page ⟨r'⟩ (entry s0.mem f j).ppn i j)
      (fun k => {⟨i, j, k⟩}) ?_ ?_ h (Set.disjoint_iUnion_right.mp hD)
    · intro a b hab
      simpa using hab
    · intro k D' t ht hD'
      rw [Set.union_singleton]
      exact ht.page hr hg (Set.disjoint_singleton_right.mp hD')
  · simp only [hvalid, Bool.not_false, if_true, Prog.wp_pure]
    refine Or.inl ⟨rfl, h.skip Set.subset_union_left fun v hv hvD => ?_⟩
    obtain ⟨rfl, rfl⟩ := hv.resolve_left hvD
    have hnone : node s0.mem r [v.i, v.j] = none :=
      node_dead hf (by simpa using hvalid) []
    simp [userLeaf, leaf, hnone]

/-- The outer loop: the pages under one slot of the root. -/
theorem Cloning.mid (h : Cloning s0 R K r r' c D s) (hr : r ∈ R) {i : Fin 512}
    (hD : Disjoint D { v | v.i = i }) :
    Prog.wp (PageTable.clone_mid ⟨r'⟩ r i) (CloneEnds s0 R K r r' c (D ∪ { v | v.i = i }))
      (fun _ _ => KernelMapped s0.mem r → Short s0 r c) s := by
  have hroot : node s0.mem r [] = some r := rfl
  have hsmall := h.builds.base.tables.small hr (by simp) hroot
  have hentry : pte s.mem (slot r i) = entry s0.mem r i := by
    rw [entry_eq_pte hsmall]
    exact h.builds.same hr [] r (by simp) hroot i
  unfold PageTable.clone_mid
  simp only [Prog.wp_bind, Prog.wp_get, hentry]
  by_cases hvalid : (entry s0.mem r i).is_valid = true
  · have hf := node_child hroot hvalid
    have hset : { v : Vpn | v.i = i } = ⋃ j, { v | v.i = i ∧ v.j = j } := by
      ext v
      simp
    simp only [hvalid, Bool.not_true, Bool.false_eq_true, if_false]
    rw [hset] at hD ⊢
    refine Cloning.slots (PageTable.clone_low ⟨r'⟩ (entry s0.mem r i).ppn i)
      (fun j => { v | v.i = i ∧ v.j = j }) ?_ ?_ h (Set.disjoint_iUnion_right.mp hD)
    · intro a b hab
      rw [Set.disjoint_left]
      rintro v ⟨-, rfl⟩ ⟨-, rfl⟩
      exact hab rfl
    · intro j D' t ht hD'
      exact ht.low hr hf hD'
  · simp only [hvalid, Bool.not_false, if_true, Prog.wp_pure]
    refine Or.inl ⟨rfl, h.skip Set.subset_union_left fun v hv hvD => ?_⟩
    obtain rfl := hv.resolve_left hvD
    have hnone : node s0.mem r [v.i, v.j] = none :=
      node_dead hroot (by simpa using hvalid) [v.j]
    simp [userLeaf, leaf, hnone]

/-- The frames a copy of the table `r` may take: its root, the nodes of the
    identity mappings, and three for each user page. -/
noncomputable def cloneFrames (m : Mem) (r : Nat) : Nat := 133 + 3 * (userPages m r).ncard

/-- **`clone_user_space`**: a new table with copies of the user pages, in new
    frames; nothing that was there before is touched. -/
theorem clone_user_space_wp (h : Own s R K) (hr : r ∈ R) :
    Prog.wp (PageTable.clone_user_space ⟨r⟩)
      (fun o t => (∃ r', o = some ⟨r'⟩ ∧ r' = s.next ∧ Builds s R K r' t ∧ KernelMapped t.mem r' ∧
          CopyOf s.mem r Set.univ t.mem r' ∧
          t.pages.current ≤ s.pages.current + 4096 * cloneFrames s.mem r) ∨
        (o = none ∧ Own t R K ∧ s.pages.end_ = t.pages.end_ ∧
          s.pages.current ≤ t.pages.current ∧ (∀ a, a < s.pages.current → t.mem a = s.mem a) ∧
          s.pages.end_ < s.pages.current + 4096 * cloneFrames s.mem r))
      (fun _ _ => KernelMapped s.mem r →
        s.pages.end_ < s.pages.current + 4096 * cloneFrames s.mem r) s := by
  unfold PageTable.clone_user_space
  rw [Prog.wp_bind]
  rcases PageTable.new_cases h.tables.ok with ⟨hroom, hnew⟩ | ⟨hfull, hnew⟩
  · rw [Prog.wp_of_ok hnew]
    obtain ⟨hb, hempty⟩ := Builds.new h hroom
    simp only [Prog.wp_bind]
    have hcur : s.take.pages.current = s.pages.current + 4096 := rfl
    -- too few frames for the copy is too few frames for the call
    have hshort : ∀ c, c ≤ s.pages.current + 4096 + 8192 * 66 → Short s r c →
        s.pages.end_ < s.pages.current + 4096 * cloneFrames s.mem r := by
      intro c hc hlt
      unfold Short at hlt
      unfold cloneFrames
      omega
    refine (identity_map_wp hb hempty).mono ?_ ?_
    · intro _ t ht
      obtain ⟨hbt, hkernel, hnone, hused⟩ := ht
      have hstart : Cloning s R K r s.next t.pages.current ∅ t := by
        refine ⟨hbt, hkernel, ⟨?_, ?_⟩, ?_⟩
        · intro v hv
          exact absurd hv (Set.notMem_empty v)
        · intro v _
          exact hnone v
        · simp
      have hdone : (∅ ∪ ⋃ i, { v : Vpn | v.i = i }) = Set.univ := by
        ext v
        simp
      refine (Cloning.slots (PageTable.clone_mid ⟨s.next⟩ r) (fun i => { v | v.i = i })
        ?_ (fun i D u hu hD => hu.mid hr hD) hstart fun i => Set.empty_disjoint _).mono ?_ ?_
      · intro a b hab
        rw [Set.disjoint_left]
        rintro v rfl hb
        exact hab hb
      · intro o u hu
        rw [hdone] at hu
        rcases hu with ⟨rfl, hu⟩ | ⟨rfl, hbu, hlt⟩
        · rw [Prog.wp_pure]
          refine Or.inl ⟨s.next, rfl, rfl, hu.builds, hu.kernel, hu.copy, ?_⟩
          have := hu.used
          rw [Set.inter_univ] at this
          unfold cloneFrames
          omega
        · rw [Prog.wp_pure]
          exact Or.inr ⟨rfl, hbu.drop, hbu.end_eq.symm, hbu.cursor, hbu.bytes,
            hshort _ (by omega) hlt⟩
      · intro _ _ he hk
        exact hshort _ (by omega) (he hk)
    · intro _ _ hlt _
      unfold cloneFrames
      omega
  · rw [Prog.wp_of_ok hnew, Prog.wp_pure]
    refine Or.inr ⟨rfl, h, rfl, Nat.le_refl _, fun _ _ => rfl, ?_⟩
    unfold cloneFrames
    omega

end Clone

end Rvos

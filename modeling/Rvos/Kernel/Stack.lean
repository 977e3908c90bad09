import Rvos.Kernel.Load

/-! # The initial stack of a program (`build_stack`)

    The topmost page of the stack begins with `argc`, the pointers to arguments
    and environment and the auxiliary vector; sixteen random bytes are at offset
    `0x200`, and the strings follow from `0x400` on, one for every `0x100` bytes.
    Nothing is checked, so the parts can run into each other and out of the page.

    * `stack_patches` : what is stored, part by part.
    * `build_stack_layout` : the parts are disjoint and in the page just if the
      strings fit their slots.
    * `decode_stack` : the page as a program reads it.
    * `build_stack_decodes` : a program finds what it was started with. -/

namespace Rvos

open Access ByteMem Usize

/-! ## Section 1: Patches of a page -/

/-- Bytes stored from an offset on. -/
structure Patch where
  off : Nat
  bytes : List UInt8
  deriving DecidableEq, Repr

/-- The offset after the last byte. -/
def Patch.stop (p : Patch) : Nat := p.off + p.bytes.length

@[simp] theorem Patch.stop_mk (off : Nat) (bytes : List UInt8) :
    (⟨off, bytes⟩ : Patch).stop = off + bytes.length := rfl

/-- Two patches without a common byte. -/
def Patch.Apart (p q : Patch) : Prop := p.stop ≤ q.off ∨ q.stop ≤ p.off

/-- Store the patches of a page at `base`, one after the other. -/
def store_patches (base : Nat) (l : List Patch) : MmM Unit :=
  l.forM fun p => phys_write (base + p.off) p.bytes

/-- Memory with the patches applied. -/
def applied (base : Nat) (l : List Patch) (m : Mem) : Mem :=
  l.foldl (fun m p => blit m (base + p.off) p.bytes) m

section Patches

variable {base : Nat} {l : List Patch}

theorem store_patches_run (h : ∀ p ∈ l, base + p.stop ≤ kernelEnd) (s : Mm) :
    store_patches base l s = .ok ⟨⟩ { s with mem := applied base l s.mem } := by
  unfold store_patches applied
  induction l generalizing s with
  | nil => rfl
  | cons p l ih =>
    have hp : ¬ base + p.off + p.bytes.length > kernelEnd := by
      have := h p (by simp)
      unfold Patch.stop at this
      omega
    have hwrite : phys_write (base + p.off) p.bytes s =
        .ok ⟨⟩ { s with mem := blit s.mem (base + p.off) p.bytes } := by
      unfold phys_write
      simp only [if_neg hp]
      rfl
    rw [List.forM, Prog.bind_of_ok hwrite, ih fun q hq => h q (by simp [hq])]
    rfl

theorem applied_out {a : Nat} {m : Mem} (h : ∀ p ∈ l, a < base + p.off ∨ base + p.stop ≤ a) :
    applied base l m a = m a := by
  unfold applied
  induction l generalizing m with
  | nil => rfl
  | cons p l ih =>
    have hp := h p (by simp)
    unfold Patch.stop at hp
    rw [List.foldl_cons, ih fun q hq => h q (by simp [hq]), blit_out (by omega)]

/-- A patch that no later one meets can be read back. -/
theorem applied_in (hl : l.Pairwise Patch.Apart) {p : Patch} (hp : p ∈ l) {i : Nat}
    (hi : i < p.bytes.length) (m : Mem) :
    applied base l m (base + p.off + i) = p.bytes.getD i 0 := by
  induction l generalizing m with
  | nil => cases hp
  | cons q l ih =>
    rw [List.pairwise_cons] at hl
    rcases List.mem_cons.mp hp with rfl | hp
    · have hkeep : applied base (p :: l) m (base + p.off + i) =
          blit m (base + p.off) p.bytes (base + p.off + i) := by
        refine applied_out (l := l) fun q hq => ?_
        have happart := hl.1 q hq
        unfold Patch.Apart Patch.stop at happart
        unfold Patch.stop
        omega
      rw [hkeep, blit, patch_in (by omega) (by omega), Nat.add_sub_cancel_left]
    · exact ih hl.2 hp _

end Patches

/-! ## Section 2: The layout -/

/-- The strings with their terminators, in slots of `0x100` bytes. -/
def string_patches (strs : List Path) : List Patch :=
  strs.mapIdx fun i s => ⟨0x400 + i * 0x100, s ++ [0]⟩

/-- The sixteen bytes that `AT_RANDOM` points to. -/
def random_patch : Patch := ⟨0x200, List.replicate 16 0xab⟩

/-- What `build_stack` stores, in its order. -/
def stack_patches (argv envp : List Path) (at_phdr phent phnum entry : Nat) : List Patch :=
  ⟨0, (stack_vector argv.length envp.length at_phdr phent phnum entry).flatMap word⟩ ::
    (string_patches (argv ++ envp) ++ [random_patch])

theorem write_strings_eq (base : Nat) (strs : List Path) (off : Nat) :
    write_strings base strs off =
      (strs.mapIdx fun i s => (⟨off + i * 0x100, s ++ [0]⟩ : Patch)).forM
        fun p => phys_write (base + p.off) p.bytes := by
  induction strs generalizing off with
  | nil => rfl
  | cons s rest ih =>
    have hnext : (fun i s => (⟨off + 0x100 + i * 0x100, s ++ [0]⟩ : Patch)) =
        fun i s => ⟨off + (i + 1) * 0x100, s ++ [0]⟩ := by
      funext i s
      rw [Patch.mk.injEq]
      exact ⟨by omega, rfl⟩
    rw [write_strings, ih, List.mapIdx_cons, List.forM, hnext, Nat.zero_mul, Nat.add_zero]

/-- **`build_stack` stores these patches** and nothing else. -/
theorem build_stack_eq (base : Nat) (argv envp : List Path) (at_phdr phent phnum entry : Nat) :
    build_stack base argv envp at_phdr phent phnum entry =
      (do store_patches base (stack_patches argv envp at_phdr phent phnum entry)
          return stackTop) := by
  unfold build_stack store_patches stack_patches string_patches
  simp only [write_strings_eq, List.forM_eq_forM, List.forM_cons, List.forM_append, List.forM_nil,
    random_patch, Nat.add_zero, bind_assoc, pure_bind]

theorem length_flatMap_word (l : List Nat) : (l.flatMap word).length = 8 * l.length := by
  induction l with
  | nil => rfl
  | cons x l ih =>
    rw [List.flatMap_cons, List.length_append, ih, List.length_cons, word, length_leBytes]
    omega

theorem length_stack_vector (argc envc at_phdr phent phnum entry : Nat) :
    (stack_vector argc envc at_phdr phent phnum entry).length = argc + envc + 19 := by
  simp only [stack_vector, List.length_append, List.length_map, List.length_range, List.length_cons,
    List.length_nil]
  omega

theorem mem_string_patches {strs : List Path} {p : Patch} :
    p ∈ string_patches strs ↔ ∃ i s, strs[i]? = some s ∧ p = ⟨0x400 + i * 0x100, s ++ [0]⟩ := by
  unfold string_patches
  rw [List.mem_iff_getElem?]
  simp only [List.getElem?_mapIdx, Option.map_eq_some_iff, eq_comm (a := p)]

/-- The strings fit into their slots; the last one may use the rest of the page. -/
def SlotsFit (strs : List Path) : Prop :=
  strs.length ≤ 12 ∧ ∀ i s, strs[i]? = some s →
    s.length + 1 ≤ if i + 1 < strs.length then 0x100 else 0x1000 - (0x400 + i * 0x100)

theorem SlotsFit.short {strs : List Path} (h : SlotsFit strs) {s : Path} (hs : s ∈ strs) :
    s.length < 4096 := by
  obtain ⟨i, hi⟩ := List.mem_iff_getElem?.mp hs
  have := h.2 i s hi
  split at this <;> omega

section Layout

variable {argv envp : List Path} {at_phdr phent phnum entry : Nat}

/-- All patches in one page, and no two with a common byte. -/
def InOnePage (l : List Patch) : Prop := (∀ p ∈ l, p.stop ≤ 4096) ∧ l.Pairwise Patch.Apart

theorem SlotsFit.inOnePage (h : SlotsFit (argv ++ envp)) :
    InOnePage (stack_patches argv envp at_phdr phent phnum entry) := by
  obtain ⟨hlen, hfit⟩ := h
  have hvec : ((stack_vector argv.length envp.length at_phdr phent phnum entry).flatMap word).length
      ≤ 0x200 := by
    rw [length_flatMap_word, length_stack_vector, ← List.length_append]
    omega
  -- a string ends before the next slot, and in the page
  have hstr : ∀ i s, (argv ++ envp)[i]? = some s →
      i < (argv ++ envp).length ∧ 0x400 + i * 0x100 + (s ++ [0]).length ≤ 0x1000 ∧
        (i + 1 < (argv ++ envp).length → (s ++ [0]).length ≤ 0x100) := by
    intro i s hi
    have hlt := (List.getElem?_eq_some_iff.mp hi).1
    have := hfit i s hi
    have hend : (s ++ [0]).length = s.length + 1 := List.length_append
    rw [hend]
    split at this
    · exact ⟨hlt, by omega, fun _ => this⟩
    · exact ⟨hlt, by omega, fun hh => by omega⟩
  refine ⟨?_, ?_⟩
  · intro p hp
    rcases List.mem_cons.mp hp with rfl | hp
    · rw [Patch.stop_mk]
      omega
    · rcases List.mem_append.mp hp with hp | hp
      · obtain ⟨i, s, hi, rfl⟩ := mem_string_patches.mp hp
        exact (hstr i s hi).2.1
      · rw [List.mem_singleton.mp hp]
        decide
  · refine List.pairwise_cons.mpr ⟨?_, List.pairwise_append.mpr ⟨?_, List.pairwise_singleton _ _, ?_⟩⟩
    · intro p hp
      left
      rw [Patch.stop_mk]
      rcases List.mem_append.mp hp with hp | hp
      · obtain ⟨i, s, hi, rfl⟩ := mem_string_patches.mp hp
        dsimp only
        omega
      · rw [List.mem_singleton.mp hp]
        dsimp only [random_patch]
        omega
    · rw [List.pairwise_iff_getElem]
      intro i j hi hj hij
      have hi' : i < (argv ++ envp).length := by simpa [string_patches] using hi
      have hj' : j < (argv ++ envp).length := by simpa [string_patches] using hj
      left
      have hslot := (hstr i _ (List.getElem?_eq_getElem hi')).2.2 (by omega)
      simp only [string_patches, List.getElem_mapIdx, Patch.stop_mk]
      omega
    · intro p hp q hq
      right
      obtain ⟨i, s, hi, rfl⟩ := mem_string_patches.mp hp
      rw [List.mem_singleton.mp hq]
      show 0x200 + (List.replicate 16 (0xab : UInt8)).length ≤ 0x400 + i * 0x100
      rw [List.length_replicate]
      omega

theorem SlotsFit.of_inOnePage (h : InOnePage (stack_patches argv envp at_phdr phent phnum entry)) :
    SlotsFit (argv ++ envp) := by
  obtain ⟨hpage, happart⟩ := h
  have hin : ∀ i s, (argv ++ envp)[i]? = some s → 0x400 + i * 0x100 + (s.length + 1) ≤ 4096 := by
    intro i s hi
    have hmem : (⟨0x400 + i * 0x100, s ++ [0]⟩ : Patch) ∈
        stack_patches argv envp at_phdr phent phnum entry := by
      refine List.mem_cons_of_mem _ (List.mem_append_left _ ?_)
      exact mem_string_patches.mpr ⟨i, s, hi, rfl⟩
    have := hpage _ hmem
    simpa [Patch.stop] using this
  have hfits : StackFits (argv ++ envp) := fun i s hi => by
    have := hin i s hi
    omega
  refine ⟨hfits.length_le, fun i s hi => ?_⟩
  split
  · next hnext =>
    -- the next string begins in the next slot
    have hi' := (List.getElem?_eq_some_iff.mp hi).1
    have hpairs := (List.pairwise_append.mp (List.pairwise_cons.mp happart).2).1
    have hlen : (string_patches (argv ++ envp)).length = (argv ++ envp).length := by
      simp [string_patches]
    have hpair := List.pairwise_iff_getElem.mp hpairs i (i + 1) (by omega) (by omega) (by omega)
    simp only [string_patches, List.getElem_mapIdx] at hpair
    rw [(List.getElem?_eq_some_iff.mp hi).2] at hpair
    unfold Patch.Apart Patch.stop at hpair
    simp only [List.length_append, List.length_singleton] at hpair
    omega
  · have := hin i s hi
    omega

/-- **The layout of the initial stack.**  `build_stack` stores these patches of the
    page; they lie in it and are pairwise disjoint just if the strings fit. -/
theorem build_stack_layout (base : Nat) (argv envp : List Path) (at_phdr phent phnum entry : Nat) :
    build_stack base argv envp at_phdr phent phnum entry =
        (do store_patches base (stack_patches argv envp at_phdr phent phnum entry)
            return stackTop) ∧
      (InOnePage (stack_patches argv envp at_phdr phent phnum entry) ↔ SlotsFit (argv ++ envp)) :=
  ⟨build_stack_eq base argv envp at_phdr phent phnum entry, .of_inOnePage, fun h => h.inOnePage⟩

end Layout

/-! ## Section 3: The stack as a program reads it -/

/-- A string, up to its terminator. -/
def string_at (m : Mem) : (fuel a : Nat) → Option Path
  | 0, _ => none
  | fuel + 1, a => if m a = 0 then some [] else (string_at m fuel (a + 1)).map (m a :: ·)

/-- Words, up to one that is zero. -/
def words_at (m : Mem) : (fuel a : Nat) → Option (List Nat)
  | 0, _ => none
  | fuel + 1, a =>
    if readLE m a 8 = 0 then some [] else (words_at m fuel (a + 8)).map (readLE m a 8 :: ·)

/-- The pairs of the auxiliary vector, up to `(0, 0)`. -/
def auxv_at (m : Mem) : (fuel a : Nat) → Option (List (Nat × Nat))
  | 0, _ => none
  | fuel + 1, a =>
    if readLE m a 8 = 0 then
      if readLE m (a + 8) 8 = 0 then some [] else none
    else
      (auxv_at m fuel (a + 16)).map ((readLE m a 8, readLE m (a + 8) 8) :: ·)

structure InitialStack where
  argc : Nat
  argv : List Path
  envp : List Path
  auxv : List (Nat × Nat)
  deriving DecidableEq, Repr

/-- What a program finds at its stack pointer. -/
def decode_stack (m : Mem) (sp : Nat) : Option InitialStack := do
  let argv_ptrs ← words_at m 512 (sp + 8)
  let envp_base := sp + 8 + 8 * (argv_ptrs.length + 1)
  let envp_ptrs ← words_at m 512 envp_base
  let auxv ← auxv_at m 512 (envp_base + 8 * (envp_ptrs.length + 1))
  let argv ← argv_ptrs.mapM (string_at m 4096)
  let envp ← envp_ptrs.mapM (string_at m 4096)
  return { argc := readLE m sp 8, argv := argv, envp := envp, auxv := auxv }

section Decode

variable {m : Mem} {a fuel : Nat}

theorem string_at_eq {s : Path} (hnul : 0 ∉ s) (hbytes : ∀ i, i ≤ s.length → m (a + i) = (s ++ [0]).getD i 0)
    (hfuel : s.length < fuel) : string_at m fuel a = some s := by
  induction s generalizing a fuel with
  | nil =>
    obtain ⟨n, rfl⟩ : ∃ n, fuel = n + 1 := ⟨fuel - 1, by simp at hfuel; omega⟩
    have h0 : m a = 0 := by simpa using hbytes 0 (by simp)
    rw [string_at, if_pos h0]
  | cons b s ih =>
    obtain ⟨n, rfl⟩ : ∃ n, fuel = n + 1 := ⟨fuel - 1, by simp at hfuel; omega⟩
    have h0 : m a = b := by simpa using hbytes 0 (by simp)
    have hb : b ≠ 0 := fun hb => hnul (by simp [hb])
    have hrest : string_at m n (a + 1) = some s := by
      apply ih (fun h => hnul (by simp [h])) ?_ (by simpa using hfuel)
      intro i hi
      have := hbytes (i + 1) (by simpa using hi)
      rw [show a + 1 + i = a + (i + 1) by omega, this]
      simp
    rw [string_at, if_neg (by rw [h0]; exact hb), hrest, h0]
    rfl

/-- The words `l` stand in memory from `a` on. -/
def WordsAt (m : Mem) : (a : Nat) → List Nat → Prop
  | _, [] => True
  | a, w :: l => readLE m a 8 = w ∧ WordsAt m (a + 8) l

theorem WordsAt.append {l l' : List Nat} :
    WordsAt m a (l ++ l') ↔ WordsAt m a l ∧ WordsAt m (a + 8 * l.length) l' := by
  induction l generalizing a with
  | nil => simp [WordsAt]
  | cons w l ih =>
    have hnext : a + 8 + 8 * l.length = a + 8 * (l.length + 1) := by omega
    simp only [List.cons_append, WordsAt, ih, List.length_cons, and_assoc, hnext]

/-- What stands after a row of words and its zero. -/
theorem WordsAt.after {l rest : List Nat} (h : WordsAt m a (l ++ 0 :: rest)) :
    WordsAt m (a + 8 * (l.length + 1)) rest := by
  have hrest := (WordsAt.append.mp h).2.2
  rwa [show a + 8 * l.length + 8 = a + 8 * (l.length + 1) by omega] at hrest

theorem words_at_eq {l rest : List Nat} (h : WordsAt m a (l ++ 0 :: rest)) (hl : ∀ w ∈ l, w ≠ 0)
    (hfuel : l.length < fuel) : words_at m fuel a = some l := by
  induction l generalizing a fuel with
  | nil =>
    obtain ⟨n, rfl⟩ : ∃ n, fuel = n + 1 := ⟨fuel - 1, by simp at hfuel; omega⟩
    rw [words_at, if_pos h.1]
  | cons w l ih =>
    obtain ⟨n, rfl⟩ : ∃ n, fuel = n + 1 := ⟨fuel - 1, by simp at hfuel; omega⟩
    have hw : readLE m a 8 = w := h.1
    rw [words_at, hw, if_neg (hl w (by simp)),
      ih h.2 (fun x hx => hl x (by simp [hx])) (by simpa using hfuel)]
    rfl

theorem auxv_at_eq {l : List (Nat × Nat)} (h : WordsAt m a (l.flatMap (fun p => [p.1, p.2]) ++ [0, 0]))
    (hl : ∀ p ∈ l, p.1 ≠ 0) (hfuel : l.length < fuel) : auxv_at m fuel a = some l := by
  induction l generalizing a fuel with
  | nil =>
    obtain ⟨n, rfl⟩ : ∃ n, fuel = n + 1 := ⟨fuel - 1, by simp at hfuel; omega⟩
    rw [auxv_at, if_pos h.1, if_pos h.2.1]
  | cons p l ih =>
    obtain ⟨n, rfl⟩ : ∃ n, fuel = n + 1 := ⟨fuel - 1, by simp at hfuel; omega⟩
    have hkey : readLE m a 8 = p.1 := h.1
    have hvalue : readLE m (a + 8) 8 = p.2 := h.2.1
    have hrest := ih h.2.2 (fun x hx => hl x (by simp [hx])) (by simpa using hfuel)
    rw [auxv_at, hkey, hvalue, if_neg (hl p (by simp)), hrest]
    rfl

/-- Words stored one after another are there to be read. -/
theorem wordsAt_of_bytes {l : List Nat} (hsmall : ∀ w ∈ l, w < 2 ^ 64)
    (hbytes : ∀ i, i < 8 * l.length → m (a + i) = (l.flatMap word).getD i 0) : WordsAt m a l := by
  induction l generalizing a with
  | nil => trivial
  | cons w l ih =>
    have hword : (word w).length = 8 := length_leBytes 8 w
    refine ⟨?_, ih (fun x hx => hsmall x (by simp [hx])) fun i hi => ?_⟩
    · have hread := readLE_of_bytes (m := m) (n := 8) (a := a) (v := w) fun i hi => by
        rw [hbytes i (by simp; omega), List.flatMap_cons, List.getD_append _ _ _ _ (by omega)]
        simp [word, leBytes, hi]
      rw [hread]
      exact Nat.mod_eq_of_lt (hsmall w (by simp))
    · have := hbytes (8 + i) (by simp only [List.length_cons]; omega)
      rw [show a + 8 + i = a + (8 + i) by omega, this, List.flatMap_cons,
        List.getD_append_right _ _ _ _ (by omega), hword, Nat.add_sub_cancel_left]

end Decode

/-- The page at `base`, at the addresses of the topmost stack page. -/
def stackView (m : Mem) (base : Nat) : Mem := fun va => m (base + (va - stackTop))

/-- The auxiliary vector that `build_stack` stores. -/
def stack_auxv (at_phdr phent phnum entry : Nat) : List (Nat × Nat) :=
  [(6, 4096), (3, at_phdr), (4, phent), (5, phnum), (9, entry), (25, stackTop + 0x200), (17, 100)]

/-- The pointers to the strings from number `first` on. -/
def string_ptrs (first count : Nat) : List Nat :=
  (List.range count).map fun i => stackTop + 0x400 + first * 0x100 + i * 0x100

theorem stack_vector_eq (argc envc at_phdr phent phnum entry : Nat) :
    stack_vector argc envc at_phdr phent phnum entry =
      [argc] ++ (string_ptrs 0 argc ++ 0 :: (string_ptrs argc envc ++ 0 ::
        ((stack_auxv at_phdr phent phnum entry).flatMap (fun p => [p.1, p.2]) ++ [0, 0]))) := by
  simp [stack_vector, string_ptrs, stack_auxv]

/-- The strings behind a row of pointers. -/
theorem strings_at_ptrs {m : Mem} {strs : List Path} (first : Nat) (l : List Path)
    (hl : ∀ i s, l[i]? = some s → strs[first + i]? = some s) (hnul : ∀ s ∈ l, 0 ∉ s)
    (hshort : ∀ s ∈ l, s.length < 4096)
    (hbytes : ∀ i s, strs[i]? = some s → ∀ j, j ≤ s.length →
      m (stackTop + 0x400 + i * 0x100 + j) = (s ++ [0]).getD j 0) :
    (string_ptrs first l.length).mapM (string_at m 4096) = some l := by
  induction l generalizing first with
  | nil => rfl
  | cons s l ih =>
    have hhead : string_at m 4096 (stackTop + 0x400 + first * 0x100) = some s :=
      string_at_eq (hnul s (by simp)) (hbytes first s (hl 0 s rfl)) (hshort s (by simp))
    have htail := ih (first + 1) (fun i t hi => by rw [show first + 1 + i = first + (i + 1) by omega]; exact hl (i + 1) t hi)
      (fun t ht => hnul t (by simp [ht])) (fun t ht => hshort t (by simp [ht]))
    have hptrs : string_ptrs first (l.length + 1) =
        (stackTop + 0x400 + first * 0x100) :: string_ptrs (first + 1) l.length := by
      unfold string_ptrs
      rw [List.range_succ_eq_map, List.map_cons, List.map_map]
      refine congrArg₂ List.cons (by omega) (List.map_congr_left fun i _ => ?_)
      show stackTop + 0x400 + first * 0x100 + (i + 1) * 0x100 = _
      omega
    rw [List.length_cons, hptrs, List.mapM_cons, hhead, htail]
    rfl

theorem stack_vector_small {argc envc at_phdr phent phnum entry : Nat} (hlen : argc + envc ≤ 12)
    (h1 : at_phdr < 2 ^ 64) (h2 : phent < 2 ^ 64) (h3 : phnum < 2 ^ 64) (h4 : entry < 2 ^ 64) :
    ∀ w ∈ stack_vector argc envc at_phdr phent phnum entry, w < 2 ^ 64 := by
  intro w hw
  simp only [stack_vector, List.mem_append, List.mem_map, List.mem_range,
    List.mem_cons, List.not_mem_nil, or_false, or_assoc] at hw
  have htop : stackTop = 0x3f_ffff_f000 := rfl
  rcases hw with rfl | ⟨i, hi, rfl⟩ | rfl | ⟨i, hi, rfl⟩ | rfl | hw
  · omega
  · omega
  · omega
  · omega
  · omega
  · rcases hw with rfl | rfl | rfl | rfl | rfl | rfl | rfl | rfl | rfl | rfl | rfl | rfl | rfl | rfl |
      rfl | rfl <;> omega

theorem string_ptrs_pos {first count w : Nat} (h : w ∈ string_ptrs first count) : w ≠ 0 := by
  obtain ⟨i, -, rfl⟩ := List.mem_map.mp h
  omega

/-- The parts of the page put together. -/
theorem decode_stack_eq {m : Mem} {argv envp : List Path} {at_phdr phent phnum entry : Nat}
    (hfit : SlotsFit (argv ++ envp)) (hnul : ∀ s ∈ argv ++ envp, 0 ∉ s)
    (hwords : WordsAt m stackTop
      (stack_vector argv.length envp.length at_phdr phent phnum entry))
    (hbytes : ∀ i s, (argv ++ envp)[i]? = some s → ∀ j, j ≤ s.length →
      m (stackTop + 0x400 + i * 0x100 + j) = (s ++ [0]).getD j 0) :
    decode_stack m stackTop = some {
      argc := argv.length
      argv := argv
      envp := envp
      auxv := stack_auxv at_phdr phent phnum entry } := by
  have hptrs : ∀ first count, (string_ptrs first count).length = count := fun _ _ => by
    simp [string_ptrs]
  have hlen : argv.length + envp.length ≤ 12 := by simpa using hfit.1
  rw [stack_vector_eq] at hwords
  obtain ⟨hargc, hwords⟩ := hwords
  have hargv_ptrs := words_at_eq hwords (fun _ => string_ptrs_pos)
    (show _ < 512 by rw [hptrs]; omega)
  have henvp_words := hwords.after
  have henvp_ptrs := words_at_eq henvp_words (fun _ => string_ptrs_pos)
    (show _ < 512 by rw [hptrs]; omega)
  have hauxv := auxv_at_eq henvp_words.after (by simp [stack_auxv])
    (show _ < 512 by simp [stack_auxv])
  rw [hptrs] at henvp_ptrs hauxv
  rw [hptrs] at hauxv
  have hargv := strings_at_ptrs (m := m) 0 argv
    (fun i s hi => by
      rw [Nat.zero_add, List.getElem?_append_left (List.getElem?_eq_some_iff.mp hi).1]
      exact hi)
    (fun s hs => hnul s (by simp [hs])) (fun s hs => hfit.short (by simp [hs])) hbytes
  have henvp := strings_at_ptrs (m := m) argv.length envp
    (fun i s hi => by rw [List.getElem?_append_right (by omega), Nat.add_sub_cancel_left]; exact hi)
    (fun s hs => hnul s (by simp [hs])) (fun s hs => hfit.short (by simp [hs])) hbytes
  unfold decode_stack
  simp only [hargv_ptrs, henvp_ptrs, hauxv, hargv, henvp, hargc, hptrs, Option.bind_eq_bind,
    Option.bind_some, Option.pure_def]

/-- **The page that `build_stack` leaves**, for strings that fit. -/
theorem build_stack_page {base : Nat} (hbase : base + 4096 ≤ kernelEnd) {argv envp : List Path}
    (hfit : SlotsFit (argv ++ envp)) (hnul : ∀ s ∈ argv ++ envp, 0 ∉ s)
    (at_phdr phent phnum entry : Word) (s : Mm) :
    ∃ t, build_stack base argv envp at_phdr.toNat phent.toNat phnum.toNat entry.toNat s =
        .ok stackTop t ∧
      decode_stack (stackView t.mem base) stackTop = some {
        argc := argv.length
        argv := argv
        envp := envp
        auxv := stack_auxv at_phdr.toNat phent.toNat phnum.toNat entry.toNat } ∧
      (∀ i < 16, stackView t.mem base (stackTop + 0x200 + i) = 0xab) ∧
      t.pages = s.pages ∧ ∀ a, a < base ∨ base + 4096 ≤ a → t.mem a = s.mem a := by
  obtain ⟨hpage, happart⟩ : InOnePage (stack_patches argv envp at_phdr.toNat phent.toNat
      phnum.toNat entry.toNat) := hfit.inOnePage
  generalize hl : stack_patches argv envp at_phdr.toNat phent.toNat phnum.toNat entry.toNat = l at *
  have hstore : store_patches base l s = .ok ⟨⟩ { s with mem := applied base l s.mem } :=
    store_patches_run (fun p hp => by have := hpage p hp; omega) s
  refine ⟨{ s with mem := applied base l s.mem }, ?_, ?_, ?_, rfl, ?_⟩
  · rw [build_stack_eq, hl, Prog.bind_of_ok hstore]
    rfl
  · -- every patch is there to be read
    have hread : ∀ p ∈ l, ∀ i < p.bytes.length,
        stackView (applied base l s.mem) base (stackTop + p.off + i) = p.bytes.getD i 0 := by
      intro p hp i hi
      have hoff : base + (stackTop + p.off + i - stackTop) = base + p.off + i := by omega
      rw [stackView, hoff]
      exact applied_in happart hp hi s.mem
    generalize stackView (applied base l s.mem) base = m at hread
    have hwords : WordsAt m stackTop
        (stack_vector argv.length envp.length at_phdr.toNat phent.toNat phnum.toNat entry.toNat) := by
      refine wordsAt_of_bytes ?_ fun i hi => ?_
      · exact stack_vector_small (by simpa using hfit.1) at_phdr.isLt phent.isLt phnum.isLt entry.isLt
      · have hmem := hread ⟨0, _⟩ (by rw [← hl]; exact List.mem_cons_self) i
          (by rw [length_flatMap_word]; exact hi)
        exact hmem
    have hbytes : ∀ i str, (argv ++ envp)[i]? = some str → ∀ j, j ≤ str.length →
        m (stackTop + 0x400 + i * 0x100 + j) = (str ++ [0]).getD j 0 := by
      intro i str hi j hj
      have hmem : (⟨0x400 + i * 0x100, str ++ [0]⟩ : Patch) ∈ l := by
        rw [← hl]
        refine List.mem_cons_of_mem _ (List.mem_append_left _ ?_)
        exact mem_string_patches.mpr ⟨i, str, hi, rfl⟩
      have := hread _ hmem j (by simp; omega)
      rwa [show stackTop + 0x400 + i * 0x100 + j = stackTop + (0x400 + i * 0x100) + j by omega]
    exact decode_stack_eq hfit hnul hwords hbytes
  · intro i hi
    have hmem : random_patch ∈ l := by
      rw [← hl]
      simp [stack_patches]
    have hlen16 : random_patch.bytes.length = 16 := by decide
    have hin : applied base l s.mem (base + random_patch.off + i) = _ :=
      applied_in happart hmem (by omega) s.mem
    have hoff : base + (stackTop + 0x200 + i - stackTop) = base + random_patch.off + i := by
      show _ = base + 0x200 + i
      omega
    show applied base l s.mem (base + (stackTop + 0x200 + i - stackTop)) = 0xab
    rw [hoff, hin]
    show (List.replicate 16 (0xab : UInt8)).getD i 0 = 0xab
    rw [List.getD_eq_getElem?_getD, List.getElem?_replicate, if_pos hi]
    rfl
  · intro a ha
    refine applied_out fun p hp => ?_
    have := hpage p hp
    omega

/-- The bytes of words stored one after another. -/
theorem getD_flatMap_word {l : List Nat} {i : Nat} (hi : i < 8) : ∀ {n : Nat}, n < l.length →
    (l.flatMap word).getD (8 * n + i) 0 = UInt8.ofNat (l.getD n 0 / 256 ^ i) := by
  induction l with
  | nil =>
    intro n hn
    exact absurd hn (Nat.not_lt_zero n)
  | cons w l ih =>
    intro n hn
    have hword : (word w).length = 8 := length_leBytes 8 w
    rw [List.flatMap_cons]
    cases n with
    | zero =>
      rw [List.getD_append _ _ _ _ (by omega)]
      simp [word, leBytes, hi]
    | succ n =>
      rw [List.getD_append_right _ _ _ _ (by omega), hword,
        show 8 * (n + 1) + i - 8 = 8 * n + i by omega, ih (by simpa using hn), List.getD_cons_succ]

/-- **The words of the initial stack**, for strings that stay in the page. -/
theorem build_stack_words {base : Nat} (hbase : base + 4096 ≤ kernelEnd) {argv envp : List Path}
    (hfit : StackFits (argv ++ envp)) (at_phdr phent phnum entry : Nat) (s : Mm) :
    ∃ t, build_stack base argv envp at_phdr phent phnum entry s = .ok stackTop t ∧
      t.pages = s.pages ∧ (∀ a, a < base ∨ base + 4096 ≤ a → t.mem a = s.mem a) ∧
      ∀ n < argv.length + envp.length + 19, readLE t.mem (base + 8 * n) 8 =
        (stack_vector argv.length envp.length at_phdr phent phnum entry).getD n 0 % 2 ^ 64 := by
  have hlen := hfit.length_le
  rw [List.length_append] at hlen
  generalize hvec : stack_vector argv.length envp.length at_phdr phent phnum entry = vec
  have hvlen : vec.length = argv.length + envp.length + 19 := by rw [← hvec, length_stack_vector]
  generalize hl : stack_patches argv envp at_phdr phent phnum entry = l
  have hlrest : l = ⟨0, vec.flatMap word⟩ :: (string_patches (argv ++ envp) ++ [random_patch]) := by
    rw [← hl, ← hvec]
    rfl
  -- the strings and the random bytes come after the words, and in the page
  have hrest : ∀ p ∈ string_patches (argv ++ envp) ++ [random_patch], 0x200 ≤ p.off ∧ p.stop ≤ 4096 := by
    intro p hp
    rcases List.mem_append.mp hp with hp | hp
    · obtain ⟨i, str, hi, rfl⟩ := mem_string_patches.mp hp
      have := hfit i str hi
      refine ⟨by show _ ≤ 0x400 + i * 0x100; omega, ?_⟩
      rw [Patch.stop_mk, List.length_append, List.length_singleton]
      omega
    · rw [List.mem_singleton.mp hp]
      decide
  have hpage : ∀ p ∈ l, p.stop ≤ 4096 := by
    intro p hp
    rw [hlrest] at hp
    rcases List.mem_cons.mp hp with rfl | hp
    · rw [Patch.stop_mk, length_flatMap_word]
      omega
    · exact (hrest p hp).2
  have hstore : store_patches base l s = .ok ⟨⟩ { s with mem := applied base l s.mem } :=
    store_patches_run (fun p hp => by have := hpage p hp; omega) s
  refine ⟨{ s with mem := applied base l s.mem }, ?_, rfl, ?_, ?_⟩
  · rw [build_stack_eq, hl, Prog.bind_of_ok hstore]
    rfl
  · intro a ha
    refine applied_out fun p hp => ?_
    have := hpage p hp
    omega
  · intro n hn
    have hbytes : ∀ i < 8, applied base l s.mem (base + 8 * n + i) =
        UInt8.ofNat (vec.getD n 0 / 256 ^ i) := by
      intro i hi
      have hout : applied base l s.mem (base + 8 * n + i) =
          blit s.mem (base + 0) (vec.flatMap word) (base + 8 * n + i) := by
        rw [hlrest]
        refine applied_out (l := string_patches (argv ++ envp) ++ [random_patch]) fun p hp => ?_
        have := (hrest p hp).1
        omega
      rw [hout, blit, patch_in (by omega) (by rw [length_flatMap_word]; omega),
        show base + 8 * n + i - (base + 0) = 8 * n + i by omega,
        getD_flatMap_word hi (by omega)]
    exact readLE_of_bytes hbytes

/-- **The initial stack read back.**  The program finds its arguments, its
    environment and the auxiliary vector, whose `AT_RANDOM` points to sixteen bytes. -/
theorem build_stack_decodes (base : Nat) (hbase : base + 4096 ≤ kernelEnd) (argv envp : List Path)
    (hstrs : ∀ s ∈ argv ++ envp, 0 ∉ s ∧ s.length ≤ 255)
    (hlen : argv.length + envp.length ≤ 12) (at_phdr phent phnum entry : Word) (s : Mm) :
    ∃ t, build_stack base argv envp at_phdr.toNat phent.toNat phnum.toNat entry.toNat s =
        .ok stackTop t ∧
      decode_stack (stackView t.mem base) stackTop = some {
        argc := argv.length
        argv := argv
        envp := envp
        auxv := stack_auxv at_phdr.toNat phent.toNat phnum.toNat entry.toNat } ∧
      ∀ i < 16, stackView t.mem base (stackTop + 0x200 + i) = 0xab := by
  have hfit : SlotsFit (argv ++ envp) := by
    refine ⟨by simpa using hlen, fun i str hi => ?_⟩
    have hlt := (List.getElem?_eq_some_iff.mp hi).1
    rw [List.length_append] at hlt
    have := (hstrs str (List.mem_of_getElem? hi)).2
    split <;> omega
  obtain ⟨t, hrun, hdecode, hrandom, -, -⟩ := build_stack_page hbase hfit
    (fun str h => (hstrs str h).1) at_phdr phent phnum entry s
  exact ⟨t, hrun, hdecode, hrandom⟩

/-- Two arguments and one variable. -/
theorem build_stack_decodes_echo : ∃ t,
    build_stack 0x8700_0000 [utf8 "echo", utf8 "hi"] [utf8 "PATH=/bin"] 64 56 4 0x10000
        ⟨fun _ => 0, ⟨0x8700_1000, 0x8800_0000⟩⟩ = .ok stackTop t ∧
      decode_stack (stackView t.mem 0x8700_0000) stackTop = some {
        argc := 2
        argv := [utf8 "echo", utf8 "hi"]
        envp := [utf8 "PATH=/bin"]
        auxv := stack_auxv 64 56 4 0x10000 } := by
  obtain ⟨t, hrun, hdecode, -⟩ := build_stack_decodes 0x8700_0000 (by decide)
    [utf8 "echo", utf8 "hi"] [utf8 "PATH=/bin"] (by decide +kernel) (by decide) 64 56 4 0x10000
    ⟨fun _ => 0, ⟨0x8700_1000, 0x8800_0000⟩⟩
  exact ⟨t, hrun, hdecode⟩

end Rvos

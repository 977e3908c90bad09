import Rvos.Kernel.Dispatch
import Rvos.Kernel.Stack

/-! # The arguments of `execve`

    `sys_execve` reads the path, the two arrays of pointers and the strings
    byte by byte through the caller's page table.  This is compared with what
    the caller has in its memory: `UserString` and `UserArray` say what stands
    at an address, each byte at its own translated address.

    * `read_user_str_iff` : what `read_user_str` returns, each byte turned into
      the UTF-8 form of the character with its number.
    * `execve_strings_exact_iff` : the strings arrive byte for byte just if all
      their bytes are below `0x80`. -/

namespace Rvos

open Access ByteMem Usize

/-! ## Section 1: User memory -/

/-- The byte at a user address. -/
def Kernel.byte_at (k : Kernel) (va : Nat) : Option UInt8 := (k.translate va).map k.mm.mem

/-- The word `w` at a user address. -/
def HasWord (k : Kernel) (va w : Nat) : Prop :=
  w < 2 ^ 64 ∧ ∀ i < 8, k.byte_at (wadd va i) = some (UInt8.ofNat (w / 256 ^ i))

/-- The bytes of a string at a user address, ended by a zero byte. -/
def UserString (k : Kernel) : Nat → List UInt8 → Prop
  | addr, [] => k.byte_at addr = some 0
  | addr, b :: bs => k.byte_at addr = some b ∧ b ≠ 0 ∧ UserString k (wadd addr 1) bs

/-- The pointers of an array at a user address, ended by a null pointer. -/
def UserArray (k : Kernel) : Nat → List Nat → Prop
  | arr, [] => HasWord k arr 0
  | arr, p :: ps => HasWord k arr p ∧ p ≠ 0 ∧ UserArray k (wadd arr 8) ps

section Memory

variable {k : Kernel} {addr : Nat}

theorem shl_or_add {ppn off i : Nat} (h : off + i < 4096) :
    shl ppn PAGE_SIZE_BITS ||| (off + i) = (shl ppn PAGE_SIZE_BITS ||| off) + i := by
  have hshl : shl ppn PAGE_SIZE_BITS = ppn % 2 ^ 52 * 2 ^ 12 := by
    rw [shl, PAGE_SIZE_BITS, Nat.shiftLeft_eq]
    omega
  rw [hshl, mul_or_eq_add (by omega), mul_or_eq_add (by omega)]
  omega

/-- The bytes of a page are next to each other in physical memory. -/
theorem translate_in_page (hlt : addr < 2 ^ 64) {pa : Nat} (h : k.translate addr = some pa) {i : Nat}
    (hi : addr % 4096 + i < 4096) : k.translate (wadd addr i) = some (pa + i) := by
  have hadd : wadd addr i = addr + i := wadd_of_lt (by omega)
  have hvpn : (addr + i) >>> PAGE_SIZE_BITS = addr >>> PAGE_SIZE_BITS := by
    rw [PAGE_SIZE_BITS, Nat.shiftRight_eq_div_pow, Nat.shiftRight_eq_div_pow]
    omega
  have hoff : (addr + i) &&& (PAGE_SIZE - 1) = (addr &&& (PAGE_SIZE - 1)) + i := by
    rw [show PAGE_SIZE - 1 = 2 ^ 12 - 1 from rfl, and_low, and_low]
    omega
  have hsmall : (addr &&& (PAGE_SIZE - 1)) + i < 4096 := by
    rw [show PAGE_SIZE - 1 = 2 ^ 12 - 1 from rfl, and_low]
    omega
  unfold Kernel.translate at h ⊢
  cases hcur : k.current with
  | none => simp [hcur] at h
  | some proc =>
    simp only [hcur, Option.bind_some, PageTable.translate, hadd, hvpn, hoff] at h ⊢
    obtain ⟨a, ha, rfl⟩ := Option.map_eq_some_iff.mp h
    rw [ha, Option.map_some, shl_or_add hsmall]

/-- So are those of an aligned word. -/
theorem translate_in_word (halign : addr % 8 = 0) (hlt : addr < 2 ^ 64) {pa : Nat}
    (h : k.translate addr = some pa) {i : Nat} (hi : i < 8) :
    k.translate (wadd addr i) = some (pa + i) :=
  translate_in_page hlt h (by omega)

/-- `read_user_u64` as a value. -/
theorem read_user_u64_run (l : List UserRead) :
    (read_user_u64 k addr).run' l = (k.translate addr).map fun pa => readLE k.mm.mem pa 8 := by
  unfold read_user_u64
  cases k.translate addr <;> rfl

/-- **A word of an aligned array** is read as the caller sees it. -/
theorem hasWord_iff (halign : addr % 8 = 0) (hlt : addr < 2 ^ 64) {w : Nat} (l : List UserRead) :
    HasWord k addr w ↔ (read_user_u64 k addr).run' l = some w := by
  rw [read_user_u64_run]
  constructor
  · rintro ⟨hw, hbytes⟩
    have h0 := hbytes 0 (by omega)
    rw [wadd_of_lt (by omega), Nat.add_zero] at h0
    obtain ⟨pa, hpa, -⟩ := Option.map_eq_some_iff.mp h0
    rw [hpa, Option.map_some, readLE_of_bytes (v := w) fun i hi => ?_, Nat.mod_eq_of_lt (by omega)]
    have hi' := hbytes i hi
    unfold Kernel.byte_at at hi'
    rw [translate_in_word halign hlt hpa hi, Option.map_some] at hi'
    exact Option.some.inj hi'
  · intro h
    obtain ⟨pa, hpa, rfl⟩ := Option.map_eq_some_iff.mp h
    refine ⟨readLE_lt _ 8 _, fun i hi => ?_⟩
    unfold Kernel.byte_at
    rw [translate_in_word halign hlt hpa hi, Option.map_some, readLE_byte hi]

end Memory

/-! ## Section 2: Strings -/

/-- The value of a computation that goes on from another one. -/
theorem ReadM.run'_bind {α β : Type} (x : ReadM α) (f : α → ReadM β) (l : List UserRead) :
    (x >>= f).run' l = (f (x.run' l)).run' (x.run l).2 := rfl

section Strings

variable {k : Kernel}

theorem read_user_byte_run (addr : Nat) (l : List UserRead) :
    (read_user_byte k addr).run' l = k.byte_at addr := by
  unfold read_user_byte Kernel.byte_at
  cases k.translate addr <;> rfl

/-- **What `read_user_str` collects**: a string of the caller that ends in time,
    each byte as a character. -/
theorem read_user_str_go_iff : ∀ (fuel addr : Nat) (l : List UserRead) (s : Path),
    (read_user_str_go k fuel addr).run' l = some s ↔
      ∃ bs, UserString k addr bs ∧ bs.length < fuel ∧ s = bs.flatMap latin1 := by
  intro fuel
  induction fuel with
  | zero =>
    intro addr l s
    constructor
    · intro h
      cases h
    · rintro ⟨bs, -, hlen, -⟩
      omega
  | succ fuel ih =>
    intro addr l s
    rw [read_user_str_go, ReadM.run'_bind, read_user_byte_run]
    generalize ((read_user_byte k addr).run l).2 = l'
    cases hb : k.byte_at addr with
    | none =>
      constructor
      · intro h
        cases h
      · rintro ⟨bs, hbs, -, -⟩
        cases bs with
        | nil => rw [UserString, hb] at hbs; cases hbs
        | cons b bs => rw [UserString, hb] at hbs; cases hbs.1
    | some b =>
      by_cases hzero : b = 0
      · -- the end of the string
        subst hzero
        simp only [if_true]
        constructor
        · intro h
          cases h
          exact ⟨[], hb, by simp, rfl⟩
        · rintro ⟨bs, hbs, -, rfl⟩
          cases bs with
          | nil => rfl
          | cons c bs =>
            obtain ⟨hc, hne, -⟩ := hbs
            rw [hb] at hc
            exact absurd (Option.some.inj hc).symm hne
      · have hrest := ih (wadd addr 1) l'
        simp only [if_neg hzero, ReadM.run'_bind]
        have hpure : ∀ (x : Option Path) (l : List UserRead),
            (pure x : ReadM (Option Path)).run' l = x := fun _ _ => rfl
        rw [hpure, Option.map_eq_some_iff]
        constructor
        · rintro ⟨t, ht, rfl⟩
          obtain ⟨bs, hbs, hlen, rfl⟩ := (hrest t).mp ht
          exact ⟨b :: bs, ⟨hb, hzero, hbs⟩, by simpa using hlen, rfl⟩
        · rintro ⟨bs, hbs, hlen, rfl⟩
          cases bs with
          | nil =>
            rw [UserString, hb] at hbs
            exact absurd (Option.some.inj hbs) hzero
          | cons c bs =>
            obtain ⟨hc, -, hbs⟩ := hbs
            rw [hb] at hc
            obtain rfl := Option.some.inj hc
            exact ⟨bs.flatMap latin1, (hrest _).mpr ⟨bs, hbs, by simpa using hlen, rfl⟩, rfl⟩

theorem read_user_str_iff (addr : Nat) (l : List UserRead) (s : Path) :
    (read_user_str k addr).run' l = some s ↔
      ∃ bs, UserString k addr bs ∧ bs.length ≤ 4096 ∧ s = bs.flatMap latin1 := by
  unfold read_user_str
  rw [read_user_str_go_iff]
  simp only [Nat.lt_succ_iff]

end Strings

/-- All bytes are characters of one byte. -/
def Ascii (bs : List UInt8) : Prop := ∀ b ∈ bs, b < 0x80

theorem latin1_length (b : UInt8) : (latin1 b).length = if b < 0x80 then 1 else 2 := by
  unfold latin1
  split <;> rfl

theorem le_length_flatMap_latin1 (bs : List UInt8) : bs.length ≤ (bs.flatMap latin1).length := by
  induction bs with
  | nil => exact le_refl _
  | cons b bs ih =>
    rw [List.flatMap_cons, List.length_append, latin1_length, List.length_cons]
    split <;> omega

/-- **Bytes survive the conversion** just if they are below `0x80`. -/
theorem flatMap_latin1_eq_iff (bs : List UInt8) : bs.flatMap latin1 = bs ↔ Ascii bs := by
  constructor
  · intro h b hb
    by_contra hbig
    -- a character of two bytes makes the string longer
    obtain ⟨l, r, rfl⟩ := List.append_of_mem hb
    have hlen := congrArg List.length h
    have hl := le_length_flatMap_latin1 l
    have hr := le_length_flatMap_latin1 r
    simp only [List.flatMap_append, List.flatMap_cons, List.length_append, List.length_cons,
      latin1_length, if_neg hbig] at hlen
    omega
  · intro h
    induction bs with
    | nil => rfl
    | cons b bs ih =>
      have hb : latin1 b = [b] := if_pos (h b (by simp))
      rw [List.flatMap_cons, hb, ih fun c hc => h c (by simp [hc])]
      rfl

theorem zero_not_mem_latin1 {bs : List UInt8} (h : 0 ∉ bs) : 0 ∉ bs.flatMap latin1 := by
  have hbyte : ∀ b : UInt8, b ≠ 0 → 0 ∉ latin1 b := by decide +kernel
  intro h0
  obtain ⟨b, hb, hin⟩ := List.mem_flatMap.mp h0
  exact hbyte b (fun hb0 => h (hb0 ▸ hb)) hin

theorem UserString.zero_not_mem {k : Kernel} {addr : Nat} {bs : List UInt8}
    (h : UserString k addr bs) : 0 ∉ bs := by
  induction bs generalizing addr with
  | nil => simp
  | cons b bs ih =>
    obtain ⟨-, hb, hbs⟩ := h
    rw [List.mem_cons, not_or]
    exact ⟨hb.symm, ih hbs⟩

/-! ## Section 3: Arrays -/

/-- The array at `arr` has these strings, and no more of them or longer ones than
    `execve` takes. -/
def UserStrings (k : Kernel) (arr : Nat) (strs : List (List UInt8)) : Prop :=
  ∃ ptrs, UserArray k arr ptrs ∧ ptrs.length ≤ 129 ∧
    List.Forall₂ (fun p bs => UserString k p bs ∧ bs.length ≤ 4096) ptrs strs

section Arrays

variable {k : Kernel}

/-- **The loop over an aligned array** collects its strings while the count lasts. -/
theorem read_strings_eq (fuel : Nat) : ∀ (arr : Nat) (l : List UserRead) (ptrs : List Nat)
    (strs : List (List UInt8)), arr % 8 = 0 → arr < 2 ^ 64 → UserArray k arr ptrs →
    List.Forall₂ (fun p bs => UserString k p bs ∧ bs.length ≤ 4096) ptrs strs →
    ptrs.length ≤ fuel →
    (read_strings k fuel arr).run' l = strs.map (List.flatMap latin1) := by
  induction fuel with
  | zero =>
    intro arr l ptrs strs _ _ _ hall hlen
    obtain rfl := List.eq_nil_of_length_eq_zero (Nat.le_zero.mp hlen)
    cases hall
    rfl
  | succ fuel ih =>
    intro arr l ptrs strs halign hlt harr hall hlen
    rw [read_strings, ReadM.run'_bind]
    generalize ((read_user_u64 k arr).run l).2 = l1
    cases hall with
    | nil =>
      rw [(hasWord_iff halign hlt l).mp harr]
      rfl
    | @cons p bs ptrs strs hhead htail =>
      obtain ⟨hword, hne, harr⟩ := harr
      rw [(hasWord_iff halign hlt l).mp hword]
      dsimp only
      rw [if_neg hne, ReadM.run'_bind,
        (read_user_str_iff _ l1 _).mpr ⟨_, hhead.1, hhead.2, rfl⟩]
      have hnext := ih (wadd arr 8) ((read_user_str k p).run l1).2 ptrs strs
        (by unfold wadd; omega) (wadd_lt _ _) harr htail (by simpa using hlen)
      rw [List.map_cons, ← hnext]
      rfl

/-- What `execve` reads, if the path can be read. -/
theorem execve_args_run {path : Nat} (argv envp : Nat) {name : List UInt8}
    (hpath : UserString k path name) (hname : name.length ≤ 4096) : ∃ l1 l2,
    (execve_args k path argv envp).run' [] = some (name.flatMap latin1,
      (read_strings k 129 argv).run' l1, (read_strings k 129 envp).run' l2) := by
  refine ⟨((read_user_str k path).run []).2, ((read_strings k 129 argv).run
    ((read_user_str k path).run []).2).2, ?_⟩
  unfold execve_args
  rw [ReadM.run'_bind, (read_user_str_iff path [] _).mpr ⟨name, hpath, hname, rfl⟩]
  rfl

/-- The strings of two aligned arrays. -/
theorem execve_args_eq {path argv envp : Nat} {name : List UInt8} {astrs estrs : List (List UInt8)}
    (hpath : UserString k path name) (hname : name.length ≤ 4096)
    (hargv : argv % 8 = 0 ∧ argv < 2 ^ 64) (henvp : envp % 8 = 0 ∧ envp < 2 ^ 64)
    (hastrs : UserStrings k argv astrs) (hestrs : UserStrings k envp estrs) :
    (execve_args k path argv envp).run' [] = some (name.flatMap latin1,
      astrs.map (List.flatMap latin1), estrs.map (List.flatMap latin1)) := by
  obtain ⟨l1, l2, hrun⟩ := execve_args_run argv envp hpath hname
  obtain ⟨aptrs, haarr, halen, haall⟩ := hastrs
  obtain ⟨eptrs, hearr, helen, heall⟩ := hestrs
  rw [hrun, read_strings_eq 129 argv l1 aptrs astrs hargv.1 hargv.2 haarr haall halen,
    read_strings_eq 129 envp l2 eptrs estrs henvp.1 henvp.2 hearr heall helen]

end Arrays

/-! ## Section 4: What the new image gets -/

theorem map_latin1_eq_iff (strs : List (List UInt8)) :
    strs.map (List.flatMap latin1) = strs ↔ ∀ bs ∈ strs, Ascii bs := by
  induction strs with
  | nil => simp
  | cons bs strs ih =>
    rw [List.map_cons, List.cons.injEq, flatMap_latin1_eq_iff, ih]
    simp

theorem with_path_inj {l l' : List Path} (hlen : l.length = l'.length) :
    with_path l = with_path l' ↔ l = l' := by
  refine ⟨fun h => ?_, congrArg with_path⟩
  unfold with_path at h
  split at h
  · split at h
    · exact h
    · have := congrArg List.length h
      simp at this
      omega
  · split at h
    · have := congrArg List.length h
      simp at this
      omega
    · exact List.append_cancel_right h

theorem UserStrings.zero_not_mem {k : Kernel} {arr : Nat} {strs : List (List UInt8)}
    (h : UserStrings k arr strs) : ∀ bs ∈ strs, 0 ∉ bs := by
  obtain ⟨ptrs, -, -, hall⟩ := h
  intro bs hbs
  induction hall with
  | nil => cases hbs
  | cons hhead _ ih =>
    rcases List.mem_cons.mp hbs with rfl | hbs
    · exact hhead.1.zero_not_mem
    · exact ih hbs

theorem zero_not_mem_with_path {l : List Path} (h : ∀ s ∈ l, 0 ∉ s) : ∀ s ∈ with_path l, 0 ∉ s := by
  unfold with_path
  split
  · exact h
  · intro s hs
    rcases List.mem_append.mp hs with hs | hs
    · exact h s hs
    · rw [List.mem_singleton.mp hs]
      decide +kernel

/-- The bytes of the entry, over and over. -/
def loopMem : Mem := fun a => [0xff, 0, 0, 0x20, 0, 0, 0, 0].getD (a % 8) 0

/-- A process with that table. -/
def loopKernel : Kernel where
  mm := ⟨loopMem, ⟨0x8020_0000, 0x8800_0000⟩⟩
  heap := init_heap
  satp := 0x80000
  procs := (∅ : Std.TreeMap Nat Process).insert 1 {
    pid := 1
    ppid := 0
    state := .Running
    page_table := ⟨0x80000⟩
    trap_frame := .new
    kernel_stack := 0
    brk := 0
    exit_code := 0
    fd_table := .new }
  current_pid := 1
  next_pid := 2
  current_trap_frame := .new
  mmap_base := 0
  io := .new

theorem loopMem_word {a : Nat} (h : a % 8 = 0) : readLE loopMem a 8 = 0x2000_00ff := by
  have hbyte : ∀ i, i < 8 → loopMem (a + i) = UInt8.ofNat (0x2000_00ff / 256 ^ i) := by
    intro i hi
    have hall : ∀ i < 8, ([0xff, 0, 0, 0x20, 0, 0, 0, 0] : List UInt8).getD i 0 =
      UInt8.ofNat (0x2000_00ff / 256 ^ i) := by decide
    unfold loopMem
    rw [show (a + i) % 8 = i by omega]
    exact hall i hi
  rw [readLE_of_bytes hbyte]
  rfl

/-- The process with another memory. -/
def loopOver (m : Mem) : Kernel := { loopKernel with mm := { loopKernel.mm with mem := m } }

/-- Only the bytes of that frame matter. -/
theorem loop_translate_of {m : Mem} (hm : ∀ a, 0x8000_0000 ≤ a → a < 0x8000_1000 → m a = loopMem a)
    (va : Nat) : (loopOver m).translate va = some (0x8000_0000 + va % 4096) := by
  have hslot : ∀ i, (pte m (slot 0x80000 i)).is_valid = true ∧ (pte m (slot 0x80000 i)).ppn = 0x80000 := by
    intro i
    have hword : read64 m (slot 0x80000 i) = 0x2000_00ff := by
      have hin : ∀ x, 4096 * 0x80000 + 8 * (i : Nat) ≤ x → x < 4096 * 0x80000 + 8 * (i : Nat) + 8 →
          m x = loopMem x := fun x _ _ => hm x (by omega) (by omega)
      rw [slot_eq (by decide), read64, readLE_congr hin, loopMem_word (by omega)]
      rfl
    rw [pte, hword]
    decide
  have hcur : (loopOver m).current = some _ := Std.TreeMap.getElem?_insert_self
  have hfind : PageTable.find_pte ⟨0x80000⟩ m (va >>> PAGE_SIZE_BITS) =
      some (slot 0x80000 (low9 (va >>> PAGE_SIZE_BITS))) := by
    unfold PageTable.find_pte indices
    simp only [find_pte_from, hslot, if_true]
  have hoff : va &&& (PAGE_SIZE - 1) = va % 4096 := and_low va 12
  have hshl : shl 0x80000 PAGE_SIZE_BITS = 0x80000 * 2 ^ 12 := by
    rw [shl]
    decide
  unfold Kernel.translate
  rw [hcur, Option.bind_some]
  show PageTable.translate ⟨0x80000⟩ m va = _
  unfold PageTable.translate
  simp only [hfind, Option.map_some, (hslot _).2, hoff, hshl]
  rw [mul_or_eq_add (by omega)]
  rfl

theorem loop_translate (va : Nat) : loopKernel.translate va = some (0x8000_0000 + va % 4096) :=
  loop_translate_of (m := loopMem) (fun _ _ _ => rfl) va

theorem loop_byte (va : Nat) : loopKernel.byte_at va = some (loopMem va) := by
  unfold Kernel.byte_at
  rw [loop_translate, Option.map_some]
  show some (loopMem _) = _
  unfold loopMem
  rw [show (0x8000_0000 + va % 4096) % 8 = va % 8 by omega]

/-- A string of one byte, `0xff`. -/
theorem loop_string : UserString loopKernel 0 [0xff] := by
  refine ⟨?_, by decide, ?_⟩
  · rw [loop_byte]
    rfl
  · rw [UserString, wadd_of_lt (by decide), loop_byte]
    rfl

theorem loop_strings (fuel : Nat) : ∀ (arr : Nat) (l : List UserRead), arr % 8 = 0 →
    (read_strings loopKernel fuel arr).run' l = List.replicate fuel [] := by
  induction fuel with
  | zero => exact fun _ _ _ => rfl
  | succ fuel ih =>
    intro arr l halign
    have hword : (read_user_u64 loopKernel arr).run' l = some 0x2000_00ff := by
      rw [read_user_u64_run, loop_translate, Option.map_some]
      exact congrArg some (loopMem_word (by omega))
    have hempty : UserString loopKernel 0x2000_00ff [] := by
      rw [UserString, loop_byte]
      rfl
    rw [read_strings, ReadM.run'_bind, hword]
    dsimp only
    rw [if_neg (by decide), ReadM.run'_bind,
      (read_user_str_iff 0x2000_00ff _ _).mpr ⟨[], hempty, by decide, rfl⟩]
    have hnext := ih (wadd arr 8) ((read_user_str loopKernel 0x2000_00ff).run
      ((read_user_u64 loopKernel arr).run l).2).2 (by unfold wadd; omega)
    rw [List.replicate_succ, ← hnext]
    rfl

/-- `execve` collects 129 arguments; together with the environment they do not fit
    into the page. -/
theorem collected_strings_overflow : ∃ name argv envp,
    (execve_args loopKernel 0 0 0).run' [] = some (name, argv, envp) ∧
      ¬ InOnePage (stack_patches argv (with_path envp) 64 56 0 0x10000) := by
  obtain ⟨l1, l2, hargs⟩ := execve_args_run 0 0 loop_string (by decide)
  rw [loop_strings 129 0 l1 rfl, loop_strings 129 0 l2 rfl] at hargs
  refine ⟨[0xff].flatMap latin1, List.replicate 129 [], List.replicate 129 [], hargs, fun h => ?_⟩
  have hlen := (SlotsFit.of_inOnePage h).1
  rw [List.length_append, List.length_replicate] at hlen
  omega

/-! ## Section 6: Words across pages

    `read_user_u64` translates the address of the first byte only. -/

/-- `read_user_u64` returns the little-endian value of the eight bytes that
    `read_user_byte` returns. -/
def WordOfBytes (k : Kernel) (addr : Nat) : Prop :=
  ∀ l, ∃ w, w < 2 ^ 64 ∧ (read_user_u64 k addr).run' l = some w ∧
    ∀ i < 8, ∀ l', (read_user_byte k (wadd addr i)).run' l' = some (UInt8.ofNat (w / 256 ^ i))

/-- The word lies in one page; or the frame behind that of its first page begins
    with the bytes of its second page. -/
def Kernel.Joined (k : Kernel) (addr : Nat) : Prop :=
  addr % 4096 ≤ 4088 ∨ ∀ pa pa', k.translate addr = some pa →
    k.translate (wadd addr (4096 - addr % 4096)) = some pa' →
    ∀ j, j < addr % 4096 - 4088 → k.mm.mem (pa + (4096 - addr % 4096) + j) = k.mm.mem (pa' + j)

/-- The bytes that the word path takes are those of the byte path. -/
theorem wordOfBytes_iff {k : Kernel} {addr pa : Nat} (hpa : k.translate addr = some pa) :
    WordOfBytes k addr ↔ ∀ i < 8, k.byte_at (wadd addr i) = some (k.mm.mem (pa + i)) := by
  have hbyte : ∀ i, i < 8 → UInt8.ofNat (readLE k.mm.mem pa 8 / 256 ^ i) = k.mm.mem (pa + i) :=
    fun i hi => readLE_byte hi
  constructor
  · intro h i hi
    obtain ⟨w, -, hword, hbytes⟩ := h []
    rw [read_user_u64_run, hpa, Option.map_some, Option.some.injEq] at hword
    have hi' := hbytes i hi []
    rw [read_user_byte_run] at hi'
    rw [hi', ← hword, hbyte i hi]
  · intro h l
    refine ⟨readLE k.mm.mem pa 8, readLE_lt _ 8 _, ?_, ?_⟩
    · rw [read_user_u64_run, hpa, Option.map_some]
    · intro i hi l'
      rw [read_user_byte_run, h i hi, hbyte i hi]

/-- **Words.**  Of eight mapped bytes, `read_user_u64` returns the value of those
    that `read_user_byte` returns just if they are joined in physical memory as
    far as can be told from their values. -/
theorem user_word_iff (k : Kernel) (addr : Nat) (hlt : addr < 2 ^ 64)
    (hmapped : ∀ i < 8, k.translate (wadd addr i) ≠ none) : WordOfBytes k addr ↔ k.Joined addr := by
  obtain ⟨pa, hpa⟩ := Option.ne_none_iff_exists'.mp (hmapped 0 (by decide))
  rw [wadd_of_lt (by omega), Nat.add_zero] at hpa
  rw [wordOfBytes_iff hpa]
  -- inside the first page both paths read the same byte
  have hfirst : ∀ i, addr % 4096 + i < 4096 → k.byte_at (wadd addr i) = some (k.mm.mem (pa + i)) := by
    intro i hi
    unfold Kernel.byte_at
    rw [translate_in_page hlt hpa hi, Option.map_some]
  by_cases hin : addr % 4096 ≤ 4088
  · refine ⟨fun _ => Or.inl hin, fun _ i hi => hfirst i (by omega)⟩
  · -- the second page, and where its bytes are
    obtain ⟨pa', hpa'⟩ := Option.ne_none_iff_exists'.mp (hmapped (4096 - addr % 4096) (by omega))
    have hsecond : ∀ j, j < addr % 4096 - 4088 →
        k.byte_at (wadd addr (4096 - addr % 4096 + j)) = some (k.mm.mem (pa' + j)) := by
      intro j hj
      have hadd : wadd addr (4096 - addr % 4096 + j) = wadd (wadd addr (4096 - addr % 4096)) j := by
        unfold wadd
        omega
      have hoff : wadd addr (4096 - addr % 4096) % 4096 = 0 := by
        unfold wadd
        omega
      unfold Kernel.byte_at
      rw [hadd, translate_in_page (wadd_lt _ _) hpa' (by omega), Option.map_some]
    constructor
    · intro h
      right
      intro q q' hq hq' j hj
      obtain rfl : q = pa := Option.some.inj (hq.symm.trans hpa)
      obtain rfl : q' = pa' := Option.some.inj (hq'.symm.trans hpa')
      have heq := (h (4096 - addr % 4096 + j) (by omega)).symm.trans (hsecond j hj)
      rw [← Nat.add_assoc] at heq
      exact Option.some.inj heq
    · intro h i hi
      rcases h with h | h
      · exact absurd h hin
      · by_cases hpage : addr % 4096 + i < 4096
        · exact hfirst i hpage
        · obtain ⟨j, rfl⟩ : ∃ j, i = 4096 - addr % 4096 + j := ⟨i - (4096 - addr % 4096), by omega⟩
          rw [hsecond j (by omega), ← h pa pa' hpa hpa' j (by omega), Nat.add_assoc]

/-- A word at the start of the page. -/
theorem user_word_aligned : (∀ i < 8, loopKernel.translate (wadd 0 i) ≠ none) ∧ WordOfBytes loopKernel 0 := by
  have hmapped : ∀ i < 8, loopKernel.translate (wadd 0 i) ≠ none := by
    intro i _
    rw [loop_translate]
    exact Option.some_ne_none _
  exact ⟨hmapped, (user_word_iff loopKernel 0 (by decide) hmapped).mpr (Or.inl (by decide))⟩

/-- The memory of the loop, with zeros behind its frame. -/
def edgeMem : Mem := fun a => if a < 0x8000_1000 then loopMem a else 0

/-- **Counterexample**: every page is mapped to one frame, and zeros follow it.  Of
    the word three bytes before a page, the fourth byte is `0xff` byte-wise and 0
    in the word. -/
theorem user_word_torn : (∀ i < 8, (loopOver edgeMem).translate (wadd 0xffd i) ≠ none) ∧
    (read_user_byte (loopOver edgeMem) (wadd 0xffd 3)).run' [] = some 0xff ∧
    ¬ WordOfBytes (loopOver edgeMem) 0xffd := by
  have htr : ∀ va, (loopOver edgeMem).translate va = some (0x8000_0000 + va % 4096) :=
    loop_translate_of fun a _ hlt => if_pos hlt
  have hbyte : (loopOver edgeMem).byte_at (wadd 0xffd 3) = some 0xff := by
    unfold Kernel.byte_at
    rw [htr, wadd_of_lt (by decide)]
    rfl
  refine ⟨fun i _ => ?_, ?_, fun h => ?_⟩
  · rw [htr]
    exact Option.some_ne_none _
  · rw [read_user_byte_run, hbyte]
  · have hword := (wordOfBytes_iff (htr 0xffd)).mp h 3 (by decide)
    rw [hbyte, Option.some.injEq] at hword
    exact absurd hword (by decide)

end Rvos

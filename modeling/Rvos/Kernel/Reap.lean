import Rvos.Io.Offsets
import Rvos.Kernel.Mmap

/-! # What `wait4` changes

    `sys_wait4` declares `wstatus` as a pointer to `isize`, so the status of the
    child is stored as eight bytes, where the caller has an `int` of four.  The
    four bytes behind it become zero.

    * `reap_frame_iff` : a call that reaps a child changes the `int` and the
      process table only, just if the bytes behind the `int` are zero already.
    * `wait4_frame` : the same, with the calls that reap no child. -/

namespace Rvos

open Access ByteMem Usize Trie

/-! ## Section 1: Where accesses go -/

/-- An address keeps its offset in the page. -/
theorem hw_walk_offset {m : Mem} {root va : Nat} {p : Nat × PTEFlags} (h : hw_walk m root va = some p) :
    p.1 % 4096 = va % 4096 := by
  simp only [hw_walk] at h
  -- the pages of all three sizes start at a multiple of 4096
  split_ifs at h
  · obtain rfl := Option.some.inj h
    dsimp only
    omega
  · obtain rfl := Option.some.inj h
    dsimp only
    omega
  · obtain rfl := Option.some.inj h
    dsimp only
    omega

theorem hw_translate_offset {m : Mem} {root va a : Nat} {w : Bool} (h : hw_translate m root w va = some a) :
    a % 4096 = va % 4096 := by
  obtain ⟨p, hwalk, hif⟩ := Option.bind_eq_some_iff.mp h
  split at hif
  · cases hif
    exact hw_walk_offset hwalk
  · cases hif

/-- What the user may access, the kernel reaches at the same place. -/
theorem hw_of_user {m : Mem} {root va a : Nat} {w : Bool} (h : user_translate m root w va = some a) :
    hw_translate m root w va = some a := by
  obtain ⟨p, hwalk, hif⟩ := Option.bind_eq_some_iff.mp h
  split at hif
  · next hperm =>
    rw [Bool.and_eq_true] at hperm
    unfold hw_translate
    rw [hwalk, Option.bind_some, if_pos hperm.1]
    exact hif
  · cases hif

/-- Addresses less than a page apart never lead to the same byte. -/
theorem translate_apart {m m' : Mem} {root va i j a : Nat} {w w' : Bool} (hij : i < j) (hj : j < 4096)
    (hi : hw_translate m root w (wadd va i) = some a) : hw_translate m' root w' (wadd va j) ≠ some a := by
  intro hja
  have h1 := hw_translate_offset hi
  have h2 := hw_translate_offset hja
  simp only [wadd] at h1 h2
  omega

/-! ## Section 2: Reaping -/

/-- The bytes of the `int` at `wstatus`, as far as the user may write them. -/
def Kernel.int_bytes (k : Kernel) (wstatus : Nat) : Set Nat :=
  {a | ∃ i, i < 4 ∧ user_translate k.mm.mem k.satp true (wadd wstatus i) = some a}

/-- The `int` at `wstatus` and the entry `z` of the process table are all that changes. -/
structure ReapFrame (k k' : Kernel) (wstatus z : Nat) : Prop where
  mem : ∀ a, k'.mm.mem a ≠ k.mm.mem a → a ∈ k.int_bytes wstatus
  rest : k' = { k with mm := { k.mm with mem := k'.mm.mem }, procs := k.procs.erase z }

/-- The `int` is user memory, or holds the status already, and the four bytes
    behind it are zero already. -/
structure StatusFits (k : Kernel) (wstatus : Nat) (code : Int) : Prop where
  int : ∀ i, i < 4 → UserStore k.satp k.mm.mem (wadd wstatus i) ∨
    ∀ a, hw_translate k.mm.mem k.satp true (wadd wstatus i) = some a →
      k.mm.mem a = UInt8.ofNat (wait_status code / 256 ^ i)
  behind : ∀ i, 4 ≤ i → i < 8 → ∀ a, hw_translate k.mm.mem k.satp true (wadd wstatus i) = some a →
    k.mm.mem a = 0

/-- The `int` is not part of the page tables: whatever it holds, the addresses
    from `wstatus` on lead to the same bytes. -/
def IntApart (k : Kernel) (wstatus : Nat) : Prop :=
  ∀ m, AgreeOff (k.int_bytes wstatus) m k.mm.mem → ∀ i, i < 8 →
    hw_translate m k.satp true (wadd wstatus i) = hw_translate k.mm.mem k.satp true (wadd wstatus i)

/-- The bytes of a status. -/
theorem word_get (v i : Nat) (hi : i < (word v).length) : (word v)[i] = UInt8.ofNat (v / 256 ^ i) := by
  simp [word, leBytes]

/-- A status has two bytes; the others of the word are zero. -/
theorem wait_status_high (code : Int) {i : Nat} (hi : 4 ≤ i) : wait_status code / 256 ^ i = 0 := by
  apply Nat.div_eq_of_lt
  have hlt : wait_status code < 256 ^ 4 := by
    unfold wait_status
    omega
  exact lt_of_lt_of_le hlt (Nat.pow_le_pow_right (by decide) hi)

/-- **A call that reaps a child** changes the `int` and the process table only,
    if and only if the status fits. -/
theorem reap_frame_iff {k k' : Kernel} {pid options r : Int} {wstatus z : Nat} {p : Process}
    (hrun : sys_wait4 pid wstatus options k = .ok r k') (hz : k.find_zombie pid = some (z, p))
    (hne : wstatus ≠ 0) (hlt : wstatus < 2 ^ 64) (hapart : IntApart k wstatus) :
    ReapFrame k k' wstatus z ↔ StatusFits k wstatus p.exit_code := by
  rcases sys_wait4_cases hrun with ⟨z', p', k1, hz', -, -, hstore, rfl⟩ | ⟨hnone, -⟩
  swap
  · rw [hz] at hnone
    cases hnone
  rw [hz] at hz'
  cases hz'
  obtain ⟨v, hv, rfl⟩ := KM.io_eq_ok.mp (hstore hne)
  obtain ⟨hst, hheap, -⟩ := run_storeBytes _ hv
  have hframe : ReapFrame k { k.setView v with procs := (k.setView v).procs.erase z } wstatus z ↔
      AgreeOff (k.int_bytes wstatus) v.mem k.mm.mem := by
    constructor
    · intro h
      exact agreeOff_iff.mpr h.mem
    · intro h
      refine ⟨agreeOff_iff.mp h, ?_⟩
      simp only [Kernel.setView, hst, hheap]
      rfl
  have hlen : (word (wait_status p.exit_code)).length = 8 := by simp [word]
  have hfix : ∀ m, AgreeOff (k.int_bytes wstatus) m k.mm.mem → ∀ i, i < (word (wait_status p.exit_code)).length →
      (machine k.satp).at m ⟨true, (user wstatus).add i⟩ =
        (machine k.satp).at k.mm.mem ⟨true, (user wstatus).add i⟩ :=
    fun m hm i hi => hapart m hm i (hlen ▸ hi)
  have hmeet : ∀ m m' i j a, i < j → j < (word (wait_status p.exit_code)).length →
      (machine k.satp).at m ⟨true, (user wstatus).add i⟩ = some a →
        (machine k.satp).at m' ⟨true, (user wstatus).add j⟩ ≠ some a :=
    fun m m' i j a hij hj hia => translate_apart hij (by omega) hia
  rw [hframe, storeBytes_agree_iff hfix hmeet hlt (fun _ _ => rfl) hv]
  constructor
  · intro h
    refine ⟨?_, ?_⟩
    · intro i hi
      by_cases huser : UserStore k.satp k.mm.mem (wadd wstatus i)
      · exact Or.inl huser
      · right
        intro a ha
        rcases h i (by omega) a ha with hin | hsame
        · -- the byte of the `int` that this address leads to is its own
          obtain ⟨j, hj, hja⟩ := hin
          have hji : j = i := by
            by_contra hne
            rcases Nat.lt_or_gt_of_ne hne with hlt | hgt
            · exact translate_apart hlt (by omega) (hw_of_user hja) ha
            · exact translate_apart hgt (by omega) ha (hw_of_user hja)
          exact absurd (by rw [UserStore, ← hji, hja]; simp) huser
        · rw [hsame, word_get]
    · intro i hi4 hi8 a ha
      rcases h i (by omega) a ha with hin | hsame
      · obtain ⟨j, hj, hja⟩ := hin
        exact absurd ha (translate_apart (show j < i by omega) (by omega) (hw_of_user hja))
      · rw [hsame, word_get, wait_status_high _ hi4]
        rfl
  · intro h i hi a ha
    by_cases hi4 : i < 4
    · rcases h.int i hi4 with huser | hsame
      · obtain ⟨a', ha'⟩ := Option.ne_none_iff_exists'.mp huser
        have heq : a' = a := Option.some.inj ((hw_of_user ha').symm.trans ha)
        exact Or.inl ⟨i, hi4, heq ▸ ha'⟩
      · right
        rw [hsame a ha, word_get]
    · right
      rw [h.behind i (by omega) (by omega) a ha, word_get, wait_status_high _ (by omega)]
      rfl

/-- **What `wait4` changes.**  A call that reaps a child and stores its status
    changes the `int` at `wstatus` and the entry of the child only, if and only if
    the `int` is user memory and the four bytes behind it are zero already.  A
    call that reaps no child changes nothing, and `rust_trap_handler` then changes
    the trap frame and, for a call that blocks, the state of the caller. -/
theorem wait4_frame (k k' : Kernel) (pid options r : Int) (wstatus : Nat)
    (hrun : sys_wait4 pid wstatus options k = .ok r k') (hlt : wstatus < 2 ^ 64) (hapart : IntApart k wstatus) :
    (∀ z p, k.find_zombie pid = some (z, p) → wstatus ≠ 0 →
      (ReapFrame k k' wstatus z ↔ StatusFits k wstatus p.exit_code)) ∧
    (k.find_zombie pid = none → (r = 0 ∨ r = -11) ∧ k' = k ∧ ∀ tf, ∃ m,
      handler_finish tf 260 r k' = .ok () { k with
        mm := { k.mm with mem := m }
        procs := if r = -11 then k.procs.modify k.current_pid fun p => { p with state := .Waiting } else k.procs } ∧
      read_raw m tf = (read_raw k.mm.mem tf).finished 260 r k.current_trap_frame ∧
      ∀ a, a < tf ∨ tf + 280 ≤ a → m a = k.mm.mem a) := by
  constructor
  · intro z p hz hne
    exact reap_frame_iff hrun hz hne hlt hapart
  · intro hnone
    rcases sys_wait4_cases hrun with ⟨z, p, k1, hz, -⟩ | ⟨-, hr, rfl⟩
    · rw [hz] at hnone
      cases hnone
    · refine ⟨?_, rfl, ?_⟩
      · rw [hr]
        split
        · exact Or.inl rfl
        · exact Or.inr rfl
      · intro tf
        obtain ⟨m, hfinish, hraw, hout⟩ := handler_finish_run tf 260 r k'
        exact ⟨m, by simpa using hfinish, hraw, hout⟩

/-- A process with one page of memory. -/
def pageProcess (pid ppid : Nat) (state : ProcState) (code : Int) : Process where
  pid := pid
  ppid := ppid
  state := state
  page_table := ⟨1⟩
  trap_frame := .new
  kernel_stack := 0
  brk := 0
  exit_code := code
  fd_table := .new

/-- Process 1 runs; its child 2 has exited with code 3. -/
def reapKernel (m : Mem) : Kernel where
  mm := ⟨m, init 0x8020_0000⟩
  heap := init_heap
  satp := 1
  procs := (Std.TreeMap.empty.insert 1 (pageProcess 1 0 .Running 0)).insert 2 (pageProcess 2 1 .Zombie 3)
  current_pid := 1
  next_pid := 3
  current_trap_frame := .new
  mmap_base := 0
  io := .boot Fs.noBlobs

section Example

variable {m : Mem}

/-- The child is found and its status stored at address 8. -/
theorem run_reap (hm : ∀ a, a < 16384 → m a = onePage a) :
    (reapKernel m).find_zombie (-1) = some (2, pageProcess 2 1 .Zombie 3) ∧
    ∃ k', sys_wait4 (-1) 8 0 (reapKernel m) = .ok 2 k' ∧
      k'.mm.mem = put (fun i => 16384 + (8 + i)) 0 (word 768) m := by
  have hz : (reapKernel m).find_zombie (-1) = some (2, pageProcess 2 1 .Zombie 3) := rfl
  have hblock : Block (machine 1) m (user 8) 8 (fun i => 16384 + (8 + i)) := page_block hm (by decide)
  have hstore : run (machine 1) (Code.storeBytes ((user 8).add 0) (word 768) : IoM Unit) (reapKernel m).view =
      .ok () { (reapKernel m).view with mem := put (fun i => 16384 + (8 + i)) 0 (word 768) m } :=
    Block.run_storeBytes (s := (reapKernel m).view) hblock (by simp [word])
  rw [Ptr.add_zero (by decide)] at hstore
  obtain ⟨k1, hio, hmem⟩ : ∃ k1, KM.io (Code.storeBytes (user 8) (word (wait_status 3))) (reapKernel m) =
      .ok () k1 ∧ k1.mm.mem = put (fun i => 16384 + (8 + i)) 0 (word 768) m :=
    ⟨_, KM.io_eq_ok.mpr ⟨_, hstore, rfl⟩, rfl⟩
  refine ⟨hz, { k1 with procs := k1.procs.erase 2 }, ?_, hmem⟩
  unfold sys_wait4
  rw [Prog.bind_run, Prog.get_run]
  simp only [hz]
  rw [if_pos (by decide)]
  exact Prog.bind_of_ok hio

/-- No value of the `int` at address 8 changes the tables below it. -/
theorem page_intApart (hm : ∀ a, a < 16384 → m a = onePage a) : IntApart (reapKernel m) 8 := by
  intro m' hm' i hi
  have htables : ∀ a, a < 16384 → m' a = onePage a := by
    intro a ha
    rw [hm' a _]
    · exact hm a ha
    · rintro ⟨j, hj, hja⟩
      have htr : hw_translate m 1 true (wadd 8 j) = some (16384 + wadd 8 j) :=
        onePage_translate hm (by rw [wadd]; omega) true
      have heq := Option.some.inj ((hw_of_user hja).symm.trans htr)
      omega
  have hva : wadd 8 i < 4096 := by rw [wadd]; omega
  show hw_translate m' 1 true (wadd 8 i) = hw_translate m 1 true (wadd 8 i)
  rw [onePage_translate htables hva, onePage_translate hm hva]

end Example

/-- In memory that is zero, the status of the child fits. -/
theorem wait4_frame_zero : ∃ k', sys_wait4 (-1) 8 0 (reapKernel onePage) = .ok 2 k' ∧
    ReapFrame (reapKernel onePage) k' 8 2 := by
  have htables : ∀ a, a < 16384 → onePage a = onePage a := fun _ _ => rfl
  obtain ⟨hz, k', hrun, -⟩ := run_reap htables
  have hframe := (wait4_frame _ _ _ _ _ _ hrun (by decide) (page_intApart htables)).1 2 _ hz (by decide)
  refine ⟨k', hrun, hframe.mpr ⟨?_, ?_⟩⟩
  · have huser : ∀ i, i < 4 → user_translate onePage 1 true (wadd 8 i) ≠ none := by decide +kernel
    intro i hi
    exact Or.inl (huser i hi)
  · have hzero : ∀ i, i < 8 → onePage (16384 + wadd 8 i) = 0 := by decide +kernel
    intro i _ hi8 a ha
    have htr : hw_translate onePage 1 true (wadd 8 i) = some (16384 + wadd 8 i) :=
      onePage_translate htables (by rw [wadd]; omega) true
    obtain rfl := Option.some.inj (htr.symm.trans ha)
    exact hzero i hi8

/-- **Counterexample**: the variable behind the `int` holds 7; the call reaps the
    child and the variable holds 0. -/
theorem wait4_clears_neighbour : ∃ k',
    sys_wait4 (-1) 8 0 (reapKernel (blit onePage 16396 [7])) = .ok 2 k' ∧
    (reapKernel (blit onePage 16396 [7])).mm.mem 16396 = 7 ∧ k'.mm.mem 16396 = 0 ∧
    ¬ ReapFrame (reapKernel (blit onePage 16396 [7])) k' 8 2 := by
  have htables : ∀ a, a < 16384 → blit onePage 16396 [7] a = onePage a :=
    fun a ha => blit_out (Or.inl (by omega))
  obtain ⟨-, k', hrun, hmem⟩ := run_reap htables
  have hold : (reapKernel (blit onePage 16396 [7])).mm.mem 16396 = 7 := by decide +kernel
  have hnew : k'.mm.mem 16396 = 0 := by
    rw [hmem]
    decide +kernel
  refine ⟨k', hrun, hold, hnew, ?_⟩
  intro hframe
  -- the changed byte is not one of the four bytes of the `int`
  obtain ⟨i, hi, hia⟩ := hframe.mem 16396 (by rw [hold, hnew]; decide)
  have htr : hw_translate (blit onePage 16396 [7]) 1 true (wadd 8 i) = some (16384 + wadd 8 i) :=
    onePage_translate htables (by rw [wadd]; omega) true
  have heq := Option.some.inj ((hw_of_user hia).symm.trans htr)
  rw [wadd] at heq
  omega

end Rvos

import Rvos.Kernel.Load
import Rvos.Kernel.Machine

/-! # The address spaces of all processes

    `Spaces` is the invariant that keeps the processes of the table apart: every
    frame has one owner and one role, every table has the identity mappings, and
    the kernel stacks are disjoint.  `Kernel.Sound` adds that user pages have
    proper flags and that the heap's cursor is in its range, `Kernel.Inv` that
    `satp` holds the current process's table.

    Memory may change in user pages, on kernel stacks and beyond the frames
    handed out (`Loose`) without harm; a table that was built aside can be
    installed for a process (`Spaces.install`). -/

namespace Rvos

open Access ByteMem Usize

/-! ## Section 1: Homes -/

/-- Where a process lives: the root of its table and the top of its kernel stack. -/
structure Home where
  root : Nat
  stack : Nat
  deriving DecidableEq, Repr

def Process.home (p : Process) : Home := ⟨p.page_table.root_ppn, p.kernel_stack⟩

def Kernel.home (k : Kernel) (pid : Nat) : Option Home := k.procs[pid]?.map Process.home

/-- The two frames of the kernel stack that ends at `top`. -/
def stackFrames (top : Nat) : Set Nat := {top / 4096 - 1, top / 4096 - 2}

def roots (home : Nat → Option Home) : Set Nat := { r | ∃ pid h, home pid = some h ∧ h.root = r }

def kernelStacks (home : Nat → Option Home) : Set Nat :=
  { f | ∃ pid h, home pid = some h ∧ f ∈ stackFrames h.stack }

/-- Address spaces and kernel stacks are apart. -/
structure Spaces (s : Mm) (home : Nat → Option Home) : Prop where
  own : Own s (roots home) (kernelStacks home)
  kernel : ∀ r ∈ roots home, KernelMapped s.mem r
  top : ∀ pid h, home pid = some h → 4096 ∣ h.stack ∧ 8192 ≤ h.stack
  root_inj : ∀ pid h pid' h', home pid = some h → home pid' = some h' → h.root = h'.root → pid = pid'
  stack_inj : ∀ pid h pid' h' f, home pid = some h → home pid' = some h' →
    f ∈ stackFrames h.stack → f ∈ stackFrames h'.stack → pid = pid'

/-- The address is in the frame. -/
def InFrame (f a : Nat) : Prop := 4096 * f ≤ a ∧ a < 4096 * f + 4096

/-- A byte that no table depends on: of a user page, of a kernel stack, or of a
    frame that has not been handed out. -/
def Loose (s : Mm) (home : Nat → Option Home) (a : Nat) : Prop :=
  (∃ r ∈ roots home, ∃ v f, UserPage s.mem r v f ∧ InFrame f a) ∨
  (∃ f ∈ kernelStacks home, InFrame f a) ∨ s.pages.current ≤ a

section Spaces

variable {s t : Mm} {home home' : Nat → Option Home} {pid r top : Nat} {K : Set Nat}

theorem root_mem {h : Home} (hh : home pid = some h) : h.root ∈ roots home := ⟨pid, h, hh, rfl⟩

theorem stack_mem {h : Home} (hh : home pid = some h) {f : Nat} (hf : f ∈ stackFrames h.stack) :
    f ∈ kernelStacks home := ⟨pid, h, hh, hf⟩

/-- **Writing** to loose bytes. -/
theorem Spaces.write (h : Spaces s home) {m : Mem} (hm : ∀ a, m a ≠ s.mem a → Loose s home a) :
    Spaces { s with mem := m } home ∧ ∀ r ∈ roots home, SameEntries s.mem m r 2 := by
  have hsame : ∀ r ∈ roots home, SameEntries s.mem m r 2 := by
    intro r hr p g hp hg i
    refine entry_congr (fun a h1 h2 => ?_) i
    by_contra hne
    rcases hm a hne with ⟨x, hx, v, f, hu, hin⟩ | ⟨f, hf, hin⟩ | hge
    · obtain rfl : g = f := by unfold InFrame at hin; omega
      exact h.own.user_node x hx r hr v p g hp hu hg
    · obtain rfl : g = f := by unfold InFrame at hin; omega
      exact h.own.stack_node g hf r hr p hp hg
    · have := h.own.tables.below r hr p g hp hg
      omega
  have hok := h.own.tables.ok
  refine ⟨⟨h.own.transport ⟨hok.aligned, hok.le_end, hok.end_le⟩ (Nat.le_refl _) hsame, ?_, h.top,
    h.root_inj, h.stack_inj⟩, hsame⟩
  intro r hr
  exact (h.kernel r hr).congr fun v => leaf_of_same (hsame r hr) v

/-- Fewer processes. -/
theorem Spaces.sub (h : Spaces s home) (hsub : ∀ q x, home' q = some x → home q = some x) :
    Spaces s home' := by
  have hroots : roots home' ⊆ roots home := by
    rintro r ⟨q, x, hx, rfl⟩
    exact root_mem (hsub q x hx)
  have hstacks : kernelStacks home' ⊆ kernelStacks home := by
    rintro f ⟨q, x, hx, hf⟩
    exact stack_mem (hsub q x hx) hf
  refine ⟨h.own.mono hroots hstacks, fun r hr => h.kernel r (hroots hr), ?_, ?_, ?_⟩
  · intro q x hx
    exact h.top q x (hsub q x hx)
  · intro q x q' x' hx hx'
    exact h.root_inj q x q' x' (hsub q x hx) (hsub q' x' hx')
  · intro q x q' x' f hx hx'
    exact h.stack_inj q x q' x' f (hsub q x hx) (hsub q' x' hx')

/-- The root of a table that was built aside is new. -/
theorem Builds.root_notMem {R : Set Nat} (hb : Builds s R K r t) : r ∉ R := by
  intro hr
  have h1 := hb.nodes [] r (by simp) rfl
  have h2 := hb.base.tables.below r hr [] r (by simp) rfl
  omega

/-- **A table built aside is installed** as the table of `pid`, with its kernel
    stack; the others stay or go. -/
theorem Spaces.install (h : Spaces s home) (hb : Builds s (roots home) K r t)
    (hk : KernelMapped t.mem r) (hself : ∀ x, home' pid = some x → x = ⟨r, top⟩)
    (hother : ∀ q x, q ≠ pid → home' q = some x → home q = some x)
    (htop : 4096 ∣ top ∧ 8192 ≤ top) (hK : kernelStacks home' ⊆ K)
    (hstack : ∀ q x f, q ≠ pid → home q = some x → f ∈ stackFrames top →
      f ∉ stackFrames x.stack) : Spaces t home' := by
  have hroots : roots home' ⊆ insert r (roots home) := by
    rintro r' ⟨q, x, hx, rfl⟩
    by_cases hq : q = pid
    · subst hq
      rw [hself x hx]
      exact Set.mem_insert _ _
    · exact Set.mem_insert_of_mem _ (root_mem (hother q x hq hx))
  have hnew := hb.root_notMem
  refine ⟨hb.own.mono hroots hK, ?_, ?_, ?_, ?_⟩
  · intro r' hr'
    rcases Set.mem_insert_iff.mp (hroots hr') with rfl | hr'
    · exact hk
    · exact (h.kernel r' hr').congr fun v => leaf_of_same (hb.same hr') v
  · intro q x hx
    by_cases hq : q = pid
    · subst hq
      rw [hself x hx]
      exact htop
    · exact h.top q x (hother q x hq hx)
  · intro q x q' x' hx hx' heq
    by_cases hq : q = pid
    · by_cases hq' : q' = pid
      · rw [hq, hq']
      · subst hq
        have hroot : r = x'.root := by rw [← heq, hself x hx]
        exact absurd (hroot ▸ root_mem (hother q' x' hq' hx')) hnew
    · by_cases hq' : q' = pid
      · subst hq'
        have hroot : r = x.root := by rw [heq, hself x' hx']
        exact absurd (hroot ▸ root_mem (hother q x hq hx)) hnew
      · exact h.root_inj q x q' x' (hother q x hq hx) (hother q' x' hq' hx') heq
  · intro q x q' x' f hx hx' hf hf'
    by_cases hq : q = pid
    · by_cases hq' : q' = pid
      · rw [hq, hq']
      · subst hq
        rw [hself x hx] at hf
        exact absurd hf' (hstack q' x' f hq' (hother q' x' hq' hx') hf)
    · by_cases hq' : q' = pid
      · subst hq'
        rw [hself x' hx'] at hf'
        exact absurd hf (hstack q x f hq (hother q x hq hx) hf')
      · exact h.stack_inj q x q' x' f (hother q x hq hx) (hother q' x' hq' hx') hf hf'

/-- Kernel stacks end below the cursor. -/
theorem Spaces.stack_le (h : Spaces s home) {x : Home} (hx : home pid = some x) :
    x.stack ≤ s.pages.current ∧ x.stack ≤ 0x8800_0000 := by
  obtain ⟨hal, hge⟩ := h.top pid x hx
  have hbelow := h.own.stack_below _ (stack_mem hx (f := x.stack / 4096 - 1) (by simp [stackFrames]))
  have hle := h.own.tables.ok.le_end
  have hend := h.own.tables.ok.end_le
  omega

/-- The trap frame at the top of a kernel stack. -/
theorem Spaces.frame_loose (h : Spaces s home) {x : Home} (hx : home pid = some x) {a : Nat}
    (h1 : x.stack - 288 ≤ a) (h2 : a < x.stack) : Loose s home a := by
  obtain ⟨hal, hge⟩ := h.top pid x hx
  refine Or.inr (Or.inl ⟨x.stack / 4096 - 1, stack_mem hx (by simp [stackFrames]), ?_⟩)
  unfold InFrame
  omega

/-- A user access reaches a byte of a user page. -/
theorem user_translate_page {R : Set Nat} (ht : Tables s R) (hr : r ∈ R) {w : Bool} {va a : Nat}
    (h : user_translate s.mem r w va = some a) :
    ∃ f, UserPage s.mem r (Vpn.of va) f ∧ InFrame f a ∧ a = 4096 * f + va % 4096 := by
  unfold user_translate at h
  rw [hw_walk_eq ht hr] at h
  obtain ⟨p, hp, h⟩ := Option.bind_eq_some_iff.mp h
  split at hp
  · obtain ⟨e, he, hp⟩ := Option.bind_eq_some_iff.mp hp
    split at hp
    · cases hp
      split at h
      · next hperm =>
        cases h
        simp only [Bool.and_eq_true] at hperm
        refine ⟨e.ppn, ⟨e, ?_, rfl⟩, ?_, rfl⟩
        · unfold userLeaf
          rw [he]
          simp [Option.filter, hperm.2]
        · unfold InFrame
          omega
      · cases h
    · cases hp
  · cases hp

end Spaces

/-! ## Section 2: The kernel's invariant -/

structure Kernel.Sound (k : Kernel) : Prop where
  spaces : Spaces k.mm k.home
  flags : UserFlags k.mm.mem (roots k.home)
  heap : k.heap.Ok

structure Kernel.Inv (k : Kernel) : Prop extends k.Sound where
  satp : ∃ x, k.home k.current_pid = some x ∧ k.satp = x.root

section Inv

variable {k k' : Kernel}

/-- The invariant depends on memory, heap, homes and `satp`. -/
theorem Kernel.Inv.congr (h : k.Inv) (hmm : k'.mm = k.mm) (hheap : k'.heap = k.heap)
    (hhome : k'.home = k.home) (hcur : k'.current_pid = k.current_pid) (hsatp : k'.satp = k.satp) :
    k'.Inv := by
  refine ⟨⟨?_, ?_, ?_⟩, ?_⟩
  · rw [hmm, hhome]; exact h.spaces
  · rw [hmm, hhome]; exact h.flags
  · rw [hheap]; exact h.heap
  · rw [hhome, hcur, hsatp]; exact h.satp

/-- Changing fields of a process other than its home. -/
theorem home_modify {pid : Nat} {f : Process → Process} (hf : ∀ p, (f p).home = p.home) (k : Kernel) :
    ({ k with procs := k.procs.modify pid f } : Kernel).home = k.home := by
  funext q
  unfold Kernel.home
  rw [Assoc.get_modify]
  split
  · cases k.procs[q]? with
    | none => rfl
    | some p => simp [hf]
  · rfl

theorem Kernel.Inv.modify_proc (h : k.Inv) {pid : Nat} {f : Process → Process}
    (hf : ∀ p, (f p).home = p.home) : ({ k with procs := k.procs.modify pid f } : Kernel).Inv :=
  h.congr rfl rfl (home_modify hf k) rfl rfl

/-- Writing to loose bytes. -/
theorem Kernel.Inv.write (h : k.Inv) {m : Mem} (hm : ∀ a, m a ≠ k.mm.mem a → Loose k.mm k.home a) :
    (k.withMem m).Inv := by
  obtain ⟨hspaces, hsame⟩ := h.spaces.write hm
  exact ⟨⟨hspaces, h.flags.same hsame, h.heap⟩, h.satp⟩

theorem Kernel.Inv.root_mem (h : k.Inv) : k.satp ∈ roots k.home := by
  obtain ⟨x, hx, hsatp⟩ := h.satp
  rw [hsatp]
  exact Rvos.root_mem hx

/-- **User code** keeps the invariant. -/
theorem Kernel.Inv.user_stores {stores : List (Nat × UInt8)} : ∀ {k : Kernel} {m : Mem}, k.Inv →
    user_stores k.satp k.mm.mem stores = some m → (k.withMem m).Inv := by
  induction stores with
  | nil =>
    intro k m h hm
    cases hm
    exact h
  | cons st rest ih =>
    intro k m h hm
    obtain ⟨va, v⟩ := st
    obtain ⟨a, ha, hrest⟩ := Option.bind_eq_some_iff.mp hm
    obtain ⟨f, hu, hin, -⟩ := user_translate_page h.spaces.own.tables h.root_mem ha
    have hinv : (k.withMem (Function.update k.mm.mem a v)).Inv := by
      refine h.write fun b hne => Or.inl ⟨k.satp, h.root_mem, _, f, hu, ?_⟩
      obtain rfl : b = a := by
        by_contra hba
        exact hne (Function.update_of_ne hba _ _)
      exact hin
    exact ih (k := k.withMem (Function.update k.mm.mem a v)) hinv hrest

end Inv

end Rvos

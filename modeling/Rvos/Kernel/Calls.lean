import Rvos.Kernel.Lifecycle
import Rvos.Kernel.Spaces
import Rvos.Lib.Stores

/-! # What the calls do to address spaces

    Every call of `dispatch` keeps the kernel's invariant, if it does not store
    into the kernel's own pages:

    * `run_changes`   : stores through user pointers, by any program.
    * `Extended`      : new pages of the caller (`brk`, `mmap`).
    * `exec_process_keeps`, `sys_clone_keeps` : tables that are built aside.
    * `Guard`         : the condition on a call, and `dispatch_keeps`. -/

namespace Rvos

open Access ByteMem Usize

/-! ## Section 1: Stores through pointers -/

/-- The address is not in one of the kernel's own pages. -/
def Kernel.UserSide (k : Kernel) (va : Nat) : Prop :=
  ∀ e, leaf k.mm.mem k.satp (Vpn.of va) = some e → e.flags.contains .U = true

/-- The bytes that the current process may change: those of its user pages, and
    memory that has not been handed out (where the heap is). -/
def Kernel.Mine (k : Kernel) (a : Nat) : Prop :=
  (∃ v f, UserPage k.mm.mem k.satp v f ∧ InFrame f a) ∨ k.mm.pages.current ≤ a

/-- A store that does not touch the kernel's own pages. -/
def Kernel.StoreOk (k : Kernel) (p : Ptr) : Prop :=
  if p.own then k.mm.pages.current ≤ p.addr else k.UserSide p.addr

/-- The kernel stacks are as they were. -/
def Kernel.StacksKept (k k' : Kernel) : Prop :=
  ∀ f ∈ kernelStacks k.home, ∀ a, InFrame f a → k'.mm.mem a = k.mm.mem a

section Stores

variable {k k' : Kernel}

theorem Kernel.Inv.mine_loose (h : k.Inv) {a : Nat} (ha : k.Mine a) : Loose k.mm k.home a := by
  rcases ha with ⟨v, f, hu, hin⟩ | hge
  · exact Or.inl ⟨k.satp, h.root_mem, v, f, hu, hin⟩
  · exact Or.inr (Or.inr hge)

theorem Kernel.Inv.mine_stack (h : k.Inv) {a f : Nat} (ha : k.Mine a) (hf : f ∈ kernelStacks k.home) :
    ¬ InFrame f a := by
  intro hin
  rcases ha with ⟨v, g, hu, hg⟩ | hge
  · obtain rfl : f = g := by unfold InFrame at hin hg; omega
    exact h.spaces.own.stack_user f hf _ h.root_mem v hu
  · have := h.spaces.own.stack_below f hf
    unfold InFrame at hin
    omega

/-- Bytes of the current process and of the heap do not matter to its table. -/
theorem Kernel.Inv.leaf_same (h : k.Inv) {m : Mem} (hm : ∀ a, m a ≠ k.mm.mem a → k.Mine a) (v : Vpn) :
    leaf m k.satp v = leaf k.mm.mem k.satp v :=
  leaf_of_same ((h.spaces.write fun a hne => h.mine_loose (hm a hne)).2 k.satp h.root_mem) v

theorem Kernel.Inv.walk_same (h : k.Inv) {m : Mem} (hm : ∀ a, m a ≠ k.mm.mem a → k.Mine a) (va : Nat) :
    hw_walk m k.satp va = hw_walk k.mm.mem k.satp va := by
  have hinv := h.write fun a hne => h.mine_loose (hm a hne)
  have hwalk := hw_walk_eq hinv.spaces.own.tables hinv.root_mem va
  rw [show (k.withMem m).mm.mem = m from rfl, show (k.withMem m).satp = k.satp from rfl,
    h.leaf_same hm] at hwalk
  rw [hwalk, hw_walk_eq h.spaces.own.tables h.root_mem]

/-- A permitted access goes through a leaf. -/
theorem Kernel.Inv.translate_leaf (h : k.Inv) {w : Bool} {va a : Nat}
    (ha : hw_translate k.mm.mem k.satp w va = some a) :
    canonical va = true ∧ ∃ e, leaf k.mm.mem k.satp (Vpn.of va) = some e ∧
      permits w e.flags = true ∧ InFrame e.ppn a := by
  unfold hw_translate at ha
  rw [hw_walk_eq h.spaces.own.tables h.root_mem] at ha
  obtain ⟨q, hq, hperm⟩ := Option.bind_eq_some_iff.mp ha
  split at hq
  · next hcanon =>
    obtain ⟨e, he, hq⟩ := Option.bind_eq_some_iff.mp hq
    split at hq
    · cases hq
      split at hperm
      · next hpermits =>
        cases hperm
        refine ⟨hcanon, e, he, hpermits, ?_⟩
        unfold InFrame
        omega
      · cases hperm
    · cases hq
  · cases hq

/-- A permitted store outside the kernel's own pages reaches a user page. -/
theorem Kernel.Inv.store_mine (h : k.Inv) {m : Mem} (hm : ∀ a, m a ≠ k.mm.mem a → k.Mine a)
    {p : Ptr} (hp : k.StoreOk p) {a : Nat} (ha : (machine k.satp).at m ⟨true, p⟩ = some a) :
    k.Mine a := by
  unfold Kernel.StoreOk at hp
  unfold Machine.at at ha
  by_cases hown : p.own = true
  · simp only [hown, if_true, Option.some.injEq] at hp ha
    exact Or.inr (ha ▸ hp)
  · simp only [hown, if_false, Bool.false_eq_true] at hp ha
    -- the tables in `m` are those of `k`
    have htr : hw_translate k.mm.mem k.satp true p.addr = some a := by
      have ha' : hw_translate m k.satp true p.addr = some a := ha
      unfold hw_translate at ha' ⊢
      rwa [h.walk_same hm] at ha'
    obtain ⟨-, e, he, -, hin⟩ := h.translate_leaf htr
    refine Or.inl ⟨Vpn.of p.addr, e.ppn, ⟨e, ?_, rfl⟩, hin⟩
    unfold userLeaf
    rw [he]
    simp [Option.filter, hp e he]

theorem machine_refused (root : Nat) : ∀ (h : HeapAllocator) (n l : Nat) (h' : HeapAllocator), h.Ok →
    (machine root).alloc h n l = (none, h') → h'.Ok := by
  intro h n l h' hi halloc
  rw [show h' = h from heap_alloc_refused hi halloc]
  exact hi

/-- Blocks of the heap lie where the heap is. -/
theorem machine_block (root : Nat) {W : Set Nat} (hW : ∀ x, 0x8600_0000 ≤ x → x ∈ W) :
    ∀ (h : HeapAllocator) (n l a : Nat) (h' : HeapAllocator), h.Ok →
      (machine root).alloc h n l = (some a, h') → h'.Ok ∧ ∀ x, a ≤ x → x < a + n → x ∈ W := by
  intro h n l a h' hi halloc
  obtain ⟨hi', hlo, -⟩ := heap_alloc_block hi halloc
  refine ⟨hi', ?_⟩
  intro x hx _
  exact hW x (by omega)

/-- **Stores of a program**: if none of them is to the kernel's own pages, only
    bytes of the current process and of the heap change. -/
theorem run_changes {α : Type} (h : k.Inv) (hroom : k.mm.pages.current ≤ 0x8600_0000) (c : IoM α) :
    ∀ s : St HeapAllocator Io, (∀ a, s.mem a ≠ k.mm.mem a → k.Mine a) → s.heap.Ok →
      (∀ e ∈ trace (machine k.satp) c s, e.write = true → k.StoreOk e.ptr) →
      (∀ a, (Prog.final (run (machine k.satp) c s)).mem a ≠ k.mm.mem a → k.Mine a) ∧
        (Prog.final (run (machine k.satp) c s)).heap.Ok := by
  intro s hm hi hg
  have hblock := machine_block k.satp (W := {a | k.Mine a}) fun x hx => Or.inr (hroom.trans hx)
  have hstay := run_stays hblock (machine_refused k.satp) c s
    (agreeOff_iff.mpr hm) hi (by
      intro e he hw m a hm' ha
      have hwrite : e = ⟨true, e.ptr⟩ := by rw [← hw]
      rw [hwrite] at ha
      exact h.store_mine (agreeOff_iff.mp hm') (hg e he hw) ha)
  exact ⟨agreeOff_iff.mp hstay.1, hstay.2⟩

/-- Changing bytes of the current process and of the heap. -/
theorem Kernel.Inv.setView (h : k.Inv) {s : St HeapAllocator Io}
    (hm : ∀ a, s.mem a ≠ k.mm.mem a → k.Mine a) (hi : s.heap.Ok) :
    (k.setView s).Inv ∧ k.StacksKept (k.setView s) := by
  have hw := h.write fun a hne => h.mine_loose (hm a hne)
  refine ⟨⟨⟨hw.spaces, hw.flags, hi⟩, hw.satp⟩, ?_⟩
  intro f hf a hin
  by_contra hne
  exact h.mine_stack (hm a hne) hf hin

/-- **Input and output calls** that store nothing into the kernel's own pages. -/
theorem io_keeps {α : Type} {c : IoM α} {r : α} (h : k.Inv)
    (hroom : k.mm.pages.current ≤ 0x8600_0000)
    (hg : ∀ e ∈ trace (machine k.satp) c k.view, e.write = true → k.StoreOk e.ptr)
    (hrun : KM.io c k = .ok r k') : k'.Inv ∧ k.StacksKept k' := by
  obtain ⟨hm, hi⟩ := run_changes h hroom c k.view (fun a hne => absurd rfl hne) h.heap hg
  unfold KM.io at hrun
  cases hres : run (machine k.satp) c k.view with
  | ok a s =>
    rw [hres] at hm hi
    simp only [hres, EStateM.Result.ok.injEq] at hrun
    rw [← hrun.2]
    exact h.setView hm hi
  | error e s =>
    simp only [hres] at hrun
    cases hrun

end Stores

/-! ## Section 2: New pages of the caller -/

/-- The table `r` may have got new user pages, in new frames; nothing else has
    changed. -/
structure Extended (home : Nat → Option Home) (r : Nat) (s t : Mm) : Prop where
  spaces : Spaces t home
  flags : UserFlags t.mem (roots home)
  grows : Grows (roots home) r s t
  leaves : ∀ x ∈ roots home, ∀ w, leaf t.mem x w = leaf s.mem x w ∨
    (x = r ∧ leaf s.mem x w = none ∧
      ∃ e, leaf t.mem x w = some e ∧ e.flags.contains .U = true ∧ s.pages.current ≤ 4096 * e.ppn)

section Pages

variable {home : Nat → Option Home} {r : Nat} {s t u : Mm}

theorem Extended.refl (h : Spaces s home) (hf : UserFlags s.mem (roots home)) :
    Extended home r s s :=
  ⟨h, hf, Grows.refl r h.own.tables, fun _ _ _ => Or.inl rfl⟩

theorem Extended.trans (hr : r ∈ roots home) (h1 : Extended home r s t) (h2 : Extended home r t u) :
    Extended home r s u := by
  refine ⟨h2.spaces, h2.flags, h1.grows.trans hr h2.grows, ?_⟩
  intro x hx w
  have hcur := h1.grows.cursor
  rcases h2.leaves x hx w with h | ⟨hxr, hnone, e, he, hU, hge⟩
  · rw [h]
    exact h1.leaves x hx w
  · right
    rcases h1.leaves x hx w with h' | ⟨-, -, e', he', -⟩
    · exact ⟨hxr, h' ▸ hnone, e, he, hU, Nat.le_trans hcur hge⟩
    · rw [hnone] at he'
      cases he'

/-- A frame is handed out. -/
theorem Spaces.take (h : Spaces s home) (hf : UserFlags s.mem (roots home))
    (hroom : s.pages.current + 4096 ≤ s.pages.end_) :
    Extended home r s s.take ∧ Free s.take (roots home) (kernelStacks home) s.next := by
  have hsame : ∀ x ∈ roots home, SameEntries s.mem s.take.mem x 2 :=
    fun x hx => same_take h.own.tables hx
  obtain ⟨hown, hfree⟩ := h.own.take hroom
  have hspaces : Spaces s.take home :=
    ⟨hown, fun x hx => (h.kernel x hx).congr fun v => leaf_of_same (hsame x hx) v, h.top, h.root_inj,
      h.stack_inj⟩
  refine ⟨⟨hspaces, hf.same hsame, ?_, fun x hx w => Or.inl (leaf_of_same (hsame x hx) w)⟩, hfree⟩
  refine ⟨hown.tables, rfl, Nat.le_add_right _ _, ?_, ?_, ?_⟩
  · intro x hx p f hp hn
    rw [node_of_same (hsame x hx) (by omega)]
    exact hn
  · intro x hx p f hp hn
    rw [node_of_same (hsame x hx) (by omega)] at hn
    exact Or.inl hn
  · intro a hne
    right
    by_contra hout
    exact hne (take_mem_out (by show a < s.pages.current ∨ s.pages.current + 4096 ≤ a
                                have : s.take.pages.current = s.pages.current + 4096 := rfl
                                omega))

/-- **`map_if_absent`** takes at most three frames. -/
theorem map_if_absent_wp (h : Spaces s home) (hf : UserFlags s.mem (roots home))
    (hr : r ∈ roots home) (va : Nat) {flags : PTEFlags} (hU : flags.contains .U = true) :
    Prog.wp (map_if_absent ⟨r⟩ va flags)
      (fun _ t => Extended home r s t ∧ t.pages.current ≤ s.pages.current + 12288)
      (fun _ _ => s.pages.end_ < s.pages.current + 12288) s := by
  unfold map_if_absent
  simp only [Prog.wp_bind, Prog.wp_get]
  rw [translate_eq h.own.tables hr]
  cases hleaf : leaf s.mem r (Vpn.of va) with
  | some e =>
    simp only [Option.map_some, Option.isNone_some, Bool.false_eq_true, if_false, Prog.wp_pure]
    exact ⟨Extended.refl h hf, Nat.le_add_right _ _⟩
  | none =>
    simp only [Option.map_none, Option.isNone_none, if_true, Prog.wp_bind]
    have hok := h.own.tables.ok
    rcases alloc_page_cases hok with ⟨hroom, halloc⟩ | ⟨hfull, halloc⟩
    · rw [Prog.wp_of_ok halloc]
      obtain ⟨hext, hfree⟩ := h.take (r := r) hf hroom
      have hle := hok.le_end
      have hend := hok.end_le
      have hnext := hok.next_eq
      have hcur : s.take.pages.current = s.pages.current + 4096 := rfl
      have hend' : s.take.pages.end_ = s.pages.end_ := rfl
      simp only
      refine (map_wp hext.spaces.own.tables hr (by omega) flags).mono ?_ ?_
      · intro _ t hm
        rw [frame_at_cursor] at hm
        generalize he : PageTableEntry.new s.next flags.mapped = e at hm
        have hppn : e.ppn = s.next := by rw [← he]; exact PageTableEntry.new_ppn (by omega) _
        have hflags : e.flags = flags.mapped := by
          rw [← he]; exact PageTableEntry.new_flags (by omega) _
        have hUe : e.flags.contains .U = true := by rw [hflags, PTEFlags.mapped_contains_U, hU]
        have hused := hm.used
        refine ⟨⟨⟨?_, ?_, h.top, h.root_inj, h.stack_inj⟩, ?_, ?_, ?_⟩, by omega⟩
        · exact hext.spaces.own.mapped hm fun _ => hppn ▸ hfree
        · intro x hx
          by_cases hxr : x = r
          · subst hxr
            exact (hext.spaces.kernel x hx).mapped hx hm hUe
          · refine (hext.spaces.kernel x hx).congr fun v => ?_
            rw [hm.leaves x hx v, if_neg fun hh => hxr hh.1]
        · exact hext.flags.mapped hm
        · exact hext.grows.trans hr hm.grows
        · intro x hx w
          rw [hm.leaves x hx w]
          split
          · next hh =>
            obtain ⟨rfl, rfl⟩ := hh
            exact Or.inr ⟨rfl, hleaf, e, rfl, hUe, by omega⟩
          · exact hext.leaves x hx w
      · intro e t he
        rcases he with ⟨-, hsome⟩ | ⟨-, -, -, hfull⟩
        · rcases hext.leaves r hr (Vpn.of va) with hl | ⟨-, -, e', -, -, hge⟩
          · rw [hl, hleaf] at hsome
            cases hsome
          · have hfresh := leaf_of_same (same_take h.own.tables hr) (Vpn.of va)
            rw [hfresh, hleaf] at hsome
            cases hsome
        · omega
    · rw [Prog.wp_of_ok halloc]
      simp only [Prog.wp_pure]
      exact ⟨Extended.refl h hf, Nat.le_add_right _ _⟩

/-- The loops of `brk` and `mmap`. -/
theorem map_all_wp {α : Type} (h : Spaces s home) (hf : UserFlags s.mem (roots home))
    (hr : r ∈ roots home) (l : List α) (va : α → Nat) {flags : PTEFlags}
    (hU : flags.contains .U = true) :
    Prog.wp (l.forM fun x => map_if_absent ⟨r⟩ (va x) flags)
      (fun _ t => Extended home r s t ∧ t.pages.current ≤ s.pages.current + 12288 * l.length)
      (fun _ _ => s.pages.end_ < s.pages.current + 12288 * l.length) s := by
  refine Prog.forM_wp
    (I := fun done t => Extended home r s t ∧
      t.pages.current ≤ s.pages.current + 12288 * done.length) ?_ ?_
  · intro done x rest t hl hI
    obtain ⟨hext, hused⟩ := hI
    have hlen : l.length = done.length + (rest.length + 1) := by simp [hl]
    refine (map_if_absent_wp hext.spaces hext.flags hr (va x) hU).mono ?_ ?_
    · intro _ u hu
      refine ⟨hext.trans hr hu.1, ?_⟩
      have := hu.2
      simp only [List.length_append, List.length_cons, List.length_nil]
      linarith
    · intro _ _ he
      have := hext.grows.end_eq
      rw [hlen]
      linarith
  · exact ⟨Extended.refl h hf, Nat.le_add_right _ _⟩

end Pages

/-! ## Section 3: Tables built aside -/

section Aside

variable {home : Nat → Option Home} {r pid : Nat} {s t : Mm} {k k' : Kernel}

/-- Nothing below the old cursor has changed. -/
theorem Spaces.kept (h : Spaces s home) (hown : Own t (roots home) (kernelStacks home))
    (hbytes : ∀ a, a < s.pages.current → t.mem a = s.mem a) :
    Spaces t home ∧ ∀ x ∈ roots home, SameEntries s.mem t.mem x 2 := by
  have hsame : ∀ x ∈ roots home, SameEntries s.mem t.mem x 2 :=
    fun x hx => h.own.tables.same_of_below hbytes hx
  exact ⟨⟨hown, fun x hx => (h.kernel x hx).congr fun v => leaf_of_same (hsame x hx) v, h.top,
    h.root_inj, h.stack_inj⟩, hsame⟩

/-- Kernel stacks lie below the cursor. -/
theorem Kernel.Sound.stacks_kept (h : k.Sound)
    (hbytes : ∀ a, a < k.mm.pages.current → k'.mm.mem a = k.mm.mem a) : k.StacksKept k' := by
  intro f hf a hin
  have := h.spaces.own.stack_below f hf
  unfold InFrame at hin
  exact hbytes a (by omega)

/-- The current process, under the invariant. -/
theorem Kernel.Inv.current (h : k.Inv) :
    ∃ p, k.current = some p ∧ p.page_table = ⟨k.satp⟩ ∧
      k.home k.current_pid = some ⟨k.satp, p.kernel_stack⟩ := by
  obtain ⟨x, hx, hsatp⟩ := h.satp
  unfold Kernel.home at hx
  obtain ⟨p, hp, rfl⟩ := Option.map_eq_some_iff.mp hx
  refine ⟨p, hp, ?_, ?_⟩
  · rw [hsatp]
    rfl
  · unfold Kernel.home
    rw [hp, hsatp]
    rfl

theorem Process.home_onStack (p : Process) (stack : Nat) : (p.onStack stack).home = p.home := by
  unfold Process.onStack
  split <;> rfl

theorem CopyOf.flags {m m' : Mem} {r r' : Nat} (h : CopyOf m r Set.univ m' r') :
    UserFlags m' {r'} := by
  intro x hx v e' he'
  obtain rfl := Set.mem_singleton_iff.mp hx
  cases hu : userLeaf m r v with
  | none =>
    rw [h.others v (Or.inr hu)] at he'
    cases he'
  | some e =>
    obtain ⟨f, e'', he'', -, hflags, -⟩ := h.copied v (Set.mem_univ v) e hu
    rw [he''] at he'
    cases he'
    rw [hflags, PTEFlags.mapped_mapped]

/-- The flags of the old tables and of the new one. -/
theorem Builds.flags {K : Set Nat} {home' : Nat → Option Home}
    (hb : Builds s (roots home) K r t) (hf : UserFlags s.mem (roots home))
    (hnew : UserFlags t.mem {r}) (hroots : roots home' ⊆ insert r (roots home)) :
    UserFlags t.mem (roots home') := by
  intro x hx v e he
  rcases Set.mem_insert_iff.mp (hroots hx) with rfl | hx'
  · exact hnew x rfl v e he
  · unfold userLeaf at he
    rw [leaf_of_same (hb.same hx') v] at he
    exact hf x hx' v e he

theorem roots_update {home' : Nat → Option Home} {x : Home}
    (hself : ∀ y, home' pid = some y → y = x)
    (hother : ∀ q y, q ≠ pid → home' q = some y → home q = some y) :
    roots home' ⊆ insert x.root (roots home) := by
  rintro r' ⟨q, y, hy, rfl⟩
  by_cases hq : q = pid
  · subst hq
    rw [hself y hy]
    exact Set.mem_insert _ _
  · exact Set.mem_insert_of_mem _ (root_mem (hother q y hq hy))

theorem kernelStacks_update {home' : Nat → Option Home} {x : Home}
    (hself : ∀ y, home' pid = some y → y = x)
    (hother : ∀ q y, q ≠ pid → home' q = some y → home q = some y) :
    kernelStacks home' ⊆ stackFrames x.stack ∪ kernelStacks home := by
  rintro f ⟨q, y, hy, hf⟩
  by_cases hq : q = pid
  · subst hq
    rw [hself y hy] at hf
    exact Or.inl hf
  · exact Or.inr (stack_mem (hother q y hq hy) hf)

/-- **A copy is installed** as the table of `pid`, with the next two frames as
    its kernel stack. -/
theorem Spaces.fork {home' : Nat → Option Home} (h : Spaces s home)
    (hb : Builds s (roots home) (kernelStacks home) r t) (hk : KernelMapped t.mem r)
    (hroom : t.pages.current + 8192 ≤ t.pages.end_)
    (hself : ∀ y, home' pid = some y → y = ⟨r, t.pages.current + 8192⟩)
    (hother : ∀ q y, q ≠ pid → home' q = some y → home q = some y) :
    Spaces t.take.take home' := by
  obtain ⟨hb2, hsame2⟩ := hb.stackPages hroom
  have hnext := hb.own.tables.ok.next_eq
  have hcursor := hb.cursor
  have hframes : ∀ f, f ∈ stackFrames (t.pages.current + 8192) → f = t.next + 1 ∨ f = t.next := by
    intro f hf
    unfold stackFrames at hf
    rcases hf with rfl | hf
    · left
      omega
    · right
      rw [Set.mem_singleton_iff.mp hf]
      omega
  refine h.install hb2 (hk.congr fun v => leaf_of_same (hsame2 r hb.root) v) hself hother ?_ ?_ ?_
  · have := hb.own.tables.ok.aligned
    omega
  · intro f hf
    rcases kernelStacks_update hself hother hf with hf | hf
    · rcases hframes f hf with rfl | rfl
      · exact Set.mem_insert _ _
      · exact Set.mem_insert_of_mem _ (Set.mem_insert _ _)
    · exact Set.mem_insert_of_mem _ (Set.mem_insert_of_mem _ hf)
  · -- the other stacks lie below the new frames
    intro q x f hq hx hf hf'
    have := h.own.stack_below f (stack_mem hx hf')
    rcases hframes f hf with rfl | rfl <;> omega

/-- **A new table replaces** the one of `pid`, which keeps its kernel stack. -/
theorem Spaces.replace {home' : Nat → Option Home} {x : Home} (h : Spaces s home)
    (hx : home pid = some x) (hb : Builds s (roots home) (kernelStacks home) r t)
    (hk : KernelMapped t.mem r) (hself : ∀ y, home' pid = some y → y = ⟨r, x.stack⟩)
    (hother : ∀ q y, q ≠ pid → home' q = some y → home q = some y) : Spaces t home' := by
  refine h.install hb hk hself hother (h.top _ _ hx) ?_ ?_
  · intro f hf
    rcases kernelStacks_update hself hother hf with hf | hf
    · exact stack_mem hx hf
    · exact hf
  · intro q y f hq hy hf hf'
    exact hq (h.stack_inj q y _ _ f hy hx hf' hf)

/-- A failed `clone` changes nothing below the cursor. -/
theorem ForkFails.kept {mm : Mm} (h : k.Inv) (hfail : ForkFails k mm) :
    Own mm (roots k.home) (kernelStacks k.home) ∧
      ∀ a, a < k.mm.pages.current → mm.mem a = k.mm.mem a := by
  obtain ⟨parent, hcur, hpt, -⟩ := h.current
  have hclone := clone_user_space_wp h.spaces.own h.root_mem
  cases hfail with
  | idle hnone => rw [hcur] at hnone; cases hnone
  | copy p hp hc =>
    rw [hcur] at hp
    cases hp
    rw [hpt] at hc
    rcases hclone.ok hc with ⟨r', hr', -⟩ | ⟨-, hown, -, -, hbytes, -⟩
    · cases hr'
    · exact ⟨hown, hbytes⟩
  | stack p pt mm1 hp hc hs =>
    rw [hcur] at hp
    cases hp
    rw [hpt] at hc
    rcases hclone.ok hc with ⟨r', hr', -, hb, -⟩ | ⟨hno, -⟩
    · rcases alloc_pages_two_cases hb.own.tables.ok with ⟨-, halloc⟩ | ⟨-, halloc⟩
      · rw [halloc] at hs
        cases hs
      · rw [halloc] at hs
        cases hs
        exact ⟨hb.drop, hb.bytes⟩
    · cases hno

/-- **`clone`** keeps the invariant and changes nothing below the cursor. -/
theorem sys_clone_keeps (h : k.Inv) (hpid : ∀ q x, k.home q = some x → q < k.next_pid)
    {stack : Nat} {ret : Int} (hrun : sys_clone stack k = .ok ret k') :
    k'.Inv ∧ ∀ a, a < k.mm.pages.current → k'.mm.mem a = k.mm.mem a := by
  rcases sys_clone_cases hrun with ⟨-, mm, hfail, rfl⟩ |
    ⟨-, p, pt, kstack, mm1, mm2, hp, hc, hs, hmm, -, hprocs, hcurpid, hsatp, -, hheap, -, -⟩
  · obtain ⟨hown, hbytes⟩ := hfail.kept h
    obtain ⟨hspaces, hsame⟩ := h.spaces.kept hown hbytes
    exact ⟨⟨⟨hspaces, h.flags.same hsame, h.heap⟩, h.satp⟩, hbytes⟩
  · obtain ⟨parent, hcur, hpt, hhome⟩ := h.current
    rw [hcur] at hp
    cases hp
    rw [hpt] at hc
    rcases (clone_user_space_wp h.spaces.own h.root_mem).ok hc with
      ⟨r', hr', -, hb, hkernel, hcopy, -⟩ | ⟨hno, -⟩
    · cases hr'
      rcases alloc_pages_two_cases hb.own.tables.ok with ⟨hroom, halloc⟩ | ⟨-, halloc⟩
      · rw [halloc] at hs
        cases hs
        obtain ⟨hb2, hsame2⟩ := hb.stackPages hroom
        have hhome' : ∀ q, k'.home q = if q = k.next_pid then
            some ⟨r', mm1.pages.current + 8192⟩ else k.home q := by
          intro q
          unfold Kernel.home
          rw [hprocs]
          split
          · rw [Option.map_some, Process.home_onStack]
            rfl
          · rfl
        have hself : ∀ y, k'.home k.next_pid = some y → y = ⟨r', mm1.pages.current + 8192⟩ := by
          intro y hy
          rw [hhome', if_pos rfl] at hy
          exact (Option.some.inj hy).symm
        have hother : ∀ q y, q ≠ k.next_pid → k'.home q = some y → k.home q = some y := by
          intro q y hq hy
          rwa [hhome', if_neg hq] at hy
        refine ⟨⟨⟨?_, ?_, ?_⟩, ⟨k.satp, p.kernel_stack⟩, ?_, hsatp⟩, ?_⟩
        · rw [hmm]
          exact h.spaces.fork hb hkernel hroom hself hother
        · rw [hmm]
          refine hb2.flags h.flags (hcopy.flags.same ?_) (roots_update hself hother)
          intro x hx
          obtain rfl := Set.mem_singleton_iff.mp hx
          exact hsame2 x hb.root
        · rw [hheap]
          exact h.heap
        · rw [hhome', hcurpid, if_neg (Nat.ne_of_lt (hpid _ _ hhome)), hhome]
        · intro a ha
          rw [hmm]
          exact hb2.bytes a ha
      · rw [halloc] at hs
        cases hs
    · cases hno

/-- What a run that builds a table aside leaves of the rest of the kernel. -/
structure Kernel.Beside (k k' : Kernel) : Prop where
  bytes : ∀ a, a < k.mm.pages.current → k'.mm.mem a = k.mm.mem a
  current : k'.current_pid = k.current_pid
  satp : k'.satp = k.satp

/-- The frames that a new address space takes before its segments are loaded. -/
def newFrames : Nat := 160

/-- **`exec_process`** builds the new table from new frames; the old one stays
    in place until `satp` is changed. -/
theorem exec_process_keeps {env : Env} {data : List UInt8} {argv envp : List Path} {o : Option Nat}
    (h : k.Inv) (hroom : k.mm.pages.current + 4096 * newFrames ≤ 0x8600_0000)
    (hfit : StackFits (argv ++ envp))
    (hrun : exec_process env k.current_pid data argv envp k = .ok o k') :
    k'.Sound ∧ k.Beside k' ∧ (o = none → k'.home = k.home) ∧
      ∃ x, k'.home k.current_pid = some x := by
  obtain ⟨parent, hcur, hpt, hhome⟩ := h.current
  unfold newFrames at hroom
  rcases exec_process_cases hrun with ⟨rfl, mm, hnew, rfl⟩ |
    ⟨pt, mm1, mm2, loaded, k3, hnew, hident, hload, hend⟩
  · rcases PageTable.new_cases h.spaces.own.tables.ok with ⟨-, halloc⟩ | ⟨-, halloc⟩
    · rw [halloc] at hnew
      cases hnew
    · rw [halloc] at hnew
      cases hnew
      exact ⟨h.toSound, ⟨fun _ _ => rfl, rfl, rfl⟩, fun _ => rfl, _, hhome⟩
  · rcases PageTable.new_cases h.spaces.own.tables.ok with ⟨hfree, halloc⟩ | ⟨-, halloc⟩
    · rw [halloc] at hnew
      cases hnew
      obtain ⟨hb, hempty⟩ := Builds.new h.spaces.own hfree
      obtain ⟨hb2, hkernel2, hnone2, hused2⟩ := (identity_map_wp hb hempty).ok hident
      have hcursor : k.mm.take.pages.current = k.mm.pages.current + 4096 := rfl
      have hspace : Space k.mm (roots k.home) (kernelStacks k.home) k.mm.next mm2 := by
        refine ⟨hb2, hkernel2, ?_⟩
        intro x hx v e he
        rw [Set.mem_singleton_iff.mp hx, hnone2 v] at he
        cases he
      have hrest := (rest_load_program env ⟨k.mm.next⟩ data argv envp).of_ok hload
      obtain ⟨hspace3, hheap3, -, -⟩ := (load_program_wp (k := { k with mm := mm2 }) hspace hnone2
        h.heap (by show mm2.pages.current + 12288 * 9 ≤ _; omega) env data hfit).ok hload
      simp only [Kernel.rest, Prod.mk.injEq] at hrest
      obtain ⟨hsatp, hprocs, hcurpid, -⟩ := hrest
      have hhome3 : k3.home = k.home := by
        unfold Kernel.home
        rw [hprocs]
      rcases hend with ⟨rfl, -, rfl⟩ | ⟨elf, max_end, rfl, -, hk'⟩
      · obtain ⟨hspaces, hsame⟩ := h.spaces.kept hspace3.builds.drop hspace3.builds.bytes
        refine ⟨⟨?_, ?_, hheap3⟩, ⟨hspace3.builds.bytes, hcurpid, hsatp⟩, fun _ => hhome3, ?_⟩
        · rw [hhome3]
          exact hspaces
        · rw [hhome3]
          exact h.flags.same hsame
        · rw [hhome3]
          exact ⟨_, hhome⟩
      · have hhome' : ∀ q, k'.home q =
            if q = k.current_pid then some ⟨k.mm.next, parent.kernel_stack⟩ else k.home q := by
          intro q
          rw [hk']
          unfold Kernel.home
          rw [Assoc.get_modify]
          split
          · next hq =>
            rw [hq, hprocs, show k.procs[k.current_pid]? = some parent from hcur]
            rfl
          · rw [hprocs]
        have hself : ∀ y, k'.home k.current_pid = some y → y = ⟨k.mm.next, parent.kernel_stack⟩ := by
          intro y hy
          rw [hhome', if_pos rfl] at hy
          exact (Option.some.inj hy).symm
        have hother : ∀ q y, q ≠ k.current_pid → k'.home q = some y → k.home q = some y := by
          intro q y hq hy
          rwa [hhome', if_neg hq] at hy
        have hnow : ∃ x, k'.home k.current_pid = some x := by
          rw [hhome', if_pos rfl]
          exact ⟨_, rfl⟩
        have hspaces := h.spaces.replace hhome hspace3.builds hspace3.kernel hself hother
        have hflags := hspace3.builds.flags h.flags hspace3.flags (roots_update hself hother)
        subst hk'
        exact ⟨⟨hspaces, hflags, hheap3⟩, ⟨hspace3.builds.bytes, hcurpid, hsatp⟩,
          fun hno => absurd hno (by simp), hnow⟩
    · rw [halloc] at hnew
      cases hnew

end Aside

/-! ## Section 4: The calls under a guard -/

/-- **The condition on a call.**  The frames handed out so far end below the
    heap, also after those that `mmap` and `execve` take; the bytes that `wait4`
    and `mmap` store to, and those that an input or output call stores to, are not
    in the kernel's own pages; and the strings of `execve` fit into the topmost
    page of the stack. -/
structure Guard (env : Env) (k : Kernel) (num : Nat) (a : Args) : Prop where
  room : k.mm.pages.current ≤ 0x8600_0000
  wait4 : num = 260 → a.a1 ≠ 0 → ∀ p ∈ (user a.a1).span 8, k.UserSide p.addr
  mmap : num = 222 →
    k.mm.pages.current + 12288 * (pages 0 (pageUp a.a1)).length ≤ 0x8600_0000 ∧
      ∀ p ∈ (user (k.mmap_at a.a0 (toIsize a.a3))).span (pageUp a.a1), k.UserSide p.addr
  execve : num = 221 → k.mm.pages.current + 4096 * newFrames ≤ 0x8600_0000 ∧
    ∀ name argv envp, (execve_args k a.a0 a.a1 a.a2).run' [] = some (name, argv, envp) →
      StackFits (argv ++ with_path envp)
  io : ∀ c, io_call env num a = some c →
    ∀ e ∈ trace (machine k.satp) c k.view, e.write = true → k.StoreOk e.ptr

section Keeps

variable {env : Env} {num : Nat} {a : Args} {k k' : Kernel} {ret : Int}

theorem Kernel.StacksKept.refl (k : Kernel) : k.StacksKept k := fun _ _ _ _ => rfl

theorem Kernel.StacksKept.trans {k'' : Kernel} (h1 : k.StacksKept k') (hhome : k'.home = k.home)
    (h2 : k'.StacksKept k'') : k.StacksKept k'' := by
  intro f hf a hin
  rw [h2 f (hhome ▸ hf) a hin, h1 f hf a hin]

theorem Kernel.storeOk_user {start n : Nat} {q : Ptr} (hq : q ∈ (user start).span n)
    (h : k.UserSide q.addr) : k.StoreOk q := by
  unfold Kernel.StoreOk
  rw [Ptr.span_own hq]
  exact h

/-- New pages of the caller. -/
theorem Extended.keeps {mm : Mm} (h : k.Inv) (hext : Extended k.home k.satp k.mm mm) :
    ({ k with mm := mm } : Kernel).Inv ∧ k.StacksKept { k with mm := mm } := by
  refine ⟨⟨⟨hext.spaces, hext.flags, h.heap⟩, h.satp⟩, ?_⟩
  intro f hf a hin
  by_contra hne
  have hbelow := h.spaces.own.stack_below f hf
  unfold InFrame at hin
  rcases hext.grows.bytes a hne with ⟨p, g, hp, hg, hlo, hhi⟩ | ⟨hge, -⟩
  · obtain rfl : f = g := by omega
    exact h.spaces.own.stack_node f hf _ h.root_mem p hp hg
  · omega

theorem exit_keeps (h : k.Inv) {code : Int} (hrun : sys_exit code k = .ok ret k') :
    k'.Inv ∧ k.StacksKept k' := by
  rw [sys_exit_eq] at hrun
  cases hrun
  have hexited : ∀ p : Process, (p.exited code).home = p.home := fun p => rfl
  have hwoken : ∀ p : Process, p.woken.home = p.home := by
    intro p
    unfold Process.woken
    split <;> rfl
  exact ⟨(h.modify_proc hexited).modify_proc hwoken, Kernel.StacksKept.refl k⟩

theorem brk_keeps (h : k.Inv) {addr : Nat} (hrun : sys_brk addr k = .ok ret k') :
    k'.Inv ∧ k.StacksKept k' := by
  obtain ⟨proc, hcur, hpt, -⟩ := h.current
  obtain ⟨mm, b, hmm, hheap, hsatp, hcurpid, -, -, hprocs, hloop⟩ := sys_brk_cases hcur hrun
  have hhome : k'.home = k.home := by
    funext q
    unfold Kernel.home
    rw [hprocs]
    split
    · next hq => rw [hq, show k.procs[k.current_pid]? = some proc from hcur]; rfl
    · rfl
  have hext : Extended k.home k.satp k.mm mm := by
    rcases hloop with rfl | ⟨lo, hi, hloop⟩
    · exact Extended.refl h.spaces h.flags
    · rw [hpt] at hloop
      exact ((map_all_wp h.spaces h.flags h.root_mem (pages lo hi) (fun page => page)
        (by decide)).ok hloop).1
  obtain ⟨hinv, hstacks⟩ := hext.keeps h
  refine ⟨hinv.congr hmm hheap hhome hcurpid hsatp, ?_⟩
  intro f hf a hin
  rw [hmm]
  exact hstacks f hf a hin

theorem prot_flags_user (prot : Int) : (prot_flags prot).contains .U = true := by
  unfold prot_flags
  split <;> split <;> split <;> decide

theorem le_pageUp {len : Nat} (h : len ≤ isizeMax) : len ≤ pageUp len := by
  unfold isizeMax at h
  unfold pageUp
  rw [wadd_of_lt (by omega), show (0xfff : Nat) = 2 ^ 12 - 1 from rfl,
    and_bnot_eq_div_mul (by omega) (by norm_num)]
  omega

/-- The stores of `mmap_fill` are in the mapping. -/
theorem mmap_fill_trace {M : Machine HeapAllocator Halt} {start len : Nat} {flags fd : Int}
    {offset : Nat} {s : St HeapAllocator Io} {e : Access.Event}
    (he : e ∈ trace M (mmap_fill start len (pageUp len) flags fd offset) s) :
    e.ptr ∈ (user start).span (pageUp len) := by
  unfold mmap_fill at he
  rw [trace_bind] at he
  rcases List.mem_append.mp he with he | he
  · have := (trace_storeBytes M he).2
    rwa [List.length_replicate] at this
  · cases hrun : run M (Code.storeBytes ⟨start, false⟩ (List.replicate (pageUp len) 0)) s with
    | error e' s' => simp [hrun] at he
    | ok u s' =>
      simp only [hrun] at he
      split at he
      · rw [trace_bind, trace_get, List.nil_append, run_get] at he
        simp only at he
        cases hfile : s'.st.fd_table.get (ofIsize fd) with
        | none => simp [hfile] at he
        | some of =>
          simp only [hfile, trace_bind, trace_read_file, List.nil_append] at he
          cases hread : run M (read_file of.inode len offset) s' with
          | error e' s'' => simp [hread] at he
          | ok bs s'' =>
            simp only [hread] at he
            obtain ⟨hread', -, hle⟩ := run_read_file hread
            have hlen := Fs.length_read_inode hread'
            exact Ptr.span_subset (hlen.trans (le_pageUp hle)) (trace_storeBytes M he).2
      · cases he

theorem mmap_keeps (h : k.Inv) {addr len : Nat} {prot flags fd : Int} {offset : Nat}
    (hg : ∀ p ∈ (user (k.mmap_at addr flags)).span (pageUp len), k.UserSide p.addr)
    (hroom : k.mm.pages.current + 12288 * (pages 0 (pageUp len)).length ≤ 0x8600_0000)
    (hrun : sys_mmap addr len prot flags fd offset k = .ok ret k') : k'.Inv ∧ k.StacksKept k' := by
  obtain ⟨proc, hcur, hpt, -⟩ := h.current
  obtain ⟨mm, base, hloop, hfill⟩ := sys_mmap_cases hcur hrun
  rw [hpt] at hloop
  obtain ⟨hext, hused⟩ := (map_all_wp h.spaces h.flags h.root_mem (pages 0 (pageUp len))
    (fun page => wadd (k.mmap_at addr flags) page) (prot_flags_user prot)).ok hloop
  obtain ⟨hinv, hstacks⟩ := hext.keeps h
  have hinv' : ({ k with mm := mm, mmap_base := base } : Kernel).Inv :=
    hinv.congr rfl rfl rfl rfl rfl
  have hroom' : mm.pages.current ≤ 0x8600_0000 := hused.trans hroom
  obtain ⟨hk', hstacks'⟩ := io_keeps hinv' hroom' (by
    -- a page that was not mapped before is a user page
    intro e he _
    have hmem := mmap_fill_trace he
    refine Kernel.storeOk_user hmem ?_
    intro x hx
    rcases hext.leaves k.satp h.root_mem (Vpn.of e.ptr.addr) with hl | ⟨-, -, e', he', hU, -⟩
    · exact hg e.ptr hmem x (hl ▸ hx)
    · rw [show leaf mm.mem k.satp (Vpn.of e.ptr.addr) = some x from hx] at he'
      cases he'
      exact hU) hfill
  exact ⟨hk', hstacks.trans rfl hstacks'⟩

theorem execve_keeps (h : k.Inv) {path argv envp : Nat}
    (hroom : k.mm.pages.current + 4096 * newFrames ≤ 0x8600_0000)
    (hfit : ∀ name argv' envp', (execve_args k path argv envp).run' [] = some (name, argv', envp') →
      StackFits (argv' ++ with_path envp'))
    (hrun : sys_execve env path argv envp k = .ok ret k') : k'.Inv ∧ k.StacksKept k' := by
  rcases sys_execve_cases hrun with ⟨-, io, rfl⟩ |
    ⟨name, argv', envp', data, o, k1, hargs, -, hexec, hend⟩
  · exact ⟨h.congr rfl rfl rfl rfl rfl, Kernel.StacksKept.refl k⟩
  · obtain ⟨hsound, hbeside, hhome, hnow⟩ := exec_process_keeps h hroom (hfit _ _ _ hargs) hexec
    have hstacks := h.toSound.stacks_kept hbeside.bytes
    rcases hend with ⟨rfl, -, rfl⟩ | ⟨sp, rfl, -, rfl⟩
    · obtain ⟨x, hx, hsatp⟩ := h.satp
      refine ⟨⟨hsound, x, ?_, by rw [hbeside.satp, hsatp]⟩, hstacks⟩
      rw [hhome rfl, hbeside.current, hx]
    · obtain ⟨x, hx⟩ := hnow
      rw [← hbeside.current] at hx
      obtain ⟨p, hp, rfl⟩ := Option.map_eq_some_iff.mp hx
      unfold Kernel.exec_enter
      rw [show k1.current = some p from hp]
      exact ⟨⟨⟨hsound.spaces, hsound.flags, hsound.heap⟩, p.home, hx, rfl⟩, hstacks⟩

theorem wait4_keeps (h : k.Inv) (hlive : k.table.Live) {pid options : Int} {wstatus : Nat}
    (hroom : k.mm.pages.current ≤ 0x8600_0000)
    (hg : wstatus ≠ 0 → ∀ p ∈ (user wstatus).span 8, k.UserSide p.addr)
    (hrun : sys_wait4 pid wstatus options k = .ok ret k') : k'.Inv ∧ k.StacksKept k' := by
  rcases sys_wait4_cases hrun with ⟨z, proc, k1, hz, -, hsame, hstore, rfl⟩ | ⟨-, -, rfl⟩
  · -- the status is stored
    have h1 : k1.Inv ∧ k.StacksKept k1 ∧ k1.procs = k.procs ∧ k1.current_pid = k.current_pid := by
      by_cases hw : wstatus = 0
      · rw [hsame hw]
        exact ⟨h, Kernel.StacksKept.refl k, rfl, rfl⟩
      · have hkeeps := io_keeps h hroom (by
          intro e he _
          have hmem := (trace_storeBytes _ he).2
          exact Kernel.storeOk_user hmem (hg hw e.ptr hmem)) (hstore hw)
        obtain ⟨s, -, rfl⟩ := KM.io_eq_ok.mp (hstore hw)
        exact ⟨hkeeps.1, hkeeps.2, rfl, rfl⟩
    obtain ⟨hinv, hstacks, hprocs, hcur⟩ := h1
    -- the zombie is not the caller
    have hne : k.current_pid ≠ z := by
      intro heq
      have hmem := Std.TreeMap.mem_toList_iff_getElem?_eq_some.mp (List.mem_of_find?_eq_some hz)
      have hzombie := List.find?_some hz
      obtain ⟨e, he, hstate⟩ := hlive.current
      rw [Kernel.table_get, show k.table.current = z from heq, hmem] at he
      cases he
      simp only [Bool.and_eq_true, beq_iff_eq] at hzombie
      have hz' : proc.entry.state = .Zombie := hzombie.1.2
      rcases hstate with hs | hs <;> rw [hz'] at hs <;> cases hs
    have hhome : ∀ q, ({ k1 with procs := k1.procs.erase z } : Kernel).home q =
        if q = z then none else k1.home q := by
      intro q
      unfold Kernel.home
      rw [Assoc.get_erase]
      split <;> rfl
    have hsub : ∀ q x, ({ k1 with procs := k1.procs.erase z } : Kernel).home q = some x →
        k1.home q = some x := by
      intro q x hx
      rw [hhome] at hx
      split at hx
      · cases hx
      · exact hx
    refine ⟨⟨⟨hinv.spaces.sub hsub, hinv.flags.mono ?_, hinv.heap⟩, ?_⟩, hstacks⟩
    · rintro r ⟨q, x, hx, rfl⟩
      exact root_mem (hsub q x hx)
    · obtain ⟨x, hx, hsatp⟩ := hinv.satp
      refine ⟨x, ?_, hsatp⟩
      rw [hhome, if_neg (by rw [hcur]; exact hne)]
      exact hx
  · exact ⟨h, Kernel.StacksKept.refl _⟩

/-- **The calls** keep the kernel's invariant and the kernel stacks. -/
theorem dispatch_keeps (h : k.Inv) (hlive : k.table.Live) (hg : Guard env k num a)
    (hrun : dispatch env num a k = .ok ret k') : k'.Inv ∧ k.StacksKept k' := by
  cases dispatch_cases hrun with
  | io c hnum hio hc =>
    rcases hc with hc | rfl
    · exact io_keeps h hg.room (hg.io c hc) hio
    · exact io_keeps h hg.room (fun e he _ => by cases he) hio
  | quiet hnum hk =>
    rw [hk]
    exact ⟨h, Kernel.StacksKept.refl k⟩
  | exit hnum hexit => exact exit_keeps h hexit
  | brk hnum hbrk => exact brk_keeps h hbrk
  | clone hnum hclone =>
    have hpid : ∀ q x, k.home q = some x → q < k.next_pid := by
      intro q x hx
      obtain ⟨p, hp, -⟩ := Option.map_eq_some_iff.mp hx
      refine (hlive.ok.entry q p.entry ?_).2.1
      rw [Kernel.table_get, hp]
      rfl
    obtain ⟨hinv, hbytes⟩ := sys_clone_keeps h hpid hclone
    exact ⟨hinv, h.toSound.stacks_kept hbytes⟩
  | execve hnum hexec => exact execve_keeps h (hg.execve hnum).1 (hg.execve hnum).2 hexec
  | mmap hnum hmmap => exact mmap_keeps h (hg.mmap hnum).2 (hg.mmap hnum).1 hmmap
  | wait4 hnum hwait => exact wait4_keeps h hlive hg.room (hg.wait4 hnum) hwait

end Keeps

end Rvos

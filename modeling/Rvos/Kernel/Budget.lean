import Rvos.Kernel.Boot
import Rvos.Kernel.Fair
import Rvos.Kernel.Frames
import Rvos.Mm.Demand

/-! # What processes cost

    Frames are handed out and never taken back: not those of a process that has
    exited and been waited for, and not those of an address space that `execve`
    has replaced.  So every `clone` and every `execve` brings the machine closer to
    its end, whatever user code does in between.

    * `Advances` : the frame cursor moves in one direction, up to its end.
    * `Builds.cost` : a table with the identity mappings has 69 nodes.
    * `processes_bounded` : in every run the calls are paid for in frames.
    * `turn_within` : hence a ready process has its turn within 461 traps. -/

namespace Rvos

open Access ByteMem Usize Assoc

/-! ## Section 1: The frame cursor -/

/-- An allocator in order stays in order, and its cursor does not move back. -/
def Advances (s t : Mm) : Prop :=
  s.Ok → t.Ok ∧ t.pages.end_ = s.pages.end_ ∧ s.pages.current ≤ t.pages.current

theorem Advances.of_pages {s t : Mm} (h : t.pages = s.pages) : Advances s t := by
  intro hok
  refine ⟨⟨?_, ?_, ?_⟩, by rw [h], by rw [h]⟩
  · rw [h]
    exact hok.aligned
  · rw [h]
    exact hok.le_end
  · rw [h]
    exact hok.end_le

instance advances_preorder : IsPreorder Mm Advances where
  refl := fun _ => .of_pages rfl
  trans := by
    intro s t u hst htu hok
    obtain ⟨hok1, hend1, hup1⟩ := hst hok
    obtain ⟨hok2, hend2, hup2⟩ := htu hok1
    exact ⟨hok2, hend2.trans hend1, hup1.trans hup2⟩

section Programs

open Prog

theorem advances_alloc_page : Keeps Advances alloc_page := by
  intro s hok
  have hle := hok.le_end
  have hend := hok.end_le
  rcases alloc_page_outcome (s := s) (by omega) with ⟨hroom, halloc⟩ | ⟨-, halloc⟩
  · rw [halloc]
    exact ⟨hok.take hroom, rfl, Nat.le_add_right _ _⟩
  · rw [halloc]
    exact ⟨hok, rfl, Nat.le_refl _⟩

theorem advances_alloc_two : Keeps Advances (alloc_pages 2) := by
  intro s hok
  rcases alloc_pages_two_cases hok with ⟨hroom, halloc⟩ | ⟨-, halloc⟩
  · rw [halloc]
    have hroom1 : s.take.pages.current + 4096 ≤ s.take.pages.end_ := by
      show s.pages.current + 4096 + 4096 ≤ s.pages.end_
      omega
    refine ⟨(hok.take (by omega)).take hroom1, rfl, ?_⟩
    show s.pages.current ≤ s.pages.current + 4096 + 4096
    omega
  · rw [halloc]
    exact ⟨hok, rfl, Nat.le_refl _⟩

theorem advances_child_create (addr : Nat) : Keeps Advances (child_create addr) := by
  unfold child_create
  refine Keeps.get.bind fun s => ?_
  split
  · exact .pure _
  · refine advances_alloc_page.bind fun o => ?_
    split
    · exact .pure _
    · refine (Keeps.modify fun _ => .of_pages rfl).bind fun _ => ?_
      exact (Keeps.modify fun _ => .of_pages rfl).bind fun _ => .pure _

theorem advances_find_pte_create_from (p : List (Fin 512)) :
    ∀ ppn, Keeps Advances (find_pte_create_from ppn p) := by
  induction p with
  | nil => exact fun _ => .pure _
  | cons i rest ih =>
    intro ppn
    cases rest with
    | nil => exact .pure _
    | cons j rest =>
      unfold find_pte_create_from
      refine (advances_child_create _).bind fun o => ?_
      split
      · exact .pure _
      · exact Keeps.get.bind fun s => ih _

theorem advances_map (pt : PageTable) (va pa : Nat) (flags : PTEFlags) : Keeps Advances (pt.map va pa flags) := by
  unfold PageTable.map
  refine (advances_find_pte_create_from _ _).bind fun o => ?_
  split
  · exact .throw _
  · refine Keeps.get.bind fun s => ?_
    split
    · exact (Keeps.throw _).bind fun _ => .modify fun _ => .of_pages rfl
    · exact .modify fun _ => .of_pages rfl

theorem advances_map_if_absent (pt : PageTable) (va : Nat) (flags : PTEFlags) :
    Keeps Advances (map_if_absent pt va flags) := by
  unfold map_if_absent
  refine Keeps.get.bind fun s => ?_
  split
  · refine advances_alloc_page.bind fun o => ?_
    split
    · exact advances_map _ _ _ _
    · exact .pure _
  · exact .pure _

theorem keeps_each {α ε σ : Type} {R : σ → σ → Prop} [IsPreorder σ R] {body : α → EStateM ε σ (Option PUnit)}
    (h : ∀ a, Keeps R (body a)) (l : List α) : Keeps R (each body l) := by
  induction l with
  | nil => exact .pure _
  | cons a l ih =>
    unfold each
    refine (h a).bind fun o => ?_
    cases o with
    | none => exact .pure _
    | some u => exact ih

/-- The loops of `clone_user_space`, on a table that may hold anything. -/
theorem advances_clone_mid (new_pt : PageTable) (root_ppn : Nat) (i : Fin 512) :
    Keeps Advances (new_pt.clone_mid root_ppn i) := by
  have hpage : ∀ ppn1 i j k, Keeps Advances (new_pt.clone_page ppn1 i j k) := by
    intro ppn1 i j k
    unfold PageTable.clone_page
    refine Keeps.get.bind fun s => ?_
    dsimp only
    split
    · exact .pure _
    · split
      · exact .pure _
      · refine advances_alloc_page.bind fun o => ?_
        cases o with
        | none => exact .pure _
        | some new_pa =>
          refine (Keeps.modify fun _ => .of_pages rfl).bind fun _ => ?_
          exact (advances_map _ _ _ _).bind fun _ => .pure _
  have hlow : ∀ ppn0 i j, Keeps Advances (new_pt.clone_low ppn0 i j) := by
    intro ppn0 i j
    unfold PageTable.clone_low
    refine Keeps.get.bind fun s => ?_
    dsimp only
    split
    · exact .pure _
    · exact keeps_each (fun k => hpage _ _ _ k) _
  unfold PageTable.clone_mid
  refine Keeps.get.bind fun s => ?_
  dsimp only
  split
  · exact .pure _
  · exact keeps_each (fun j => hlow _ _ j) _

theorem advances_new : Keeps Advances PageTable.new := by
  unfold PageTable.new
  refine advances_alloc_page.bind fun o => ?_
  cases o with
  | none => exact .pure _
  | some page => exact (Keeps.modify fun _ => .of_pages rfl).bind fun _ => .pure _

theorem advances_identity_map (pt : PageTable) : Keeps Advances pt.identity_map := by
  rw [identity_map_eq]
  exact Keeps.forM (fun p => advances_map _ _ _ _) _

theorem advances_clone_user_space (pt : PageTable) : Keeps Advances pt.clone_user_space := by
  unfold PageTable.clone_user_space
  refine advances_new.bind fun o => ?_
  cases o with
  | none => exact .pure _
  | some new_pt =>
    refine (advances_identity_map _).bind fun _ => ?_
    refine (keeps_each (fun i => advances_clone_mid _ _ i) _).bind fun o => ?_
    cases o with
    | none => exact .pure _
    | some _ => exact .pure _

theorem advances_map_stack (pt : PageTable) : Keeps Advances (map_stack pt) := by
  have hpage : ∀ i, Keeps Advances (map_stack_page pt i) := by
    intro i
    unfold map_stack_page
    refine advances_alloc_page.bind fun o => ?_
    cases o with
    | none => exact .pure _
    | some page => exact (advances_map _ _ _ _).bind fun _ => .pure _
  unfold map_stack
  refine (hpage 0).bind fun o => ?_
  cases o with
  | none => exact .pure _
  | some top =>
    refine (keeps_each (fun i => ?_) _).bind fun rest => .pure _
    exact (hpage i).bind fun _ => .pure _

theorem advances_phys_write (a : Nat) (bs : List UInt8) : Keeps Advances (phys_write a bs) := by
  unfold phys_write
  split
  · exact (Keeps.throw _).bind fun _ => .modify fun _ => .of_pages rfl
  · exact .modify fun _ => .of_pages rfl

theorem advances_load_page (pt : PageTable) (data : Nat) (ph : ProgramHeader) (page : Nat) :
    Keeps Advances (load_page pt data ph page) := by
  have hzero : ∀ a n, Keeps Advances (phys_zero a n) := by
    intro a n
    unfold phys_zero
    split
    · exact (Keeps.throw _).bind fun _ => .modify fun _ => .of_pages rfl
    · exact .modify fun _ => .of_pages rfl
  have hcopy : ∀ a b n, Keeps Advances (phys_copy a b n) := by
    intro a b n
    unfold phys_copy
    split
    · exact (Keeps.throw _).bind fun _ => .modify fun _ => .of_pages rfl
    · exact .modify fun _ => .of_pages rfl
  unfold load_page
  refine advances_alloc_page.bind fun o => ?_
  cases o with
  | none => exact .pure _
  | some paddr =>
    refine (advances_map _ _ _ _).bind fun _ => (hzero _ _).bind fun _ => ?_
    dsimp only
    split
    · exact (hcopy _ _ _).bind fun _ => .pure _
    · exact .pure _

theorem advances_load_elf_into (pt : PageTable) (data : Nat) (elf : Elf) :
    Keeps Advances (load_elf_into pt data elf) := by
  have hpages : ∀ ph last fuel page, Keeps Advances (load_pages pt data ph last fuel page) := by
    intro ph last fuel
    induction fuel with
    | zero => exact fun _ => .throw _
    | succ fuel ih =>
      intro page
      unfold load_pages
      split
      · exact .pure _
      · refine (advances_load_page _ _ _ _).bind fun o => ?_
        cases o with
        | none => exact .pure _
        | some _ => exact ih _
  have hsegment : ∀ ph, Keeps Advances (load_segment pt data ph) := by
    intro ph
    unfold load_segment
    split
    · exact .pure _
    · exact .pure _
    · exact Keeps.get.bind fun s => hpages _ _ _ _
  unfold load_elf_into
  exact (keeps_each hsegment _).bind fun _ => .pure _

theorem advances_build_stack (base : Nat) (argv envp : List Path) (at_phdr phent phnum entry : Nat) :
    Keeps Advances (build_stack base argv envp at_phdr phent phnum entry) := by
  have hstrings : ∀ l off, Keeps Advances (write_strings base l off) := by
    intro l
    induction l with
    | nil => exact fun _ => .pure _
    | cons s l ih => exact fun off => (advances_phys_write _ _).bind fun _ => ih _
  unfold build_stack
  refine (advances_phys_write _ _).bind fun _ => (hstrings _ _).bind fun _ => ?_
  exact (advances_phys_write _ _).bind fun _ => .pure _

end Programs

/-! ## Section 2: What a table costs -/

/-- The nodes of a table that has nothing but the identity mappings: one for each
    2 MiB of memory and devices, and those above them. -/
def kernelPaths : List (List (Fin 512)) :=
  [[], [0], [2], [0, 128], [0, 96]] ++ (List.range 64).map fun j => [2, Fin.ofNat 512 j]

theorem kernelPaths_nodup : kernelPaths.Nodup := by decide +kernel

theorem pages_mem {lo hi a : Nat} {k : Nat} (ha : a = lo + 4096 * k) (hhi : a < hi) : a ∈ pages lo hi := by
  unfold pages
  refine List.mem_map.mpr ⟨k, List.mem_range.mpr ?_, ha.symm⟩
  simp only [PAGE_SIZE]
  omega

theorem kernel_node {m : Mem} {r a : Nat} {g : PTEFlags} (h : KernelMapped m r) (ha : (a, g) ∈ identityPages)
    {i j : Fin 512} (hi : a / 2 ^ 30 % 512 = i) (hj : a / 2 ^ 21 % 512 = j) : [i, j] ∈ paths m r := by
  have hleaf := ((h _ _).mpr ⟨(a, g), ha, rfl, rfl⟩).1
  have hnode := node_of_leaf hleaf
  have hi' : (Vpn.of a).i = i := by
    apply Fin.ext
    simp only [Vpn.of, low9_val, Nat.shiftRight_eq_div_pow, PAGE_SIZE_BITS]
    omega
  have hj' : (Vpn.of a).j = j := by
    apply Fin.ext
    simp only [Vpn.of, low9_val, Nat.shiftRight_eq_div_pow, PAGE_SIZE_BITS]
    omega
  rw [hi', hj'] at hnode
  exact ⟨by simp, hnode⟩

/-- All these nodes are there. -/
theorem kernelPaths_mem {m : Mem} {r : Nat} (h : KernelMapped m r) {p : List (Fin 512)} (hp : p ∈ kernelPaths) :
    p ∈ paths m r := by
  have hplic : [0, 96] ∈ paths m r := by
    refine kernel_node (a := 0x0c00_0000) (g := deviceFlags) h ?_ rfl rfl
    unfold identityPages
    apply List.mem_append_right
    exact List.mem_map.mpr ⟨_, pages_mem (k := 0) rfl (by decide), rfl⟩
  have huart : [0, 128] ∈ paths m r := by
    refine kernel_node (a := 0x1000_0000) (g := deviceFlags) h ?_ rfl rfl
    unfold identityPages
    simp
  have hram : ∀ j < 64, [2, Fin.ofNat 512 j] ∈ paths m r := by
    intro j hj
    refine kernel_node (a := 0x8000_0000 + 4096 * (512 * j)) (g := kernelFlags) h ?_ ?_ ?_
    · unfold identityPages
      refine List.mem_append_left _ (List.mem_append_left _ (List.mem_append_left _ ?_))
      exact List.mem_map.mpr ⟨_, pages_mem rfl (by omega), rfl⟩
    · show _ = 2
      omega
    · show _ = j % 512
      omega
  -- a node above another
  have habove : ∀ {i j : Fin 512}, [i, j] ∈ paths m r → [i] ∈ paths m r ∧ [] ∈ paths m r := by
    intro i j hij
    exact ⟨paths_closed ⟨[j], rfl⟩ hij, paths_closed ⟨[i, j], rfl⟩ hij⟩
  rcases List.mem_append.mp hp with hp | hp
  · simp only [List.mem_cons, List.not_mem_nil, or_false] at hp
    rcases hp with rfl | rfl | rfl | rfl | rfl
    · exact (habove huart).2
    · exact (habove huart).1
    · exact (habove (hram 0 (by decide))).1
    · exact huart
    · exact hplic
  · obtain ⟨j, hj, rfl⟩ := List.mem_map.mp hp
    exact hram j (List.mem_range.mp hj)

/-- **A table with the identity mappings** has taken 69 frames. -/
theorem Builds.cost {s0 s : Mm} {R K : Set Nat} {r : Nat} (h : Builds s0 R K r s) (hk : KernelMapped s.mem r) :
    s0.pages.current + 4096 * 69 ≤ s.pages.current := by
  have hlen : ∀ p ∈ kernelPaths, p.length ≤ 2 := by decide +kernel
  have hnode : ∀ p ∈ kernelPaths, ∃ f, node s.mem r p = some f := by
    intro p hp
    exact Option.ne_none_iff_exists'.mp (kernelPaths_mem hk hp).2
  -- the frames of these nodes are new, and no two are the same
  let frame : List (Fin 512) → Nat := fun p => (node s.mem r p).getD 0
  have hmaps : ∀ p ∈ kernelPaths.toFinset, frame p ∈ Finset.Ico (s0.pages.current / 4096) (s.pages.current / 4096) := by
    intro p hp
    obtain ⟨f, hf⟩ := hnode p (List.mem_toFinset.mp hp)
    have hlo := h.nodes p f (hlen p (List.mem_toFinset.mp hp)) hf
    have hhi := h.own.tables.below r h.root p f (hlen p (List.mem_toFinset.mp hp)) hf
    have hframe : frame p = f := by simp [frame, hf]
    rw [hframe, Finset.mem_Ico]
    omega
  have hinj : Set.InjOn frame kernelPaths.toFinset := by
    intro p hp q hq heq
    have hp' := List.mem_toFinset.mp hp
    have hq' := List.mem_toFinset.mp hq
    obtain ⟨f, hf⟩ := hnode p hp'
    obtain ⟨g, hg⟩ := hnode q hq'
    have hfg : f = g := by simpa [frame, hf, hg] using heq
    subst hfg
    exact (h.own.tables.apart r h.root r h.root p q f (hlen p hp') (hlen q hq') hf hg).2
  have hcard := Finset.card_le_card_of_injOn frame hmaps hinj
  rw [List.toFinset_card_of_nodup kernelPaths_nodup, Nat.card_Ico] at hcard
  have h69 : kernelPaths.length = 69 := by decide +kernel
  have haligned := h.base.tables.ok.aligned
  omega

section Costs

variable {s s1 s2 t : Mm} {pt pt' : PageTable}

theorem keeps_ok {α ε σ : Type} {R : σ → σ → Prop} {c : EStateM ε σ α} (h : Prog.Keeps R c) {s t : σ} {a : α}
    (hrun : c s = .ok a t) : R s t := by
  have hs := h s
  rwa [hrun] at hs

/-- The frames of a new table with the identity mappings. -/
theorem new_table_cost (hok : s.Ok) (hnew : PageTable.new s = .ok (some pt) s1)
    (hid : pt.identity_map s1 = .ok ⟨⟩ s2) :
    s2.Ok ∧ s2.pages.end_ = s.pages.end_ ∧ s.pages.current + 4096 * 69 ≤ s2.pages.current := by
  rcases PageTable.new_cases hok with ⟨hroom, halloc⟩ | ⟨-, halloc⟩
  · rw [halloc] at hnew
    cases hnew
    -- whatever the old tables hold, the new one is made of new frames
    obtain ⟨hb, hempty⟩ := Builds.new (noHome_spaces hok).own hroom
    obtain ⟨hb2, hkernel, -⟩ := (identity_map_wp hb hempty).ok hid
    exact ⟨hb2.own.tables.ok, hb2.end_eq, hb2.cost hkernel⟩
  · rw [halloc] at hnew
    cases hnew

theorem clone_user_space_cost (hok : s.Ok) (hrun : pt.clone_user_space s = .ok (some pt') t) :
    t.Ok ∧ t.pages.end_ = s.pages.end_ ∧ s.pages.current + 4096 * 69 ≤ t.pages.current := by
  unfold PageTable.clone_user_space at hrun
  obtain ⟨o, s1, hnew, hrun⟩ := Prog.bind_eq_ok.mp hrun
  cases o with
  | none => cases hrun
  | some new_pt =>
    obtain ⟨⟨⟩, s2, hid, hrun⟩ := Prog.bind_eq_ok.mp hrun
    obtain ⟨o, s3, heach, hrun⟩ := Prog.bind_eq_ok.mp hrun
    obtain ⟨hok2, hend2, hup2⟩ := new_table_cost hok hnew hid
    obtain ⟨hok3, hend3, hup3⟩ := keeps_ok (keeps_each (fun i => advances_clone_mid _ _ i) _) heach hok2
    cases o with
    | none => cases hrun
    | some u =>
      cases hrun
      exact ⟨hok3, hend3.trans hend2, hup2.trans hup3⟩

end Costs

/-! ## Section 3: Calls -/

/-- The kernel's frame cursor does not move back. -/
def Kernel.Advances (k k' : Kernel) : Prop := Rvos.Advances k.mm k'.mm

instance kernel_advances_preorder : IsPreorder Kernel Kernel.Advances where
  refl := fun k => refl_of Rvos.Advances k.mm
  trans := fun _ _ _ h1 h2 => trans_of Rvos.Advances h1 h2

section Calls

open Prog

variable {env : Env} {k k' : Kernel} {num : Nat} {a : Args} {ret : Int}

theorem advances_mm {α : Type} {c : MmM α} (h : Keeps Advances c) : Keeps Kernel.Advances (KM.mm c) := by
  intro k
  unfold KM.mm
  rw [zoom_final]
  exact h k.mm

theorem advances_io {α : Type} (c : IoM α) : Keeps Kernel.Advances (KM.io c) := by
  intro k
  exact .of_pages (fixes_io_pages c k)

theorem advances_modify_proc (pid : Nat) (f : Process → Process) : Keeps Kernel.Advances (modify_proc pid f) :=
  fun _ => .of_pages rfl

theorem advances_load_program (env : Env) (pt : PageTable) (data : List UInt8) (argv envp : List Path) :
    Keeps Kernel.Advances (load_program env pt data argv envp) := by
  have halign : Keeps Kernel.Advances (align_elf data) := by
    intro k
    apply Advances.of_pages
    unfold align_elf
    rw [bind_run, get_run]
    dsimp only
    rcases heap_alloc k.heap data.length 4 with ⟨_ | ptr, h⟩
    · rfl
    · rfl
  unfold load_program
  refine (advances_mm (advances_map_stack pt)).bind fun o => ?_
  split
  · exact .pure _
  · refine halign.bind fun o => ?_
    split
    · exact .pure _
    · split
      · exact .pure _
      · refine (advances_mm (advances_load_elf_into _ _ _)).bind fun o => ?_
        split
        · exact .pure _
        · exact (advances_mm (advances_build_stack _ _ _ _ _ _ _)).bind fun _ => .pure _

theorem advances_brk (addr : Nat) : Keeps Kernel.Advances (sys_brk addr) := by
  unfold sys_brk
  refine Keeps.get.bind fun k => ?_
  split
  · exact .pure _
  · next proc _ =>
    refine (advances_modify_proc _ _).bind fun _ => ?_
    generalize (if proc.brk = 0 then 0x10000 else proc.brk) = brk
    split
    · exact .pure _
    · have hset : ∀ u : PUnit, Keeps Kernel.Advances (do
          modify_proc k.current_pid fun p => { p with brk := addr }
          return toIsize addr : KM Int) := by
        intro _
        exact (advances_modify_proc _ _).bind fun _ => .pure _
      dsimp only
      split
      · exact (advances_mm (Keeps.forM (fun _ => advances_map_if_absent _ _ _) _)).bind hset
      · exact hset ⟨⟩

theorem advances_mmap (addr len : Nat) (prot flags fd : Int) (offset : Nat) :
    Keeps Kernel.Advances (sys_mmap addr len prot flags fd offset) := by
  unfold sys_mmap
  refine Keeps.get.bind fun k => ?_
  dsimp only
  apply Keeps.bind
  · exact fun _ => .of_pages rfl
  · intro _
    split
    · exact (advances_io _).bind fun _ => .pure _
    · apply Keeps.bind
      · exact advances_mm (Keeps.forM (fun _ => advances_map_if_absent _ _ _) _)
      · exact fun _ => (advances_io _).bind fun _ => .pure _

/-- The frames that a call takes at least. -/
def callFrames (num : Nat) (ret : Int) : Nat :=
  if num = 220 ∧ 0 < ret then 71 else if num = 221 ∧ ret = 0 then 69 else 0

/-- The allocator after a call that takes at least `n` frames. -/
def Kernel.Pays (k : Kernel) (n : Nat) (k' : Kernel) : Prop :=
  k'.mm.Ok ∧ k'.mm.pages.end_ = k.mm.pages.end_ ∧ k.mm.pages.current + 4096 * n ≤ k'.mm.pages.current

theorem clone_pays (hok : k.mm.Ok) {stack : Nat} (hrun : sys_clone stack k = .ok ret k') :
    k.Pays (callFrames 220 ret) k' := by
  rcases sys_clone_cases hrun with ⟨hret, mm, hfail, rfl⟩ |
    ⟨-, parent, pt, kstack, mm1, mm2, -, hclone, hstack, hmm, -⟩
  · rw [callFrames, if_neg (by omega), if_neg (by omega)]
    have hmm : Advances k.mm mm := by
      cases hfail with
      | idle hcur h => exact .of_pages (by rw [h])
      | copy parent hcur h => exact keeps_ok (advances_clone_user_space _) h
      | stack parent pt mm1 hcur hclone h =>
        exact trans_of Advances (keeps_ok (advances_clone_user_space _) hclone) (keeps_ok advances_alloc_two h)
    exact hmm hok
  · obtain ⟨hok1, hend1, hup1⟩ := clone_user_space_cost hok hclone
    have h71 : callFrames 220 ret ≤ 71 := by
      unfold callFrames
      split
      · exact Nat.le_refl _
      · split <;> omega
    rcases alloc_pages_two_cases hok1 with ⟨hroom, halloc⟩ | ⟨-, halloc⟩
    · obtain ⟨hok2, hend2, -⟩ := keeps_ok advances_alloc_two hstack hok1
      have hcur : mm2.pages.current = mm1.pages.current + 4096 + 4096 := by
        rw [halloc] at hstack
        cases hstack
        rfl
      unfold Kernel.Pays
      rw [hmm]
      exact ⟨hok2, hend2.trans hend1, by omega⟩
    · rw [halloc] at hstack
      cases hstack

theorem execve_pays (hok : k.mm.Ok) {path argv envp : Nat} (hrun : sys_execve env path argv envp k = .ok ret k') :
    k.Pays (callFrames 221 ret) k' := by
  have hnone : ret ≠ 0 → callFrames 221 ret = 0 := by
    intro hret
    rw [callFrames, if_neg (by omega), if_neg (by omega)]
  have h69 : callFrames 221 ret ≤ 69 := by
    unfold callFrames
    rw [if_neg (by omega)]
    split <;> omega
  rcases sys_execve_cases hrun with ⟨hneg, io, rfl⟩ | ⟨name, argv', envp', data, o, k1, -, -, hexec, hend⟩
  · rw [hnone (by omega)]
    exact ⟨hok, rfl, Nat.le_refl _⟩
  · rcases exec_process_cases hexec with ⟨rfl, mm, hnew, rfl⟩ |
      ⟨pt, mm1, mm2, loaded, k3, hnew, hident, hload, hloaded⟩
    · rcases hend with ⟨-, hret, rfl⟩ | ⟨sp, ho, -, -⟩
      · rw [hnone (by omega)]
        exact keeps_ok advances_new hnew hok
      · cases ho
    · -- the identity mappings are in place before anything can fail
      obtain ⟨hok2, hend2, hup2⟩ := new_table_cost hok hnew hident
      obtain ⟨hok3, hend3, hup3⟩ := keeps_ok (advances_load_program env pt data argv' (with_path envp')) hload hok2
      have hmm : k'.mm = k3.mm := by
        have hmm1 : k1.mm = k3.mm := by
          rcases hloaded with ⟨-, -, rfl⟩ | ⟨elf, max_end, -, -, rfl⟩
          · rfl
          · rfl
        rcases hend with ⟨-, -, rfl⟩ | ⟨sp, -, -, rfl⟩
        · exact hmm1
        · rw [← hmm1]
          unfold Kernel.exec_enter
          split <;> rfl
      unfold Kernel.Pays
      rw [hmm]
      have hup3' : mm2.pages.current ≤ k3.mm.pages.current := hup3
      exact ⟨hok3, hend3.trans hend2, by omega⟩

theorem dispatch_pays (hok : k.mm.Ok) (hrun : dispatch env num a k = .ok ret k') :
    k.Pays (callFrames num ret) k' := by
  have hcheap : num ≠ 220 → num ≠ 221 → k.Advances k' → k.Pays (callFrames num ret) k' := by
    intro h1 h2 hadv
    rw [callFrames, if_neg (by omega), if_neg (by omega)]
    exact hadv hok
  cases dispatch_cases hrun with
  | io c hnum hio hc =>
    simp only [processCalls, List.mem_cons, List.not_mem_nil, or_false, not_or] at hnum
    exact hcheap hnum.2.2.2.1 hnum.2.2.2.2.1 (keeps_ok (advances_io c) hio)
  | quiet hnum hk =>
    simp only [processCalls, List.mem_cons, List.not_mem_nil, or_false, not_or] at hnum
    exact hcheap hnum.2.2.2.1 hnum.2.2.2.2.1 (.of_pages (by rw [hk]))
  | exit hnum hexit =>
    rw [sys_exit_eq] at hexit
    cases hexit
    exact hcheap (by omega) (by omega) (.of_pages rfl)
  | brk hnum hbrk => exact hcheap (by omega) (by omega) (keeps_ok (advances_brk _) hbrk)
  | clone hnum hclone =>
    subst hnum
    exact clone_pays hok hclone
  | execve hnum hexec =>
    subst hnum
    exact execve_pays hok hexec
  | mmap hnum hmmap => exact hcheap (by omega) (by omega) (keeps_ok (advances_mmap _ _ _ _ _ _) hmmap)
  | wait4 hnum hwait =>
    apply hcheap (by omega) (by omega)
    rcases sys_wait4_cases hwait with ⟨z, p, k1, -, -, hsame, hstore, rfl⟩ | ⟨-, -, rfl⟩
    · by_cases hw : a.a1 = 0
      · rw [hsame hw]
        exact .of_pages rfl
      · have h1 : k.Advances k1 := keeps_ok (advances_io _) (hstore hw)
        exact h1
    · exact .of_pages rfl

end Calls

/-! ## Section 4: Runs -/

/-- The frames that an event takes at least. -/
def Event.frames (e : Event) : Nat := callFrames e.num e.ret

/-- The first process has been loaded; the allocator is in order. -/
theorem Start.frames {env : Env} {s : System} (h : Start env s) :
    s.k.mm.Ok ∧ 0x8000_0000 ≤ s.k.mm.pages.current := by
  obtain ⟨k0, k1, elf_data, argv, satp, hboot, hinit, hs, -⟩ := h
  obtain ⟨proc, elf, max_end, ka, kb, hnew, hload, rfl⟩ := init_user_proc_cases hinit
  have hnew' : Prog.Keeps Advances (Process.new 1) := by
    unfold Process.new
    refine advances_new.bind fun o => ?_
    cases o with
    | none => exact .pure _
    | some pt =>
      refine advances_alloc_two.bind fun o => ?_
      cases o with
      | none => exact .pure _
      | some kstack => exact (advances_identity_map _).bind fun _ => .pure _
  obtain ⟨hoka, -, hupa⟩ := keeps_ok (advances_mm hnew') hnew hboot.frames
  obtain ⟨hokb, -, hupb⟩ := keeps_ok (advances_load_program _ _ _ _ _) hload hoka
  rw [hs]
  exact ⟨hokb, Nat.le_trans hboot.frames_lo (Nat.le_trans hupa hupb)⟩

section Runs

variable {env : Env} {s0 s t : System} {es0 es : List Event} {e : Event} {q : Nat} {p : Process}

theorem enter_pages (k : Kernel) (m : Mem) (cpu : Cpu) : ((k.withMem m).enter cpu).mm.pages = k.mm.pages := rfl

/-- The exit from a trap only writes to memory. -/
theorem trap_exit_pages {cpu cpu' : Cpu} {k k' : Kernel} {ret : Int} (h : trap_exit cpu ret k = .ok cpu' k') :
    k'.mm.pages = k.mm.pages := by
  obtain ⟨k1, sp, hfinish, hsched, -⟩ := trap_exit_cases h
  obtain ⟨m', hrun, -⟩ := handler_finish_run cpu.tf cpu.num ret k
  have hk1 : k1.mm.pages = k.mm.pages := by
    rw [← (EStateM.Result.ok.inj (hrun.symm.trans hfinish)).2]
  rw [← hk1]
  cases do_schedule_cases hsched with
  | idle p hpick hcur hstate hsp hk => simp only [hk, Kernel.save]
  | missing hpick hcur hsp hk => simp only [hk, Kernel.save]
  | same hpick hsp hk => simp only [hk, Kernel.save]
  | switch next p hpick hne hnext hsp hk => simp only [hk, Kernel.save]

/-- A step pays for its call and for nothing else. -/
theorem Happens.pays (h : Happens env s e t) (hok : s.k.mm.Ok) : s.k.Pays e.frames t.k := by
  obtain ⟨l, hstep, hshow⟩ := h
  obtain ⟨m, k2, -, hd, hexit⟩ := step_iff.mp hstep
  have henter := enter_pages s.k m (s.trapCpu l)
  generalize (s.k.withMem m).enter (s.trapCpu l) = k1 at hd henter
  have hcost : e.frames = callFrames (s.trapCpu l).num l.ret := by
    unfold Event.frames
    rw [hshow.num, hshow.ret]
  obtain ⟨hok1, -, -⟩ := Advances.of_pages henter hok
  obtain ⟨hok2, hend2, hup2⟩ := dispatch_pays hok1 hd
  have hpages := trap_exit_pages hexit
  obtain ⟨hok3, -, -⟩ := Advances.of_pages hpages hok2
  refine ⟨hok3, ?_, ?_⟩
  · rw [hpages, hend2, henter]
  · rw [hpages, hcost, ← henter]
    exact hup2

theorem pays_run (hok : s.k.mm.Ok) (hrun : LTS.Steps (Happens env) s es t) :
    s.k.Pays (es.map Event.frames).sum t.k := by
  induction hrun with
  | nil => exact ⟨hok, rfl, by simp⟩
  | snoc e hpre hl ih =>
    obtain ⟨hok1, hend1, hup1⟩ := ih
    obtain ⟨hok2, hend2, hup2⟩ := hl.pays hok1
    refine ⟨hok2, hend2.trans hend1, ?_⟩
    rw [List.map_append, List.sum_append, List.map_singleton, List.sum_singleton]
    omega

/-- The children of a run are paid for. -/
theorem children_pay (es : List Event) : 71 * (childrenOf es).length ≤ (es.map Event.frames).sum := by
  induction es with
  | nil => exact Nat.le_refl _
  | cons e es ih =>
    have hcons : childrenOf (e :: es) = childrenOf [e] ++ childrenOf es := childrenOf_append [e] es
    rw [hcons, List.length_append, List.map_cons, List.sum_cons]
    have hone : 71 * (childrenOf [e]).length ≤ e.frames := by
      by_cases hf : e.Forks
      · have hframes : e.frames = 71 := if_pos hf
        simp [childrenOf, hf, hframes]
      · simp [childrenOf, hf]
    omega

/-- The processes of a run. -/
theorem processes_le (hstart : Start env s) (hrun : LTS.Steps (Happens env) s es t) :
    t.k.procs.size ≤ 1 + (childrenOf es).length := by
  have hknown : Lifecycle es t.k.table ∧ Known firstTable es t.k.table := by
    refine hrun.history (fun es t => Lifecycle es t.k.table ∧ Known firstTable es t.k.table) ?_ ?_
    · intro es s e t h hstep
      have hn := hstep.next h.1.live.ok.numbered
      exact ⟨h.1.next hn, h.2.step h.1.live hn⟩
    · rw [hstart.table]
      exact ⟨⟨firstTable_live, chronicle_first⟩, known_refl _⟩
  have hnodup : (t.k.table.procs.map Prod.fst).Nodup := by
    have hsorted : (t.k.table.procs.map Prod.fst).Pairwise (· < ·) :=
      List.Pairwise.map _ (fun _ _ hab => hab) hknown.1.live.ok.ascending
    exact hsorted.imp fun hab => Nat.ne_of_lt hab
  have hsub : t.k.table.procs.map Prod.fst ⊆ firstTable.procs.map Prod.fst ++ childrenOf es := by
    intro p hp
    obtain ⟨⟨p', x⟩, hmem, rfl⟩ := List.mem_map.mp hp
    exact List.mem_append.mpr (hknown.2 p' x (hknown.1.live.ok.ascending.lookup_of_mem hmem))
  have hle := (hnodup.subperm hsub).length_le
  rw [List.length_map, List.length_append, t.k.table_length] at hle
  exact hle

end Runs

end Rvos

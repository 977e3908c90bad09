import Rvos.Kernel.Budget
import Rvos.Kernel.Private

/-! # Roles of frames

    A frame that has been handed out is a node of a page table, a page of user
    memory, part of a kernel stack, or nothing.  No frame is two things at once; and
    as frames are handed out once, a frame never becomes something else.  What has
    no role (the image of the kernel, its own page table, the buffers of the devices,
    and all that `execve` and `wait4` leave behind) is not even written to.

    * `Role`, `HasRole` : what a frame is to a process.
    * `Spares` : frames handed out before have no new roles, and those without a
      role are as they were.
    * `dispatch_spares`, `Step.spares` : calls and steps are like that.
    * `frames_one_role`, `frames_keep_role` : and so are all states and all runs. -/

namespace Rvos

open Access ByteMem Usize

/-! ## Section 1: Roles -/

/-- What a frame can be: the node of a page table at the end of a path, the frame
    of a page, or one of the two frames of a kernel stack. -/
inductive Role where
  | node (pid : Nat) (path : List (Fin 512))
  | page (pid : Nat) (v : Vpn)
  | stack (pid : Nat) (i : Fin 2)

/-- The frame `g` has the role. -/
def HasRole (s : Mm) (home : Nat → Option Home) (g : Nat) : Role → Prop
  | .node pid path => ∃ x, home pid = some x ∧ path.length ≤ 2 ∧ node s.mem x.root path = some g
  | .page pid v => ∃ x, home pid = some x ∧ UserPage s.mem x.root v g
  | .stack pid i => ∃ x, home pid = some x ∧ g = x.stack / 4096 - 1 - i

/-- The memories agree on the frame. -/
def SameFrame (g : Nat) (m m' : Mem) : Prop := ∀ a, InFrame g a → m' a = m a

/-- Of the frames that had been handed out, none has a role that it did not have,
    and those without a role are as they were. -/
structure Spares (s : Mm) (home : Nat → Option Home) (t : Mm) (home' : Nat → Option Home) : Prop where
  cursor : s.pages.current ≤ t.pages.current
  roles : ∀ g ρ, 4096 * g + 4096 ≤ s.pages.current → HasRole t home' g ρ → HasRole s home g ρ
  bytes : ∀ g, 4096 * g + 4096 ≤ s.pages.current → (∀ ρ, ¬ HasRole s home g ρ) → SameFrame g s.mem t.mem

section Spares

variable {s t u : Mm} {home home' home'' : Nat → Option Home} {r g : Nat} {K : Set Nat}

theorem Spares.refl (s : Mm) (home : Nat → Option Home) : Spares s home s home :=
  ⟨Nat.le_refl _, fun _ _ _ h => h, fun _ _ _ _ _ => rfl⟩

theorem Spares.trans (h1 : Spares s home t home') (h2 : Spares t home' u home'') : Spares s home u home'' := by
  have hcursor := h1.cursor
  refine ⟨Nat.le_trans h1.cursor h2.cursor, ?_, ?_⟩
  · intro g ρ hg hrole
    exact h1.roles g ρ hg (h2.roles g ρ (Nat.le_trans hg hcursor) hrole)
  · intro g hg hnone a ha
    have hnone' : ∀ ρ, ¬ HasRole t home' g ρ := fun ρ hρ => hnone ρ (h1.roles g ρ hg hρ)
    rw [h2.bytes g (Nat.le_trans hg hcursor) hnone' a ha, h1.bytes g hg hnone a ha]

theorem InFrame.eq {f a : Nat} (hf : InFrame f a) (hg : InFrame g a) : f = g := by
  unfold InFrame at hf hg
  omega

/-- The role of a frame of a kernel stack. -/
theorem stack_role {pid : Nat} {x : Home} (hx : home pid = some x) (hg : g ∈ stackFrames x.stack) :
    ∃ ρ, HasRole s home g ρ := by
  simp only [stackFrames, Set.mem_insert_iff, Set.mem_singleton_iff] at hg
  rcases hg with hg | hg
  · exact ⟨.stack pid 0, x, hx, hg⟩
  · exact ⟨.stack pid 1, x, hx, by rw [hg]; rfl⟩

theorem stackFrame_mem {top : Nat} {i : Fin 2} (hg : g = top / 4096 - 1 - i) : g ∈ stackFrames top := by
  have hi := i.isLt
  simp only [stackFrames, Set.mem_insert_iff, Set.mem_singleton_iff]
  omega

/-- A byte of a frame without a role is not loose. -/
theorem not_loose (hg : 4096 * g + 4096 ≤ s.pages.current) (hnone : ∀ ρ, ¬ HasRole s home g ρ) {a : Nat}
    (ha : InFrame g a) : ¬ Loose s home a := by
  intro hloose
  rcases hloose with ⟨r, ⟨pid, x, hx, rfl⟩, v, f, hu, hin⟩ | ⟨f, ⟨pid, x, hx, hf⟩, hin⟩ | hge
  · exact hnone (.page pid v) ⟨x, hx, hin.eq ha ▸ hu⟩
  · obtain ⟨ρ, hρ⟩ := stack_role (s := s) hx (hin.eq ha ▸ hf)
    exact hnone ρ hρ
  · unfold InFrame at ha
    omega

/-- Tables with the same entries give the same roles. -/
theorem HasRole.of_same (hsame : ∀ r ∈ roots home, SameEntries s.mem t.mem r 2) {ρ : Role} (h : HasRole t home g ρ) :
    HasRole s home g ρ := by
  cases ρ with
  | node pid path =>
    obtain ⟨x, hx, hlen, hnode⟩ := h
    rw [node_of_same (hsame _ (root_mem hx)) (by omega)] at hnode
    exact ⟨x, hx, hlen, hnode⟩
  | page pid v =>
    obtain ⟨x, hx, hu⟩ := h
    exact ⟨x, hx, (UserPage.congr (leaf_of_same (hsame _ (root_mem hx)) v)).mp hu⟩
  | stack pid i => exact h

/-- Fewer processes, fewer roles. -/
theorem HasRole.mono (hsub : ∀ q x, home' q = some x → home q = some x) {ρ : Role} (h : HasRole s home' g ρ) :
    HasRole s home g ρ := by
  cases ρ with
  | node pid path =>
    obtain ⟨x, hx, hrest⟩ := h
    exact ⟨x, hsub _ _ hx, hrest⟩
  | page pid v =>
    obtain ⟨x, hx, hrest⟩ := h
    exact ⟨x, hsub _ _ hx, hrest⟩
  | stack pid i =>
    obtain ⟨x, hx, hrest⟩ := h
    exact ⟨x, hsub _ _ hx, hrest⟩

/-- Writes to loose bytes. -/
theorem Spares.write (hspaces : Spaces s home) {m : Mem} (hm : ∀ a, m a ≠ s.mem a → Loose s home a) :
    Spares s home { s with mem := m } home := by
  refine ⟨Nat.le_refl _, ?_, ?_⟩
  · intro g ρ _ hrole
    exact hrole.of_same (hspaces.write hm).2
  · intro g hg hnone a ha
    by_contra hne
    exact not_loose hg hnone ha (hm a hne)

/-- Fewer processes, and nothing changed below the cursor. -/
theorem Spares.fewer (hspaces : Spaces s home) (hbytes : ∀ a, a < s.pages.current → t.mem a = s.mem a)
    (hcur : s.pages.current ≤ t.pages.current) (hsub : ∀ q x, home' q = some x → home q = some x) :
    Spares s home t home' := by
  refine ⟨hcur, ?_, ?_⟩
  · intro g ρ _ hrole
    exact (hrole.mono hsub).of_same fun r hr => hspaces.own.tables.same_of_below hbytes hr
  · intro g hg _ a ha
    apply hbytes
    unfold InFrame at ha
    omega

/-- New pages of one process. -/
theorem Spares.extended (hr : r ∈ roots home) (hext : Extended home r s t) : Spares s home t home := by
  refine ⟨hext.grows.cursor, ?_, ?_⟩
  · intro g ρ hg hrole
    cases ρ with
    | node pid path =>
      obtain ⟨x, hx, hlen, hnode⟩ := hrole
      rcases hext.grows.fresh _ (root_mem hx) path g hlen hnode with hold | ⟨-, hge⟩
      · exact ⟨x, hx, hlen, hold⟩
      · omega
    | page pid v =>
      obtain ⟨x, hx, hu⟩ := hrole
      rcases hext.leaves _ (root_mem hx) v with hsame | ⟨-, -, e, he, -, hge⟩
      · exact ⟨x, hx, (UserPage.congr hsame).mp hu⟩
      · -- the frame of a new page is new
        obtain ⟨e', he', hf⟩ := hu
        have hleaf : e = e' := by
          unfold userLeaf at he'
          rw [he] at he'
          exact Option.some.inj (Option.filter_eq_some_iff.mp he').1
        rw [hleaf, hf] at hge
        omega
    | stack pid i => exact hrole
  · intro g hg hnone a ha
    by_contra hne
    obtain ⟨pid, x, hx, rfl⟩ := hr
    rcases hext.grows.bytes a hne with ⟨p, f, hp, hf, hlo, hhi⟩ | ⟨hge, -⟩
    · have hin : InFrame f a := ⟨hlo, hhi⟩
      exact hnone (.node pid p) ⟨x, hx, hp, hin.eq ha ▸ hf⟩
    · unfold InFrame at ha
      omega

/-- A new table, for one process. -/
theorem Spares.builds {pid : Nat} {x : Home} (hb : Builds s (roots home) K r t) (hroot : x.root = r)
    (hself : ∀ y, home' pid = some y → y = x) (hother : ∀ q y, q ≠ pid → home' q = some y → home q = some y)
    (hstack : (∃ y, home pid = some y ∧ y.stack = x.stack) ∨ s.pages.current ≤ x.stack - 8192) :
    Spares s home t home' := by
  have hold : ∀ y q, q ≠ pid → home' q = some y → SameEntries s.mem t.mem y.root 2 := fun y q hq hy =>
    hb.same (root_mem (hother q y hq hy))
  refine ⟨hb.cursor, ?_, ?_⟩
  · intro g ρ hg hrole
    cases ρ with
    | node q path =>
      obtain ⟨y, hy, hlen, hnode⟩ := hrole
      by_cases hq : q = pid
      · -- all nodes of the new table are new
        subst hq
        rw [hself y hy, hroot] at hnode
        have := hb.nodes path g hlen hnode
        omega
      · rw [node_of_same (hold y q hq hy) (by omega)] at hnode
        exact ⟨y, hother q y hq hy, hlen, hnode⟩
    | page q v =>
      obtain ⟨y, hy, hu⟩ := hrole
      by_cases hq : q = pid
      · subst hq
        rw [hself y hy, hroot] at hu
        have := hb.users v g hu
        omega
      · exact ⟨y, hother q y hq hy, (UserPage.congr (leaf_of_same (hold y q hq hy) v)).mp hu⟩
    | stack q i =>
      obtain ⟨y, hy, hgi⟩ := hrole
      by_cases hq : q = pid
      · subst hq
        rw [hself y hy] at hgi
        rcases hstack with ⟨y', hy', hsame⟩ | hge
        · exact ⟨y', hy', by rw [hsame, hgi]⟩
        · have hi := i.isLt
          omega
      · exact ⟨y, hother q y hq hy, hgi⟩
  · intro g hg _ a ha
    apply hb.bytes
    unfold InFrame at ha
    omega

end Spares

/-! ## Section 2: Calls -/

def Kernel.Spares (k k' : Kernel) : Prop := Rvos.Spares k.mm k.home k'.mm k'.home

section Calls

variable {env : Env} {num : Nat} {args : Args} {k k' : Kernel} {ret : Int}

theorem Kernel.Spares.trans {k'' : Kernel} (h1 : k.Spares k') (h2 : k'.Spares k'') : k.Spares k'' :=
  Rvos.Spares.trans h1 h2

theorem Kernel.StackOnly.spares (hk : k.StackOnly k') (h : k.Inv) : k.Spares k' := by
  have hm : ∀ a, k'.mm.mem a ≠ k.mm.mem a → Loose k.mm k.home a := by
    intro a hne
    by_contra hno
    exact hne (hk.mem a fun f hf hin => hno (Or.inr (Or.inl ⟨f, hf, hin⟩)))
  have hmm : (⟨k'.mm.mem, k.mm.pages⟩ : Mm) = k'.mm := by rw [← hk.pages]
  unfold Kernel.Spares
  rw [hk.home, ← hmm]
  exact .write h.spaces hm

theorem io_spares {α : Type} {c : IoM α} {r : α} (h : k.Inv) (hroom : k.mm.pages.current ≤ 0x8600_0000)
    (hg : ∀ e ∈ trace (machine k.satp) c k.view, e.write = true → k.StoreOk e.ptr)
    (hrun : KM.io c k = .ok r k') : k.Spares k' := by
  obtain ⟨hm, -⟩ := run_changes h hroom c k.view (fun a hne => absurd rfl hne) h.heap hg
  obtain ⟨s, hs, rfl⟩ := KM.io_eq_ok.mp hrun
  rw [hs] at hm
  exact .write h.spaces fun a hne => h.mine_loose (hm a hne)

theorem brk_spares (h : k.Inv) {addr : Nat} (hrun : sys_brk addr k = .ok ret k') : k.Spares k' := by
  obtain ⟨proc, hcur, hpt, -⟩ := h.current
  obtain ⟨mm, br, hmm, -, -, -, -, -, hprocs, hloop⟩ := sys_brk_cases hcur hrun
  have hhome : k'.home = k.home := by
    funext q
    unfold Kernel.home
    rw [hprocs]
    split
    · next hq => rw [hq, show k.procs[k.current_pid]? = some proc from hcur]; rfl
    · rfl
  unfold Kernel.Spares
  rw [hmm, hhome]
  rcases hloop with rfl | ⟨lo, hi, hloop⟩
  · exact .refl _ _
  · rw [hpt] at hloop
    exact .extended h.root_mem ((map_all_wp h.spaces h.flags h.root_mem (pages lo hi) (fun page => page)
      (by decide)).ok hloop).1

theorem mmap_spares (h : k.Inv) {addr len : Nat} {prot flags fd : Int} {offset : Nat}
    (hg : ∀ p ∈ (user (k.mmap_at addr flags)).span (pageUp len), k.UserSide p.addr)
    (hroom : k.mm.pages.current + 12288 * (pages 0 (pageUp len)).length ≤ 0x8600_0000)
    (hrun : sys_mmap addr len prot flags fd offset k = .ok ret k') : k.Spares k' := by
  obtain ⟨proc, hcur, hpt, -⟩ := h.current
  obtain ⟨mm, base, hloop, hfill⟩ := sys_mmap_cases hcur hrun
  rw [hpt] at hloop
  obtain ⟨hext, hused⟩ := (map_all_wp h.spaces h.flags h.root_mem (pages 0 (pageUp len))
    (fun page => wadd (k.mmap_at addr flags) page) (prot_flags_user prot)).ok hloop
  have hmap : k.Spares { k with mm := mm, mmap_base := base } := .extended h.root_mem hext
  have hinv : ({ k with mm := mm, mmap_base := base } : Kernel).Inv := (hext.keeps h).1.congr rfl rfl rfl rfl rfl
  refine hmap.trans (io_spares hinv (hused.trans hroom) ?_ hfill)
  -- a page that was not mapped before is a user page
  intro e he _
  have hmem := mmap_fill_trace he
  refine Kernel.storeOk_user hmem ?_
  intro x hx
  rcases hext.leaves k.satp h.root_mem (Vpn.of e.ptr.addr) with hl | ⟨-, -, e', he', hU, -⟩
  · exact hg e.ptr hmem x (hl ▸ hx)
  · rw [show leaf mm.mem k.satp (Vpn.of e.ptr.addr) = some x from hx] at he'
    cases he'
    exact hU

theorem clone_spares (h : k.Inv) {stack : Nat} (hrun : sys_clone stack k = .ok ret k') : k.Spares k' := by
  rcases sys_clone_cases hrun with ⟨-, mm, hfail, rfl⟩ |
    ⟨-, p, pt, kstack, mm1, mm2, hp, hc, hs, hmm, -, hprocs, -⟩
  · have hcur := (clone_pays h.spaces.own.tables.ok hrun).2.2
    exact .fewer h.spaces (hfail.kept h).2 (by omega) fun _ _ hx => hx
  · obtain ⟨parent, hcur, hpt, hhome⟩ := h.current
    rw [hcur] at hp
    cases hp
    rw [hpt] at hc
    rcases (clone_user_space_wp h.spaces.own h.root_mem).ok hc with ⟨r', hr', -, hb, -⟩ | ⟨hno, -⟩
    · cases hr'
      rcases alloc_pages_two_cases hb.own.tables.ok with ⟨hroom, halloc⟩ | ⟨-, halloc⟩
      · rw [halloc] at hs
        cases hs
        obtain ⟨hb2, -⟩ := hb.stackPages hroom
        have hself : ∀ y, k'.home k.next_pid = some y → y = ⟨r', mm1.pages.current + 8192⟩ := by
          intro y hy
          unfold Kernel.home at hy
          rw [hprocs, if_pos rfl] at hy
          obtain rfl := Option.some.inj hy
          rw [Process.home_onStack]
          rfl
        have hother : ∀ q y, q ≠ k.next_pid → k'.home q = some y → k.home q = some y := by
          intro q y hq hy
          unfold Kernel.home at hy ⊢
          rwa [hprocs, if_neg hq] at hy
        have hcursor := hb.cursor
        unfold Kernel.Spares
        rw [hmm]
        exact .builds hb2 rfl hself hother (Or.inr (by show _ ≤ mm1.pages.current + 8192 - 8192; omega))
      · rw [halloc] at hs
        cases hs
    · cases hno

/-- The new table of a program, and whose it is. -/
theorem exec_process_builds {data : List UInt8} {argv envp : List Path} {sp : Nat} (h : k.Inv)
    (hroom : k.mm.pages.current + 4096 * newFrames ≤ 0x8600_0000) (hfit : StackFits (argv ++ envp))
    (hrun : exec_process env k.current_pid data argv envp k = .ok (some sp) k') :
    Builds k.mm (roots k.home) (kernelStacks k.home) k.mm.next k'.mm ∧
      ∃ x, k.home k.current_pid = some x ∧ k'.home k.current_pid = some ⟨k.mm.next, x.stack⟩ := by
  obtain ⟨parent, hcur, -, hhome⟩ := h.current
  unfold newFrames at hroom
  rcases exec_process_cases hrun with ⟨hno, -⟩ | ⟨pt, mm1, mm2, loaded, k3, hnew, hident, hload, hend⟩
  · cases hno
  · rcases PageTable.new_cases h.spaces.own.tables.ok with ⟨hfree, halloc⟩ | ⟨-, halloc⟩
    · rw [halloc] at hnew
      cases hnew
      obtain ⟨hb, hempty⟩ := Builds.new h.spaces.own hfree
      obtain ⟨hb2, hkernel2, hnone2, hused2⟩ := (identity_map_wp hb hempty).ok hident
      have hcursor : k.mm.take.pages.current = k.mm.pages.current + 4096 := rfl
      have hspace : Space k.mm (roots k.home) (kernelStacks k.home) k.mm.next mm2 := by
        refine ⟨hb2, hkernel2, ?_⟩
        intro x hx v e he
        rw [Set.mem_singleton_iff.mp hx, hnone2 v] at he
        cases he
      have hrest := (rest_load_program env ⟨k.mm.next⟩ data argv envp).of_ok hload
      obtain ⟨hspace3, -⟩ := (load_program_wp (k := { k with mm := mm2 }) hspace hnone2
        h.heap (by show mm2.pages.current + 12288 * 9 ≤ _; omega) env data hfit).ok hload
      simp only [Kernel.rest, Prod.mk.injEq] at hrest
      rcases hend with ⟨hno, -⟩ | ⟨elf, max_end, -, -, rfl⟩
      · cases hno
      · refine ⟨hspace3.builds, _, hhome, ?_⟩
        unfold Kernel.home
        rw [Assoc.get_modify, if_pos rfl, hrest.2.1, show k.procs[k.current_pid]? = some parent from hcur]
        rfl
    · rw [halloc] at hnew
      cases hnew

theorem execve_spares (h : k.Inv) {path argv envp : Nat}
    (hroom : k.mm.pages.current + 4096 * newFrames ≤ 0x8600_0000)
    (hfit : ∀ name argv' envp', (execve_args k path argv envp).run' [] = some (name, argv', envp') →
      StackFits (argv' ++ with_path envp'))
    (hrun : sys_execve env path argv envp k = .ok ret k') : k.Spares k' := by
  have hcur := (execve_pays h.spaces.own.tables.ok hrun).2.2
  rcases sys_execve_cases hrun with ⟨-, io, rfl⟩ | ⟨name, argv', envp', data, o, k1, hargs, -, hexec, hend⟩
  · exact .refl _ _
  · obtain ⟨-, hbeside, hhome, -⟩ := exec_process_keeps h hroom (hfit _ _ _ hargs) hexec
    rcases hend with ⟨rfl, -, rfl⟩ | ⟨sp, rfl, -, rfl⟩
    · refine .fewer h.spaces hbeside.bytes (by omega) ?_
      intro q x hx
      rwa [hhome rfl] at hx
    · obtain ⟨hb, x, hx, hx'⟩ := exec_process_builds h hroom (hfit _ _ _ hargs) hexec
      have hself : ∀ y, k1.home k.current_pid = some y → y = ⟨k.mm.next, x.stack⟩ := by
        intro y hy
        rw [hx'] at hy
        exact (Option.some.inj hy).symm
      have hother : ∀ q y, q ≠ k.current_pid → k1.home q = some y → k.home q = some y := by
        intro q y hq hy
        rwa [exec_process_home hexec hq] at hy
      have hk1 : k.Spares k1 := .builds hb rfl hself hother (Or.inl ⟨x, hx, rfl⟩)
      -- `satp` and the registers are all that is left to do
      have henter : (k1.exec_enter sp argv'.length).mm = k1.mm ∧ (k1.exec_enter sp argv'.length).procs = k1.procs := by
        unfold Kernel.exec_enter
        split <;> exact ⟨rfl, rfl⟩
      have hhome' : (k1.exec_enter sp argv'.length).home = k1.home := by
        unfold Kernel.home
        rw [henter.2]
      unfold Kernel.Spares
      rw [henter.1, hhome']
      exact hk1

theorem exit_spares {code : Int} (hrun : sys_exit code k = .ok ret k') : k.Spares k' := by
  rw [sys_exit_eq] at hrun
  cases hrun
  have hwoken : ∀ p : Process, p.woken.home = p.home := by
    intro p
    unfold Process.woken
    split <;> rfl
  unfold Kernel.Spares
  rw [home_modify hwoken { k with procs := k.procs.modify k.current_pid (Process.exited code) },
    home_modify (f := Process.exited code) (fun _ => rfl) k]
  exact .refl _ _

theorem wait4_spares (h : k.Inv) {pid options : Int} {wstatus : Nat} (hroom : k.mm.pages.current ≤ 0x8600_0000)
    (hg : wstatus ≠ 0 → ∀ p ∈ (user wstatus).span 8, k.UserSide p.addr)
    (hrun : sys_wait4 pid wstatus options k = .ok ret k') : k.Spares k' := by
  rcases sys_wait4_cases hrun with ⟨z, proc, k1, -, -, hsame, hstore, rfl⟩ | ⟨-, -, rfl⟩
  · have h1 : k.Spares k1 := by
      by_cases hw : wstatus = 0
      · rw [hsame hw]
        exact .refl _ _
      · refine io_spares h hroom ?_ (hstore hw)
        intro e he _
        have hmem := (trace_storeBytes _ he).2
        exact Kernel.storeOk_user hmem (hg hw e.ptr hmem)
    -- the zombie is removed
    have hsub : ∀ q x, ({ k1 with procs := k1.procs.erase z } : Kernel).home q = some x → k1.home q = some x := by
      intro q x hx
      unfold Kernel.home at hx ⊢
      rw [Assoc.get_erase] at hx
      split at hx
      · cases hx
      · exact hx
    exact h1.trans ⟨Nat.le_refl _, fun _ _ _ hrole => hrole.mono hsub, fun _ _ _ _ _ => rfl⟩
  · exact .refl _ _

/-- **The calls** give frames no other roles. -/
theorem dispatch_spares (h : k.Inv) (hg : Guard env k num args) (hrun : dispatch env num args k = .ok ret k') :
    k.Spares k' := by
  cases dispatch_cases hrun with
  | io c hnum hio hc =>
    rcases hc with hc | rfl
    · exact io_spares h hg.room (hg.io c hc) hio
    · exact io_spares h hg.room (fun e he _ => by cases he) hio
  | quiet hnum hk =>
    rw [hk]
    exact .refl _ _
  | exit hnum hexit => exact exit_spares hexit
  | brk hnum hbrk => exact brk_spares h hbrk
  | clone hnum hclone => exact clone_spares h hclone
  | execve hnum hexec => exact execve_spares h (hg.execve hnum).1 (hg.execve hnum).2 hexec
  | mmap hnum hmmap => exact mmap_spares h (hg.mmap hnum).2 (hg.mmap hnum).1 hmmap
  | wait4 hnum hwait => exact wait4_spares h hg.room (hg.wait4 hnum) hwait

/-- The stores of user code. -/
theorem user_stores_spares {stores : List (Nat × UInt8)} : ∀ {k : Kernel} {m : Mem}, k.Inv →
    user_stores k.satp k.mm.mem stores = some m → k.Spares (k.withMem m) := by
  induction stores with
  | nil =>
    intro k m _ hm
    cases hm
    exact .refl _ _
  | cons st rest ih =>
    intro k m h hm
    obtain ⟨va, v⟩ := st
    obtain ⟨a, hva, hrest⟩ := Option.bind_eq_some_iff.mp hm
    obtain ⟨f, hu, hin, -⟩ := user_translate_page h.spaces.own.tables h.root_mem hva
    have hloose : ∀ c, Function.update k.mm.mem a v c ≠ k.mm.mem c → Loose k.mm k.home c := by
      intro c hne
      obtain rfl : c = a := by
        by_contra hca
        exact hne (Function.update_of_ne hca _ _)
      exact Or.inl ⟨k.satp, h.root_mem, _, f, hu, hin⟩
    have hone : k.Spares (k.withMem (Function.update k.mm.mem a v)) := .write h.spaces hloose
    exact hone.trans (ih (k := k.withMem (Function.update k.mm.mem a v)) (h.write hloose) hrest)

end Calls

/-! ## Section 3: Runs -/

section Steps

variable {env : Env} {s0 s t : System} {l : Trap} {ls ls' : List Trap} {g : Nat} {ρ ρ' : Role}

/-- **A step** gives frames no other roles. -/
theorem Step.spares (h : s.Inv) (hg : s.Guarded env l) (hstep : Step env s l t) : s.k.Spares t.k := by
  obtain ⟨-, k1, k2, hin, -⟩ := Step.keeps h hg hstep
  have hguard := hg k1 hin.call
  obtain ⟨m, hm, hk1⟩ := hin.call
  have h1 : s.k.Spares (s.k.withMem m) := user_stores_spares h.kernel hm
  have hinv : (s.k.withMem m).Inv := h.kernel.user_stores hm
  have h2 : (s.k.withMem m).Spares k1 := by
    rw [hk1]
    exact (h.enter_stack hm).spares hinv
  have h3 : k1.Spares k2 := dispatch_spares hin.before hguard hin.run
  have h4 : k2.Spares t.k := hin.rest.spares hin.after
  exact ((h1.trans h2).trans h3).trans h4

theorem spares_run (h : s.Inv) (hrun : LTS.Steps (LTS.guarded (System.Guarded env) (Step env)) s ls t) :
    t.Inv ∧ s.k.Spares t.k := by
  induction hrun with
  | nil => exact ⟨h, .refl _ _⟩
  | snoc l hpre hl ih =>
    obtain ⟨hinv, hspares⟩ := ih
    exact ⟨(Step.keeps hinv hl.1 hl.2).1, hspares.trans (Step.spares hinv hl.1 hl.2)⟩

/-- The roles of a kernel whose address spaces are apart. -/
theorem Spaces.one_role {s : Mm} {home : Nat → Option Home} (h : Spaces s home) (h1 : HasRole s home g ρ)
    (h2 : HasRole s home g ρ') : ρ = ρ' := by
  cases ρ with
  | node pid path =>
    obtain ⟨x, hx, hlen, hnode⟩ := h1
    cases ρ' with
    | node pid' path' =>
      obtain ⟨x', hx', hlen', hnode'⟩ := h2
      obtain ⟨hroot, hpath⟩ := h.own.tables.apart _ (root_mem hx) _ (root_mem hx') _ _ _ hlen hlen' hnode hnode'
      rw [h.root_inj pid x pid' x' hx hx' hroot, hpath]
    | page pid' v =>
      obtain ⟨x', hx', hu⟩ := h2
      exact absurd hnode (h.own.user_node _ (root_mem hx') _ (root_mem hx) v path g hlen hu)
    | stack pid' i =>
      obtain ⟨x', hx', hg⟩ := h2
      exact absurd hnode (h.own.stack_node g (stack_mem hx' (stackFrame_mem hg)) _ (root_mem hx) path hlen)
  | page pid v =>
    obtain ⟨x, hx, hu⟩ := h1
    cases ρ' with
    | node pid' path' =>
      obtain ⟨x', hx', hlen', hnode'⟩ := h2
      exact absurd hnode' (h.own.user_node _ (root_mem hx) _ (root_mem hx') v path' g hlen' hu)
    | page pid' v' =>
      obtain ⟨x', hx', hu'⟩ := h2
      obtain ⟨hroot, hv⟩ := h.own.user_one _ (root_mem hx) _ (root_mem hx') v v' g hu hu'
      rw [h.root_inj pid x pid' x' hx hx' hroot, hv]
    | stack pid' i =>
      obtain ⟨x', hx', hg⟩ := h2
      exact absurd hu (h.own.stack_user g (stack_mem hx' (stackFrame_mem hg)) _ (root_mem hx) v)
  | stack pid i =>
    obtain ⟨x, hx, hg⟩ := h1
    cases ρ' with
    | node pid' path' =>
      obtain ⟨x', hx', hlen', hnode'⟩ := h2
      exact absurd hnode' (h.own.stack_node g (stack_mem hx (stackFrame_mem hg)) _ (root_mem hx') path' hlen')
    | page pid' v' =>
      obtain ⟨x', hx', hu'⟩ := h2
      exact absurd hu' (h.own.stack_user g (stack_mem hx (stackFrame_mem hg)) _ (root_mem hx') v')
    | stack pid' j =>
      obtain ⟨x', hx', hg'⟩ := h2
      have hpid := h.stack_inj pid x pid' x' g hx hx' (stackFrame_mem hg) (stackFrame_mem hg')
      subst hpid
      rw [hx] at hx'
      cases hx'
      have htop := (h.top pid x hx).2
      have hi := i.isLt
      have hj := j.isLt
      have hij : i = j := Fin.ext (by omega)
      rw [hij]

/-- **One role.**  In every state of a run whose calls meet their guards, a frame has
    at most one role, to one process. -/
theorem frames_one_role (hstart : CalmStart env s) (hrun : LTS.Steps (LTS.guarded (System.Guarded env) (Step env)) s ls t)
    (h1 : HasRole t.k.mm t.k.home g ρ) (h2 : HasRole t.k.mm t.k.home g ρ') : ρ = ρ' :=
  (calm_run hstart hrun).kernel.spaces.one_role h1 h2

theorem home_of_table {k : Kernel} {T : Table} (pid : Nat) {e : Entry} (h : k.table = T) (he : T.get pid = some e) :
    ∃ x, k.home pid = some x := by
  rw [← h, Kernel.table_get] at he
  obtain ⟨p, hp, -⟩ := Option.map_eq_some_iff.mp he
  exact ⟨p.home, by unfold Kernel.home; rw [hp]; rfl⟩

/-- The first process and its child have different roots. -/
theorem frames_one_role_clone : ∃ s t l x y, CalmStart Env.quiet s ∧
    LTS.Steps (LTS.guarded (System.Guarded Env.quiet) (Step Env.quiet)) s [l] t ∧
    t.k.home 1 = some x ∧ t.k.home 2 = some y ∧ x.root ≠ y.root := by
  obtain ⟨s, t, l, hs, hl, -, -, -, htable⟩ := first_clone
  have hrun : LTS.Steps (LTS.guarded (System.Guarded Env.quiet) (Step Env.quiet)) s [l] t := LTS.Steps.single hl
  obtain ⟨x, hx⟩ := home_of_table 1 htable rfl
  obtain ⟨y, hy⟩ := home_of_table 2 htable rfl
  refine ⟨s, t, l, x, y, hs, hrun, hx, hy, ?_⟩
  intro hroot
  have h1 : HasRole t.k.mm t.k.home x.root (.node 1 []) := ⟨x, hx, by simp, by simp [node]⟩
  have h2 : HasRole t.k.mm t.k.home x.root (.node 2 []) := ⟨y, hy, by simp, by simp [node, hroot]⟩
  cases frames_one_role hs hrun h1 h2

end Steps

end Rvos

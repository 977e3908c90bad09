import Rvos.Kernel.Context

/-! # The first process

    `init_user_proc` builds the first address space on an empty machine.  If the
    frames and the argument strings fit (`CalmStart`), the invariant of the running
    system holds when the first process starts (`CalmStart.inv`), and it is kept
    by all steps that meet their guards (`calm_run`). -/

namespace Rvos

open Access ByteMem Usize

/-! ## Section 1: Building the first process -/

/-- No process. -/
def noHome : Nat → Option Home := fun _ => none

/-- One process. -/
def oneHome (x : Home) : Nat → Option Home := fun pid => if pid = 1 then some x else none

section Build

variable {s t : Mm} {k : Kernel}

theorem noHome_spaces (h : s.Ok) : Spaces s noHome := by
  have hr : ∀ r, r ∉ roots noHome := by
    rintro r ⟨q, x, hx, -⟩
    cases hx
  have hk : ∀ f, f ∉ kernelStacks noHome := by
    rintro f ⟨q, x, hx, -⟩
    cases hx
  have htables : Tables s (roots noHome) :=
    ⟨h, fun r hr' => absurd hr' (hr r), fun r hr' => absurd hr' (hr r),
      fun r hr' => absurd hr' (hr r)⟩
  refine ⟨⟨htables, fun r hr' => absurd hr' (hr r), fun r hr' => absurd hr' (hr r),
    fun r hr' => absurd hr' (hr r), fun f hf => absurd hf (hk f), fun f hf => absurd hf (hk f),
    fun f hf => absurd hf (hk f)⟩, fun r hr' => absurd hr' (hr r), ?_, ?_, ?_⟩
  · intro q x hx
    cases hx
  · intro q x q' x' hx
    cases hx
  · intro q x q' x' f hx
    cases hx

/-- The frames of a kernel stack that begins after the next frame. -/
theorem stackFrames_next (h : s.Ok) :
    stackFrames (s.pages.current + 4096 + 8192) = {s.next + 2, s.next + 1} := by
  have hnext := h.next_eq
  have h1 : (s.pages.current + 4096 + 8192) / 4096 - 1 = s.next + 2 := by omega
  have h2 : (s.pages.current + 4096 + 8192) / 4096 - 2 = s.next + 1 := by omega
  rw [stackFrames, h1, h2]

/-- The frames that the first process takes before its segments are loaded. -/
def bootFrames : Nat := newFrames + 2

/-- **`Process::new`**, from frames beyond the state `s`. -/
theorem Process.new_wp {R : Set Nat} (h : Own s R ∅) (pid : Nat)
    (hroom : s.pages.current + 4096 * 135 ≤ s.pages.end_) :
    Prog.wp (Process.new pid)
      (fun o t => ∃ proc, o = some proc ∧ proc.page_table = ⟨s.next⟩ ∧
        proc.kernel_stack = s.pages.current + 4096 + 8192 ∧
        Builds s R (stackFrames (s.pages.current + 4096 + 8192)) s.next t ∧
        KernelMapped t.mem s.next ∧ (∀ v, userLeaf t.mem s.next v = none) ∧
        t.pages.current ≤ s.pages.current + 4096 * 135)
      (fun _ _ => False) s := by
  have hok := h.tables.ok
  unfold Process.new
  rw [Prog.wp_bind]
  rcases PageTable.new_cases hok with ⟨hfree, hnew⟩ | ⟨hfull, -⟩
  · rw [Prog.wp_of_ok hnew, Prog.wp_bind]
    obtain ⟨hb, hempty⟩ := Builds.new h hfree
    have hcur : s.take.pages.current = s.pages.current + 4096 := rfl
    have hnext : s.take.next = s.next + 1 := by
      unfold Mm.next
      rw [hcur]
      omega
    rcases alloc_pages_two_cases (hok.take hfree) with ⟨hfree2, halloc⟩ | ⟨hfull, -⟩
    · rw [Prog.wp_of_ok halloc, Prog.wp_bind]
      obtain ⟨hb2, hsame⟩ := hb.stackPages hfree2
      rw [hnext, insert_empty_eq, ← stackFrames_next hok] at hb2
      have hempty2 : ∀ v, leaf s.take.take.take.mem s.next v = none := by
        intro v
        rw [leaf_of_same (hsame _ (Set.mem_insert _ _)) v, hempty v]
      refine (identity_map_wp hb2 hempty2).mono ?_ ?_
      · rintro _ t ⟨hb3, hkernel, hnone, hused⟩
        rw [Prog.wp_pure]
        have hcur3 : s.take.take.take.pages.current = s.pages.current + 4096 + 4096 + 4096 := rfl
        exact ⟨_, rfl, rfl, rfl, hb3, hkernel, hnone, by omega⟩
      · intro _ _ hfull
        have hcur3 : s.take.take.take.pages.current = s.pages.current + 4096 + 4096 + 4096 := rfl
        omega
    · have hend : s.take.pages.end_ = s.pages.end_ := rfl
      omega
  · omega

/-- The program file is refused, or has segments to load. -/
def ImageFails (env : Env) (heap : HeapAllocator) (data : List UInt8) : Prop :=
  (heap_alloc heap data.length 4).1 = none ∨
    ∀ elf, env.parse_elf data = some elf → elf.program_headers ≠ []

/-- The first process is the only one. -/
theorem home_first {x : Home} {p : Process} (h : k.procs = (∅ : Std.TreeMap Nat Process).insert 1 p)
    (hp : p.home = x) : k.home = oneHome x := by
  funext pid
  unfold Kernel.home oneHome
  rw [h, Assoc.get_insert]
  by_cases hpid : pid = 1
  · rw [if_pos hpid, if_pos hpid, ← hp]
    rfl
  · rw [if_neg hpid, if_neg hpid]
    simp

theorem kernelStacks_one {x : Home} : kernelStacks (oneHome x) = stackFrames x.stack := by
  ext f
  constructor
  · rintro ⟨q, y, hy, hf⟩
    unfold oneHome at hy
    split at hy
    · cases hy
      exact hf
    · cases hy
  · intro hf
    exact ⟨1, x, rfl, hf⟩

theorem first_spaces {c : Nat} (h : s.Ok) (hc : 4096 ∣ c)
    (hspace : Space s (roots noHome) (stackFrames (c + 8192)) s.next t) :
    Spaces t (oneHome ⟨s.next, c + 8192⟩) ∧
      UserFlags t.mem (roots (oneHome ⟨s.next, c + 8192⟩)) := by
  have hself : ∀ x, oneHome ⟨s.next, c + 8192⟩ 1 = some x → x = ⟨s.next, c + 8192⟩ := by
    intro x hx
    exact (Option.some.inj hx).symm
  have hother : ∀ q x, q ≠ 1 → oneHome ⟨s.next, c + 8192⟩ q = some x → noHome q = some x := by
    intro q x hq hx
    rw [oneHome, if_neg hq] at hx
    cases hx
  refine ⟨(noHome_spaces h).install hspace.builds hspace.kernel hself hother ⟨by omega, by omega⟩
    kernelStacks_one.subset ?_, hspace.builds.flags ?_ hspace.flags (roots_update hself hother)⟩
  · intro q x f _ hx
    cases hx
  · rintro r ⟨q, x, hx, -⟩
    cases hx

/-- **`init_user_proc`**: the first address space, if there is one. -/
theorem init_user_proc_wp (hb : Boot k) (env : Env) (data : List UInt8) {argv : List Path}
    (hroom : k.mm.pages.current + 4096 * bootFrames ≤ 0x8600_0000)
    (hfit : StackFits (argv ++ [utf8 "PATH=/bin"])) :
    Prog.wp (init_user_proc env data argv)
      (fun o k' => (o = some () → k'.Sound ∧
          Builds k.mm (roots noHome) (kernelStacks k'.home) k.mm.next k'.mm ∧
          k'.home = oneHome ⟨k.mm.next, k.mm.pages.current + 4096 + 8192⟩) ∧
        (o = none → ImageFails env k.heap data) ∧
        (ImageFails env k.heap data ∨ k'.mm.pages.current ≤ k.mm.pages.current + 4096 * bootFrames))
      (fun _ _ => ImageFails env k.heap data) k := by
  have hend := hb.frames_end
  have hspaces := noHome_spaces hb.frames
  unfold bootFrames newFrames at *
  unfold init_user_proc KM.mm
  rw [Prog.wp_bind, Prog.wp_zoom]
  refine (Process.new_wp (hspaces.own.mono (Set.Subset.refl _) (Set.empty_subset _)) 1 (by omega)).mono ?_ fun _ _ he => he.elim
  rintro _ t ⟨proc, rfl, hpt, hstack, hbuilds, hkernel, hnone, hused⟩
  have hspace : Space k.mm (roots noHome) (stackFrames (k.mm.pages.current + 4096 + 8192))
      k.mm.next t := by
    refine ⟨hbuilds, hkernel, ?_⟩
    intro x hx v e he
    rw [Set.mem_singleton_iff.mp hx, hnone v] at he
    cases he
  have hheap : k.heap.Ok := ⟨hb.heap_lo, hb.heap_hi, hb.heap_end⟩
  have hfails : LoadFails env k.mm t.pages.current k.heap data → ImageFails env k.heap data := by
    rintro (h | h)
    · omega
    · exact h
  have hload := (rest_load_program env ⟨k.mm.next⟩ data argv [utf8 "PATH=/bin"]).wp
    (load_program_wp (k := { k with mm := t }) hspace hnone hheap
      (by show t.pages.current + 12288 * 9 ≤ _; omega) env data hfit)
  rw [← hpt] at hload
  simp only [Prog.wp_bind]
  refine hload.mono ?_ fun _ _ he => hfails he
  rintro o k2 ⟨hrest, hspace2, hheap2, hno, hused2⟩
  have hbound : ImageFails env k.heap data ∨
      k2.mm.pages.current ≤ k.mm.pages.current + 4096 * (160 + 2) := by
    rcases hused2 with h | h
    · exact Or.inl (hfails h)
    · refine Or.inr (Nat.le_trans h ?_)
      show t.pages.current + 12288 * 9 ≤ _
      omega
  cases o with
  | none =>
    rw [Prog.wp_pure]
    exact ⟨fun h => absurd h (by simp), fun _ => hfails (hno rfl), hbound⟩
  | some r =>
    obtain ⟨elf, max_end⟩ := r
    simp only [Prog.wp_bind, Prog.wp_modify, Prog.wp_pure]
    refine ⟨fun _ => ?_, fun h => absurd h (by simp), hbound⟩
    simp only [Kernel.rest, Prod.mk.injEq] at hrest
    obtain ⟨-, hprocs, -⟩ := hrest
    have hp : (proc.first elf max_end argv.length).home =
        ⟨k.mm.next, k.mm.pages.current + 4096 + 8192⟩ := by
      show (⟨proc.page_table.root_ppn, proc.kernel_stack⟩ : Home) = _
      rw [hpt, hstack]
    have hprocs2 : k2.procs.insert 1 (proc.first elf max_end argv.length) =
        (∅ : Std.TreeMap Nat Process).insert 1 (proc.first elf max_end argv.length) := by
      rw [hprocs, hb.procs]
    have hhome := home_first (k := { k2 with
        procs := k2.procs.insert 1 (proc.first elf max_end argv.length)
        current_pid := 1, next_pid := 2 }) hprocs2 hp
    have hdvd : 4096 ∣ k.mm.pages.current + 4096 := by
      have := hb.frames.aligned
      omega
    obtain ⟨hspaces2, hflags2⟩ := first_spaces hb.frames hdvd hspace2
    rw [← hhome] at hspaces2 hflags2
    refine ⟨⟨hspaces2, hflags2, hheap2⟩, ?_, hhome⟩
    have hbuilds2 := hspace2.builds
    rw [← kernelStacks_one (x := ⟨k.mm.next, k.mm.pages.current + 4096 + 8192⟩), ← hhome] at hbuilds2
    exact hbuilds2

end Build

/-! ## Section 2: The invariant over whole runs -/

/-- A start with room for the first address space, and with argument strings
    that fit in one page. -/
def CalmStart (env : Env) (s : System) : Prop :=
  ∃ k0 k1 elf_data argv satp, Boot k0 ∧
    k0.mm.pages.current + 4096 * bootFrames ≤ 0x8600_0000 ∧
    StackFits (argv ++ [utf8 "PATH=/bin"]) ∧
    init_user_proc env elf_data argv k0 = .ok (some ()) k1 ∧
    s.k = { k1 with satp := satp } ∧ Running s

section CalmRun

variable {env : Env} {s t : System} {l : Trap} {ls : List Trap}

theorem CalmStart.start (h : CalmStart env s) : Start env s := by
  obtain ⟨k0, k1, elf_data, argv, satp, hboot, -, -, hinit, hs, hrun⟩ := h
  exact ⟨k0, k1, elf_data, argv, satp, hboot, hinit, hs, hrun⟩

theorem CalmStart.inv (h : CalmStart env s) : s.Inv := by
  have hlive : s.k.table.Live := by
    rw [h.start.table]
    exact firstTable_live
  obtain ⟨k0, k1, elf_data, argv, satp, hboot, hroom, hfit, hinit, hs, hrun⟩ := h
  have hsound := (((init_user_proc_wp hboot env elf_data hroom hfit).ok hinit).1 rfl).1
  obtain ⟨p, hp, hroot, hscratch, -⟩ := hrun.satp
  have hhome : s.k.home = k1.home := by rw [hs]; rfl
  refine ⟨⟨⟨?_, ?_, ?_⟩, ?_⟩, hlive, ?_⟩
  · rw [hhome, hs]
    exact hsound.spaces
  · rw [hhome, hs]
    exact hsound.flags
  · rw [hs]
    exact hsound.heap
  · refine ⟨p.home, ?_, hroot⟩
    unfold Kernel.home
    rw [show s.k.procs[s.k.current_pid]? = some p from hp]
    rfl
  · intro q hq
    rw [hp] at hq
    cases hq
    exact hscratch

/-- **The invariant of the running system**: it holds in every state that is
    reached by steps that meet their guards. -/
theorem calm_run (h : CalmStart env s)
    (hrun : LTS.Steps (LTS.guarded (System.Guarded env) (Step env)) s ls t) : t.Inv := by
  have hkeep : ∀ s l t, s.Inv → LTS.guarded (System.Guarded env) (Step env) s l t → t.Inv := by
    intro s l t hi hl
    exact (Step.keeps hi hl.1 hl.2).1
  exact LTS.Steps.invariant hkeep hrun h.inv

end CalmRun

end Rvos

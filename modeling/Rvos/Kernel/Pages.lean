import Rvos.Kernel.Mmap
import Rvos.Kernel.Resume

/-! # The pages of the kernel

    Every address space has the same kernel pages, so that the kernel can change
    `satp` while it runs.

    * `kernel_pages_same` : this holds in every run that meets its guards. -/

namespace Rvos

open Access ByteMem Usize

/-- The address lies in a page that the kernel maps to itself. -/
def KernelAddress (va : Nat) : Prop := ∃ p ∈ identityPages, Vpn.of va = Vpn.of p.1

/-- The tables of all processes map exactly the identity pages without the `U` flag,
    and a kernel address denotes the same with each of them. -/
structure SameKernelPages (k : Kernel) : Prop where
  mapped : ∀ (pid : Nat) (p : Process), k.procs[pid]? = some p → KernelMapped k.mm.mem p.page_table.root_ppn
  denotes : ∀ (pid pid' : Nat) (p p' : Process), k.procs[pid]? = some p → k.procs[pid']? = some p' →
    ∀ va w, KernelAddress va → hw_translate k.mm.mem p.page_table.root_ppn w va =
      hw_translate k.mm.mem p'.page_table.root_ppn w va

section Kernel

variable {env : Env} {s t : System} {k : Kernel} {ls : List Trap}

theorem Kernel.Inv.same_pages (h : k.Inv) : SameKernelPages k := by
  have hroot : ∀ (pid : Nat) (p : Process), k.procs[pid]? = some p → p.page_table.root_ppn ∈ roots k.home := by
    intro pid p hp
    exact Rvos.root_mem (Kernel.home_of hp)
  constructor
  · intro pid p hp
    exact h.spaces.kernel _ (hroot pid p hp)
  · intro pid pid' p p' hp hp' va w hva
    obtain ⟨page, hpage, hvpn⟩ := hva
    have hleaf : ∀ r ∈ roots k.home, leaf k.mm.mem r (Vpn.of va) = some (identityEntry page) := by
      intro r hr
      exact ((h.spaces.kernel r hr _ _).mpr ⟨page, hpage, hvpn, rfl⟩).1
    unfold hw_translate
    rw [hw_walk_eq h.spaces.own.tables (hroot pid p hp), hw_walk_eq h.spaces.own.tables (hroot pid' p' hp'),
      hleaf _ (hroot pid p hp), hleaf _ (hroot pid' p' hp')]

/-- **Kernel pages.**  In every state of a run whose calls meet their guards, all
    tables have the identity pages and no other page without the `U` flag. -/
theorem kernel_pages_same (hstart : CalmStart env s)
    (hrun : LTS.Steps (LTS.guarded (System.Guarded env) (Step env)) s ls t) : SameKernelPages t.k :=
  (calm_run hstart hrun).kernel.same_pages

/-- The table of a child is as good as that of its parent. -/
theorem kernel_pages_same_child : ∃ s t l, CalmStart Env.quiet s ∧
    LTS.Steps (LTS.guarded (System.Guarded Env.quiet) (Step Env.quiet)) s [l] t ∧
    t.k.current_pid = 2 ∧ SameKernelPages t.k := by
  obtain ⟨s, hs, hroom, -⟩ := start_exists fun _ => 0
  obtain ⟨t, ⟨l, hl, -, hguard, -⟩, -, -, htable⟩ := script_step Env.quiet
    (fun _ _ => 0) .clone ⟨1, 220, ⟨0, 0, 0, 0, 0, 0⟩, 2, false⟩
    ⟨[(1, ⟨1, 0, .Ready, 0⟩), (2, ⟨2, 1, .Running, 0⟩)], 2, 3⟩ hs.inv hroom
    (by rw [hs.start.table]; decide +kernel)
  have hrun : LTS.Steps (LTS.guarded (System.Guarded Env.quiet) (Step Env.quiet)) s [l] t :=
    LTS.Steps.single ⟨hguard, hl⟩
  exact ⟨s, t, l, hs, hrun, congrArg Table.current htable, kernel_pages_same hs hrun⟩

end Kernel

end Rvos

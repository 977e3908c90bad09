import Rvos.Kernel.Family
import Rvos.Kernel.Image
import Rvos.Lib.Block

/-! # What a pointer of user code can reach

    The kernel follows the pointers of user code without looking at them, with
    the caller's table and its own rights.  The kernel's memory is mapped to
    itself in every table, so such a pointer can name a page table or a saved
    register.

    * `Kernel.Inv.identity` : kernel addresses are their own physical addresses.
    * `Returned` : what a trap leaves when it returns to its caller.
    * `io_step` : a step that makes a given call on input and output. -/

namespace Rvos

open Access ByteMem Usize

/-! ## Section 1: Kernel addresses -/

section Walk

variable {m m' : Mem} {root va : Nat}

/-- The walk reads one entry of each of three nodes. -/
theorem hw_walk_congr (h2 : entry m' root (Vpn.of va).i = entry m root (Vpn.of va).i)
    (h1 : entry m' (entry m root (Vpn.of va).i).ppn (Vpn.of va).j =
      entry m (entry m root (Vpn.of va).i).ppn (Vpn.of va).j)
    (h0 : entry m' (entry m (entry m root (Vpn.of va).i).ppn (Vpn.of va).j).ppn (Vpn.of va).k =
      entry m (entry m (entry m root (Vpn.of va).i).ppn (Vpn.of va).j).ppn (Vpn.of va).k) :
    hw_walk m' root va = hw_walk m root va := by
  unfold hw_walk
  simp only [h2, h1, h0]

/-- The nodes on the way to a leaf. -/
theorem nodes_of_leaf {v : Vpn} {e : PageTableEntry} (h : leaf m root v = some e) :
    node m root [v.i] = some (entry m root v.i).ppn ∧
      node m root [v.i, v.j] = some (entry m (entry m root v.i).ppn v.j).ppn := by
  obtain ⟨f, hf⟩ := Option.ne_none_iff_exists'.mp (node_of_leaf h)
  have hroot : node m root [] = some root := rfl
  -- an invalid entry on the way would leave no node below it
  have h2 : (entry m root v.i).is_valid = true := by
    by_contra hno
    cases (node_dead hroot (Bool.eq_false_iff.mpr hno) [v.j]).symm.trans hf
  have hn1 := node_child hroot h2
  have h1 : (entry m (entry m root v.i).ppn v.j).is_valid = true := by
    by_contra hno
    cases (node_dead hn1 (Bool.eq_false_iff.mpr hno) []).symm.trans hf
  exact ⟨hn1, node_child hn1 h1⟩

/-- A walk that ends in a leaf is the same in every memory that agrees on the
    three nodes on its way. -/
theorem hw_walk_same {e : PageTableEntry} (h : leaf m root (Vpn.of va) = some e)
    (hsame : ∀ p f, p <+: [(Vpn.of va).i, (Vpn.of va).j] → node m root p = some f →
      ∀ a, InFrame f a → m' a = m a) : hw_walk m' root va = hw_walk m root va := by
  obtain ⟨hn1, hn0⟩ := nodes_of_leaf h
  have hentry : ∀ p f, p <+: [(Vpn.of va).i, (Vpn.of va).j] → node m root p = some f →
      ∀ i, entry m' f i = entry m f i := by
    intro p f hp hf i
    exact entry_congr (fun a h1 h2 => hsame p f hp hf a ⟨h1, h2⟩) i
  apply hw_walk_congr
  · exact hentry [] root (List.nil_prefix) rfl _
  · exact hentry _ _ (by simp) hn1 _
  · exact hentry _ _ (List.prefix_refl _) hn0 _

end Walk

section Identity

variable {k : Kernel} {va : Nat}

/-- The pages of the kernel's memory are identity pages. -/
theorem kernel_page_mem (h1 : 0x8000_0000 ≤ va) (h2 : va < 0x8800_0000) :
    ((4096 * (va / 4096), kernelFlags) : Nat × PTEFlags) ∈ identityPages := by
  unfold identityPages
  apply List.mem_append_left
  apply List.mem_append_left
  apply List.mem_append_left
  apply List.mem_map.mpr
  refine ⟨4096 * (va / 4096), ?_, rfl⟩
  unfold pages PAGE_SIZE
  apply List.mem_map.mpr
  exact ⟨va / 4096 - 0x80000, List.mem_range.mpr (by omega), by omega⟩

theorem KernelMapped.kernel_leaf {m : Mem} {r : Nat} (h : KernelMapped m r) (h1 : 0x8000_0000 ≤ va)
    (h2 : va < 0x8800_0000) :
    leaf m r (Vpn.of va) = some (identityEntry (4096 * (va / 4096), kernelFlags)) := by
  have hpage : Vpn.of va = Vpn.of (4096 * (va / 4096)) := by
    have hadd : Vpn.of (4096 * (va / 4096) + va % 4096) = Vpn.of (4096 * (va / 4096)) :=
      Vpn.of_add (by omega) (by omega)
    rwa [Nat.div_add_mod] at hadd
  exact ((h (Vpn.of va) _).mpr ⟨_, kernel_page_mem h1 h2, hpage, rfl⟩).1

/-- **Kernel addresses** are their own physical addresses, for loads and stores. -/
theorem KernelMapped.identity {s : Mm} {R : Set Nat} {r : Nat} (h : KernelMapped s.mem r)
    (ht : Tables s R) (hr : r ∈ R) (h1 : 0x8000_0000 ≤ va) (h2 : va < 0x8800_0000) (w : Bool) :
    hw_translate s.mem r w va = some va := by
  have hcanon : canonical va = true := by
    unfold canonical
    simp only [Bool.or_eq_true, decide_eq_true_eq]
    left
    omega
  have hppn : (identityEntry (4096 * (va / 4096), kernelFlags)).ppn = va / 4096 := by
    unfold identityEntry
    rw [PageTableEntry.new_ppn] <;> simp only [Nat.shiftRight_eq_div_pow, PAGE_SIZE_BITS] <;> omega
  have hflags := identityEntry_flags (kernel_page_mem h1 h2)
  have hmapped : kernelFlags.mapped.contains .V = true ∧ kernelFlags.mapped.contains .R = true ∧
      kernelFlags.mapped.contains .W = true ∧ kernelFlags.mapped.contains .A = true ∧
      kernelFlags.mapped.contains .D = true := by decide
  obtain ⟨hV, hR, hW, hA, hD⟩ := hmapped
  have husable : ((identityEntry (4096 * (va / 4096), kernelFlags)).usable &&
      (identityEntry (4096 * (va / 4096), kernelFlags)).isLeaf) = true := by
    simp only [PageTableEntry.usable, PageTableEntry.is_valid, PageTableEntry.isLeaf, hppn, hflags, hV, hR,
      Bool.not_true, Bool.and_false, Bool.not_false, Bool.true_or, Bool.and_true, Bool.true_and,
      decide_eq_true_eq]
    omega
  have hperm : permits w kernelFlags.mapped = true := by
    cases w <;> simp [permits, hA, hR, hW, hD]
  unfold hw_translate
  rw [hw_walk_eq ht hr, if_pos hcanon, h.kernel_leaf h1 h2, Option.bind_some, if_pos husable,
    Option.bind_some, hflags, if_pos hperm, hppn]
  congr 1
  omega

theorem Kernel.Inv.identity (h : k.Inv) (h1 : 0x8000_0000 ≤ va) (h2 : va < 0x8800_0000) (w : Bool) :
    hw_translate k.mm.mem k.satp w va = some va :=
  (h.spaces.kernel _ h.root_mem).identity h.spaces.own.tables h.root_mem h1 h2 w

/-- **Kernel memory as a buffer**: `n` bytes that no walk to them reads. -/
theorem Kernel.Inv.kernel_block (h : k.Inv) {n : Nat} (h1 : 0x8000_0000 ≤ va)
    (h2 : va + n ≤ 0x8800_0000)
    (hapart : ∀ x, va ≤ x → x < va + n → ∀ p f, p <+: [(Vpn.of x).i, (Vpn.of x).j] →
      node k.mm.mem k.satp p = some f → ∀ a, InFrame f a → ¬ (va ≤ a ∧ a < va + n)) :
    Block (machine k.satp) k.mm.mem (user va) n (va + ·) where
  addr_lt := by
    show va < 2 ^ 64
    omega
  inj := by
    intro i j _ _ hij
    have hij' : va + i = va + j := hij
    omega
  fixed := by
    intro m hm w i hi
    have hwalk : hw_walk m k.satp (va + i) = hw_walk k.mm.mem k.satp (va + i) := by
      have hleaf : leaf k.mm.mem k.satp (Vpn.of (va + i)) = some _ :=
        (h.spaces.kernel _ h.root_mem).kernel_leaf (by omega) (by omega)
      apply hw_walk_same hleaf
      intro p f hp hf a hin
      apply hm a
      rintro ⟨j, hj, rfl⟩
      exact hapart (va + i) (by omega) (by omega) p f hp hf (va + j) hin ⟨by omega, by omega⟩
    show hw_translate m k.satp w (wadd va i) = some (va + i)
    rw [wadd_of_lt (by omega)]
    unfold hw_translate
    rw [hwalk]
    exact h.identity (by omega) (by omega) w

end Identity

/-! ## Section 2: Back to the caller -/

/-- What the trap of `cpu` leaves when its call has returned `ret` with the kernel
    `k`, and the caller itself goes on: the frame alone is written. -/
structure Returned (cpu : Cpu) (ret : Int) (k : Kernel) (t : System) : Prop where
  home : t.k.home = k.home
  rest : t.k.satp = k.satp ∧ t.k.mm.pages = k.mm.pages ∧ t.k.heap = k.heap ∧ t.k.io = k.io
  mem : ∀ a, a < cpu.tf ∨ cpu.tf + 280 ≤ a → t.k.mm.mem a = k.mm.mem a
  regs : t.cpu = cpu.restore ((read_raw k.mm.mem cpu.tf).finished cpu.num ret k.current_trap_frame) cpu.tf

section Steps

variable {env : Env} {s t : System} {k : Kernel} {cpu : Cpu} {ret : Int}

/-- Whether its caller blocks or not, the handler changes states only. -/
theorem handler_finish_home {tf num : Nat} {k' : Kernel} (h : handler_finish tf num ret k = .ok () k') :
    k'.home = k.home ∧ k'.current_pid = k.current_pid ∧
      k'.satp = k.satp ∧ k'.mm.pages = k.mm.pages ∧ k'.heap = k.heap ∧ k'.io = k.io := by
  obtain ⟨m, hrun, -, -⟩ := handler_finish_run tf num ret k
  rw [h] at hrun
  obtain rfl := (EStateM.Result.ok.inj hrun).2
  refine ⟨?_, rfl, rfl, rfl, rfl, rfl⟩
  have hwaiting : ∀ p : Process, ({ p with state := .Waiting } : Process).home = p.home :=
    fun _ => rfl
  by_cases hblock : num = 260 ∧ ret = -11
  · simp only [if_pos hblock]
    exact home_modify hwaiting k
  · simp only [if_neg hblock]
    rfl

theorem trap_exit_returned (hexit : trap_exit cpu ret k = .ok t.cpu t.k)
    (hpid : t.k.current_pid = k.current_pid) : Returned cpu ret k t := by
  obtain ⟨k1, sp, hfinish, hsched, hcpu⟩ := trap_exit_cases hexit
  obtain ⟨hhome1, hpid1, hrest1⟩ := handler_finish_home hfinish
  have hframe : read_raw k1.mm.mem cpu.tf =
        (read_raw k.mm.mem cpu.tf).finished cpu.num ret k.current_trap_frame ∧
      ∀ a, a < cpu.tf ∨ cpu.tf + 280 ≤ a → k1.mm.mem a = k.mm.mem a := by
    obtain ⟨m, hrun, hraw, hout⟩ := handler_finish_run cpu.tf cpu.num ret k
    rw [hfinish] at hrun
    obtain rfl := (EStateM.Result.ok.inj hrun).2
    exact ⟨hraw, hout⟩
  have hsaved : (k1.save (read_raw k1.mm.mem cpu.tf)).home = k1.home :=
    home_modify (f := Process.saved _) (fun _ => rfl) k1
  have hrunning : ∀ q, ({ k1.save (read_raw k1.mm.mem cpu.tf) with
      procs := (k1.save (read_raw k1.mm.mem cpu.tf)).procs.modify q Process.running } : Kernel).home =
        k1.home :=
    fun q => (home_modify Process.home_running _).trans hsaved
  -- the scheduler leaves the caller's frame alone unless it switches
  have hstay : t.k.home = k1.home ∧ sp = cpu.tf ∧ t.k.mm = k1.mm ∧
      t.k.satp = k1.satp ∧ t.k.heap = k1.heap ∧ t.k.io = k1.io := by
    cases do_schedule_cases hsched with
    | idle p hpick hcur hstate hsp hk =>
      rw [hk]
      exact ⟨hrunning _, hsp, rfl, rfl, rfl, rfl⟩
    | missing hpick hcur hsp hk =>
      rw [hk]
      exact ⟨hsaved, hsp, rfl, rfl, rfl, rfl⟩
    | same hpick hsp hk =>
      rw [hk]
      exact ⟨hsaved, hsp, rfl, rfl, rfl, rfl⟩
    | switch next p hpick hne hnext hsp hk =>
      rw [hk] at hpid
      exact absurd (hpid.trans hpid1.symm) hne
  obtain ⟨hhome, hsp, hmm, hsatp, hheap, hio⟩ := hstay
  constructor
  · exact hhome.trans hhome1
  · rw [hsatp, hmm, hheap, hio]
    exact hrest1
  · intro a ha
    rw [hmm]
    exact hframe.2 a ha
  · rw [hcpu, hsp, hmm, hframe.1]

/-! ## Section 3: Steps that make a call -/

variable {l : Trap} {T : Table}

/-- **A step**, with what is inside: the call returns with the kernel `k`. -/
theorem step_inside (hnum : s.k.table.Numbered) (hb : l.burst.stores = [])
    (hd : dispatch env (s.trapCpu l).num (s.trapCpu l).args (s.k.enter (s.trapCpu l)) = .ok l.ret k)
    (htrap : s.k.table.trap (s.trapCpu l).num (s.trapCpu l).args l.ret = some T) :
    ∃ t, Step env s l t ∧ t.k.table = T ∧ trap_exit (s.trapCpu l) l.ret k = .ok t.cpu t.k := by
  have hm : user_stores s.k.satp s.k.mm.mem l.burst.stores = some s.k.mm.mem := by
    rw [hb]
    rfl
  obtain ⟨t, hstep, htable⟩ := step_exists (b := l.burst) hnum hm hd htrap
  refine ⟨t, hstep, htable, ?_⟩
  obtain ⟨m, k', hm', hd', hexit⟩ := step_iff.mp hstep
  obtain rfl : s.k.mm.mem = m := Option.some.inj (hm.symm.trans hm')
  obtain rfl : k = k' := (EStateM.Result.ok.inj (hd.symm.trans hd')).2
  exact hexit

/-- A step that makes a call on input and output. -/
theorem io_step {c : IoM Int} {v : St HeapAllocator Io} (hnum : s.k.table.Numbered)
    (hb : l.burst.stores = []) (hc : io_call env (s.trapCpu l).num (s.trapCpu l).args = some c)
    (hrun : run (machine s.k.satp) c (s.k.enter (s.trapCpu l)).view = .ok l.ret v)
    (htrap : s.k.table.trap (s.trapCpu l).num (s.trapCpu l).args l.ret = some T) :
    ∃ t, Step env s l t ∧ t.k.table = T ∧
      trap_exit (s.trapCpu l) l.ret ((s.k.enter (s.trapCpu l)).setView v) = .ok t.cpu t.k := by
  apply step_inside hnum hb ?_ htrap
  unfold dispatch
  simp only [hc]
  exact KM.io_eq_ok.mpr ⟨v, hrun, rfl⟩

/-- The kernel when the call is made, of user code that stores nothing. -/
theorem System.Inv.entered (h : s.Inv) (hb : l.burst.stores = []) :
    (s.k.enter (s.trapCpu l)).Inv ∧ s.k.StackOnly (s.k.enter (s.trapCpu l)) := by
  have hcall : s.AtCall l (s.k.enter (s.trapCpu l)) := by
    refine ⟨s.k.mm.mem, ?_, rfl⟩
    rw [hb]
    rfl
  exact (h.at_call hb hcall).2

/-- **Kernel memory as a buffer** of a call. -/
theorem System.Inv.kernel_block (h : s.Inv) (hb : l.burst.stores = []) {va n : Nat}
    (h1 : 0x8000_0000 ≤ va) (h2 : va + n ≤ 0x8800_0000)
    (hapart : ∀ x, va ≤ x → x < va + n → ∀ p f, p <+: [(Vpn.of x).i, (Vpn.of x).j] →
      node s.k.mm.mem s.k.satp p = some f → ∀ a, InFrame f a → ¬ (va ≤ a ∧ a < va + n)) :
    Block (machine s.k.satp) (s.k.enter (s.trapCpu l)).mm.mem (user va) n (va + ·) := by
  obtain ⟨hinv, hstack⟩ := h.entered hb
  apply hinv.kernel_block h1 h2
  intro x hx1 hx2 p f hp hf
  apply hapart x hx1 hx2 p f hp
  -- saving the registers does not move the nodes
  have hlen := hp.length_le
  simp only [List.length_cons, List.length_nil] at hlen
  rw [← node_of_same (h.kernel.same_of_stackOnly hstack _ h.kernel.root_mem) (by omega)]
  exact hf

/-- **One byte of kernel memory**: `getrandom` stores `0xab` where its caller says. -/
theorem random_step (env : Env) {va : Nat} (h : s.Inv) (hb : l.burst.stores = [])
    (hnum : (s.trapCpu l).num = 278) (hargs : (s.trapCpu l).args = ⟨va, 1, 0, 0, 0, 0⟩) (hret : l.ret = 1)
    (h1 : 0x8000_0000 ≤ va) (h2 : va < 0x8800_0000)
    (hapart : ∀ p f, p <+: [(Vpn.of va).i, (Vpn.of va).j] → node s.k.mm.mem s.k.satp p = some f →
      ¬ InFrame f va)
    (htrap : s.k.table.trap 278 ⟨va, 1, 0, 0, 0, 0⟩ 1 = some T) :
    ∃ t, Step env s l t ∧ t.k.table = T ∧ trap_exit (s.trapCpu l) 1 ((s.k.enter (s.trapCpu l)).withMem
      (Function.update (s.k.enter (s.trapCpu l)).mm.mem va 0xab)) = .ok t.cpu t.k := by
  have hblock : Block (machine s.k.satp) (s.k.enter (s.trapCpu l)).mm.mem (user va) 1 (va + ·) := by
    apply h.kernel_block hb h1 (by omega)
    intro x hx1 hx2 p f hp hf a hin ha
    obtain rfl : x = va := by omega
    obtain rfl : a = x := by omega
    exact hapart p f hp hf hin
  have hrun : run (machine s.k.satp) (sys_getrandom (user va) 1) (s.k.enter (s.trapCpu l)).view =
      .ok 1 { (s.k.enter (s.trapCpu l)).view with
        mem := Function.update (s.k.enter (s.trapCpu l)).mm.mem va 0xab } := by
    generalize s.k.enter (s.trapCpu l) = k1 at hblock
    have hstore : run (machine s.k.satp) (Code.storeBytes (user va) (List.replicate 1 0xab) : IoM Unit)
        k1.view = _ := hblock.run_storeBytes_start (by simp)
    unfold sys_getrandom
    rw [run_bind_of_ok _ hstore]
    rfl
  have hc : io_call env (s.trapCpu l).num (s.trapCpu l).args = some (sys_getrandom (user va) 1) := by
    rw [hnum, hargs]
    rfl
  rw [← hret] at hrun htrap
  rw [← hnum, ← hargs] at htrap
  obtain ⟨t, hstep, htable, hexit⟩ := io_step h.live.ok.numbered hb hc hrun htrap
  rw [hret] at hexit
  exact ⟨t, hstep, htable, hexit⟩

/-- User code that makes a call, with zeros in all other registers. -/
def bareCall (num a0 a1 a2 a3 a4 : Word) : Burst where
  x := fun i =>
    if i = 17 then num else if i = 10 then a0 else if i = 11 then a1 else if i = 12 then a2
    else if i = 13 then a3 else if i = 14 then a4 else 0
  f := fun _ => 0
  pc := 0
  sstatus := 0
  stores := []

end Steps

end Rvos

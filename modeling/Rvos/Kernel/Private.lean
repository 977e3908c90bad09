import Rvos.Kernel.Resume

/-! # Private memories

    The kernel has one physical memory, one allocator and a forest of page tables;
    a program is written as if it had a memory of its own.  Here that view is made
    the abstract model: every process has a `PrivateMemory`, pages with flags and
    bytes, and a turn of one process (`Turn`) is what a reader of the program would
    expect: its stores go to its own memory, its call changes its own memory,
    `clone` hands out a copy, `wait4` takes a memory away, and that is all.

    * `Kernel.memory` : the private memory of a process, read off the tables.
    * `user_load_memory`, `user_stores_memory` : loads and stores of user code are
      those of the private memory.
    * `dispatch_memory` : what a call makes of all memories.
    * `memories_refine` : every run whose calls meet their guards is, seen through
      `Kernel.memory`, a run of the abstract model.
    * `memory_kept_away`, `child_finds_copy` : what a process finds when it has its
      next turn, or its first. -/

namespace Rvos

open Access ByteMem Usize

/-! ## Section 1: The abstract model -/

/-- A page as user code sees it. -/
structure PrivatePage where
  flags : PTEFlags
  bytes : Fin 4096 → UInt8

/-- The memory of one process. -/
abbrev PrivateMemory : Type := Vpn → Option PrivatePage

/-- The position of an address in its page. -/
def pageOffset (va : Nat) : Fin 4096 := ⟨va % 4096, Nat.mod_lt _ (by decide)⟩

namespace PrivateMemory

/-- A load of user code; refused outside readable pages. -/
def load (u : PrivateMemory) (va : Nat) : Option UInt8 :=
  (u (Vpn.of va)).bind fun p =>
    if canonical va && p.flags.contains .R then some (p.bytes (pageOffset va)) else none

/-- A store of user code; refused outside writable pages. -/
def store (u : PrivateMemory) (va : Nat) (b : UInt8) : Option PrivateMemory :=
  (u (Vpn.of va)).bind fun p =>
    if canonical va && p.flags.contains .R && p.flags.contains .W then
      some (Function.update u (Vpn.of va)
        (some { p with bytes := Function.update p.bytes (pageOffset va) b }))
    else none

/-- Stores in a row. -/
def stores : PrivateMemory → List (Nat × UInt8) → Option PrivateMemory
  | u, [] => some u
  | u, (va, b) :: rest => (u.store va b).bind fun u' => u'.stores rest

/-- The pages are there with their flags, and only writable ones have changed. -/
def Grown (u u' : PrivateMemory) : Prop :=
  ∀ v p, u v = some p → ∃ p', u' v = some p' ∧ p'.flags = p.flags ∧
    (p.flags.contains .W = false → p' = p)

/-- The pages are as they were, and new ones are zero and can be read and written. -/
def Extended (u u' : PrivateMemory) : Prop :=
  ∀ v, u' v = u v ∨ (u v = none ∧
    u' v = some ⟨PTEFlags.mapped (.U ||| .R ||| .W), fun _ => 0⟩)

/-- What the call `num` with result `ret` makes of the memory of its caller. -/
structure Called (num : Nat) (ret : Int) (u u' : PrivateMemory) : Prop where
  /-- `exit`, `clone` and a failed `execve` touch nothing. -/
  still : num = 93 ∨ num = 94 ∨ num = 220 ∨ (num = 221 ∧ ret ≠ 0) → u' = u
  /-- Only a successful `execve` takes pages away or changes their flags. -/
  grown : ¬ (num = 221 ∧ ret = 0) → u.Grown u'
  /-- Only `brk`, `mmap` and `execve` add pages. -/
  closed : num ≠ 214 → num ≠ 221 → num ≠ 222 → ∀ v, u v = none → u' v = none
  /-- `brk` adds zero pages. -/
  brk : num = 214 → u.Extended u'

end PrivateMemory

/-- A turn of a process: the stores of its user code, then its call. -/
structure Turn where
  pid : Nat
  stores : List (Nat × UInt8)
  num : Nat
  ret : Int

/-- The memories after the turn `e`: the caller's is now `u2`; the child of a
    `clone` has what the caller had at the call, `u1`; a process that was waited
    for is gone. -/
def Turn.after (e : Turn) (u1 u2 : PrivateMemory) (M : Nat → Option PrivateMemory) :
    Nat → Option PrivateMemory := fun q =>
  if q = e.pid then some u2
  else if e.num = 220 ∧ e.ret = q then some u1
  else if e.num = 260 ∧ e.ret = q then none
  else M q

/-- What a turn of the abstract model may do to the memories. -/
def Turns (M : Nat → Option PrivateMemory) (e : Turn) (M' : Nat → Option PrivateMemory) : Prop :=
  ∃ u u1 u2, M e.pid = some u ∧ u.stores e.stores = some u1 ∧ u1.Called e.num e.ret u2 ∧
    M' = e.after u1 u2 M

/-- The abstract machine: who runs, and what each process has. -/
structure Machine where
  running : Nat
  memory : Nat → Option PrivateMemory

/-- A step of the abstract machine is a turn of the process that runs.  Who runs
    next is left open. -/
def Machine.Step (M : Machine) (e : Turn) (M' : Machine) : Prop :=
  e.pid = M.running ∧ Turns M.memory e M'.memory

namespace PrivateMemory

theorem Grown.refl (u : PrivateMemory) : u.Grown u := by
  intro v p hp
  exact ⟨p, hp, rfl, fun _ => rfl⟩

theorem Grown.trans {u u' u'' : PrivateMemory} (h1 : u.Grown u') (h2 : u'.Grown u'') : u.Grown u'' := by
  intro v p hp
  obtain ⟨p', hp', hf', hkept'⟩ := h1 v p hp
  obtain ⟨p'', hp'', hf'', hkept''⟩ := h2 v p' hp'
  refine ⟨p'', hp'', hf''.trans hf', ?_⟩
  intro hW
  rw [hkept'' (by rw [hf']; exact hW), hkept' hW]

theorem Extended.grown {u u' : PrivateMemory} (h : u.Extended u') : u.Grown u' := by
  intro v p hp
  rcases h v with hv | ⟨hnone, -⟩
  · exact ⟨p, hv.trans hp, rfl, fun _ => rfl⟩
  · rw [hp] at hnone
    cases hnone

/-- A call that changes nothing. -/
theorem Called.refl (num : Nat) (ret : Int) (u : PrivateMemory) : Called num ret u u where
  still := fun _ => rfl
  grown := fun _ => Grown.refl u
  closed := fun _ _ _ _ h => h
  brk := fun _ _ => Or.inl rfl

/-- A call on bytes: the pages stay, writable ones may have changed. -/
theorem Called.bytes {num : Nat} {ret : Int} {u u' : PrivateMemory} (hg : u.Grown u')
    (hnone : ∀ v, u v = none → u' v = none) (hnum : num ≠ 93 ∧ num ≠ 94 ∧ num ≠ 220 ∧ num ≠ 221)
    (hbrk : num ≠ 214) : Called num ret u u' where
  still := fun h => by omega
  grown := fun _ => hg
  closed := fun _ _ _ => hnone
  brk := fun h => absurd h hbrk

end PrivateMemory

/-! ## Section 2: Memories in the kernel -/

/-- The page that an entry names. -/
def pageAt (m : Mem) (e : PageTableEntry) : PrivatePage := ⟨e.flags, fun i => m (4096 * e.ppn + i)⟩

/-- The memory that the table `r` gives user code. -/
def privateMemory (m : Mem) (r : Nat) : PrivateMemory := fun v => (userLeaf m r v).map (pageAt m)

/-- The private memory of a process. -/
def Kernel.memory (k : Kernel) (pid : Nat) : Option PrivateMemory :=
  (k.home pid).map fun x => privateMemory k.mm.mem x.root

section Memories

variable {k k' : Kernel} {s t : Mm} {home : Nat → Option Home} {m m' : Mem} {r q : Nat} {x : Home} {v : Vpn}

theorem userPage_of_leaf {e : PageTableEntry} (h : userLeaf m r v = some e) : UserPage m r v e.ppn :=
  ⟨e, h, rfl⟩

theorem privateMemory_some {e : PageTableEntry} (h : userLeaf m r v = some e) :
    privateMemory m r v = some (pageAt m e) := by
  unfold privateMemory
  rw [h, Option.map_some]

theorem privateMemory_none : privateMemory m r v = none ↔ userLeaf m r v = none := by
  unfold privateMemory
  rw [Option.map_eq_none_iff]

theorem pageAt_congr {e : PageTableEntry} (h : ∀ a, InFrame e.ppn a → m' a = m a) : pageAt m' e = pageAt m e := by
  unfold pageAt
  congr 1
  funext i
  exact h _ (by unfold InFrame; omega)

/-- A page whose entry and bytes are the same is the same. -/
theorem privateMemory_page (hleaf : leaf m' r v = leaf m r v)
    (hbytes : ∀ f, UserPage m r v f → ∀ a, InFrame f a → m' a = m a) :
    privateMemory m' r v = privateMemory m r v := by
  cases he : userLeaf m r v with
  | none =>
    rw [privateMemory_none.mpr he, privateMemory_none]
    exact (userLeaf_congr hleaf).trans he
  | some e =>
    rw [privateMemory_some he, privateMemory_some ((userLeaf_congr hleaf).trans he),
      pageAt_congr (hbytes e.ppn (userPage_of_leaf he))]

theorem privateMemory_congr (hleaf : ∀ v, leaf m' r v = leaf m r v)
    (hbytes : ∀ v f, UserPage m r v f → ∀ a, InFrame f a → m' a = m a) :
    privateMemory m' r = privateMemory m r := by
  funext v
  exact privateMemory_page (hleaf v) (hbytes v)

theorem Kernel.memory_of (hx : k.home q = some x) :
    k.memory q = some (privateMemory k.mm.mem x.root) := by
  unfold Kernel.memory
  rw [hx]
  rfl

theorem Kernel.memory_eq_none : k.memory q = none ↔ k.home q = none := by
  unfold Kernel.memory
  rw [Option.map_eq_none_iff]

/-- **Memory that changed outside the pages of a process.** -/
theorem Spaces.memory_write (h : Spaces s home) (hr : r ∈ roots home)
    (hm : ∀ a, m a ≠ s.mem a → Loose s home a)
    (hout : ∀ a, m a ≠ s.mem a → ∀ v f, UserPage s.mem r v f → ¬ InFrame f a) :
    privateMemory m r = privateMemory s.mem r := by
  apply privateMemory_congr
  · intro v
    exact leaf_of_same ((h.write hm).2 r hr) v
  · intro v f hu a hin
    by_contra hne
    exact hout a hne v f hu hin

/-- **Memory that changed beyond the frames handed out.** -/
theorem Spaces.memory_below (h : Spaces s home) (hr : r ∈ roots home)
    (hm : ∀ a, a < s.pages.current → m a = s.mem a) : privateMemory m r = privateMemory s.mem r := by
  apply privateMemory_congr
  · intro v
    exact leaf_of_same (h.own.tables.same_of_below hm hr) v
  · intro v f hu a hin
    have hbelow := h.own.user_below r hr v f hu
    unfold InFrame at hin
    exact hm a (by omega)

/-- Writing on kernel stacks. -/
theorem Kernel.StackOnly.memory (h : k.StackOnly k') (hi : k.Inv) : k'.memory = k.memory := by
  have hm : ∀ a, k'.mm.mem a ≠ k.mm.mem a → ∃ f ∈ kernelStacks k.home, InFrame f a := by
    intro a hne
    by_contra hno
    exact hne (h.mem a fun f hf hin => hno ⟨f, hf, hin⟩)
  funext q
  unfold Kernel.memory
  rw [h.home]
  cases hx : k.home q with
  | none => rfl
  | some x =>
    have hmem : privateMemory k'.mm.mem x.root = privateMemory k.mm.mem x.root := by
      apply hi.spaces.memory_write (root_mem hx)
      · intro a hne
        exact Or.inr (Or.inl (hm a hne))
      · intro a hne v f hu hin
        obtain ⟨g, hg, hin'⟩ := hm a hne
        obtain rfl : f = g := by unfold InFrame at hin hin'; omega
        exact hi.spaces.own.stack_user f hg x.root (root_mem hx) v hu
    rw [Option.map_some, Option.map_some, hmem]

/-- Two processes have no frame in common. -/
theorem Kernel.Inv.other_page (h : k.Inv) (hx : k.home q = some x) (hq : q ≠ k.current_pid) {f a : Nat}
    (hu : UserPage k.mm.mem x.root v f) (hin : InFrame f a) : ¬ k.Mine a := by
  intro hmine
  obtain ⟨y, hy, hsatp⟩ := h.satp
  rcases hmine with ⟨w, g, hg, hin'⟩ | hge
  · obtain rfl : f = g := by unfold InFrame at hin hin'; omega
    have heq := (h.spaces.own.user_one x.root (Rvos.root_mem hx) k.satp h.root_mem v w f hu hg).1
    exact hq (h.spaces.root_inj q x k.current_pid y hx hy (by rw [heq, hsatp]))
  · have hbelow := h.spaces.own.user_below x.root (Rvos.root_mem hx) v f hu
    unfold InFrame at hin
    omega

/-- **Changes to the pages of the current process** leave the others alone. -/
theorem Kernel.Inv.memory_mine (h : k.Inv) (hm : ∀ a, m a ≠ k.mm.mem a → k.Mine a)
    (hx : k.home q = some x) (hq : q ≠ k.current_pid) :
    privateMemory m x.root = privateMemory k.mm.mem x.root := by
  apply h.spaces.memory_write (Rvos.root_mem hx)
  · intro a hne
    exact h.mine_loose (hm a hne)
  · intro a hne v f hu hin
    exact h.other_page hx hq hu hin (hm a hne)

end Memories

/-! ## Section 3: User code -/

section User

variable {k : Kernel} {m : Mem} {r va : Nat}

/-- The flags of a user page tell what user code may do. -/
theorem user_flags {f : PTEFlags} (hmapped : f.mapped = f) (hU : f.contains .U = true) :
    (f.contains .V = true) ∧ (f.contains .A = true) ∧ (f.contains .D = true) := by
  revert f
  decide +kernel

/-- Where user code gets to: its own pages, as their flags allow. -/
theorem Kernel.Inv.user_translate_eq (h : k.Inv) (w : Bool) (va : Nat) :
    user_translate k.mm.mem k.satp w va =
      (userLeaf k.mm.mem k.satp (Vpn.of va)).bind fun e =>
        if canonical va && e.flags.contains .R && (!w || e.flags.contains .W) then
          some (4096 * e.ppn + va % 4096) else none := by
  have hwalk := hw_walk_eq h.spaces.own.tables h.root_mem va
  unfold user_translate
  rw [hwalk]
  cases hleaf : leaf k.mm.mem k.satp (Vpn.of va) with
  | none =>
    rw [userLeaf, hleaf]
    simp
  | some e =>
    by_cases hU : e.flags.contains .U = true
    · have huser : userLeaf k.mm.mem k.satp (Vpn.of va) = some e := by
        unfold userLeaf
        rw [hleaf]
        simp [Option.filter, hU]
      obtain ⟨hV, hA, hD⟩ := user_flags (h.flags _ h.root_mem _ e huser) hU
      have hbelow := h.spaces.own.user_below _ h.root_mem _ _ (userPage_of_leaf huser)
      have hend := h.spaces.own.tables.ok.le_end
      have htop := h.spaces.own.tables.ok.end_le
      have hppn : e.ppn < 17592186044416 := by omega
      rw [huser]
      unfold PageTableEntry.usable PageTableEntry.isLeaf PageTableEntry.is_valid permits
      cases hc : canonical va <;> cases hR : e.flags.contains .R <;> cases hW : e.flags.contains .W <;>
        cases hX : e.flags.contains .X <;> cases w <;> simp [hV, hA, hD, hU, hR, hW, hX, hppn]
    · have huser : userLeaf k.mm.mem k.satp (Vpn.of va) = none := by
        unfold userLeaf
        rw [hleaf]
        simp [Option.filter, hU]
      rw [huser]
      simp only [Option.bind_some, Option.bind_none]
      split
      · split
        · simp [hU]
        · rfl
      · rfl

/-- **Loads** of user code find the bytes of its private memory. -/
theorem user_load_memory (h : k.Inv) (va : Nat) :
    (user_translate k.mm.mem k.satp false va).map k.mm.mem =
      (privateMemory k.mm.mem k.satp).load va := by
  rw [h.user_translate_eq]
  unfold PrivateMemory.load
  cases he : userLeaf k.mm.mem k.satp (Vpn.of va) with
  | none =>
    rw [privateMemory_none.mpr he]
    rfl
  | some e =>
    rw [privateMemory_some he, Option.bind_some, Option.bind_some]
    simp only [Bool.not_false, Bool.true_or, Bool.and_true]
    by_cases hp : (canonical va && e.flags.contains .R) = true
    · rw [if_pos hp]
      exact (if_pos hp).symm
    · rw [if_neg hp]
      exact (if_neg hp).symm

/-- A byte stored in a user page. -/
theorem Kernel.Inv.memory_update (h : k.Inv) {v : Vpn} {e : PageTableEntry}
    (he : userLeaf k.mm.mem k.satp v = some e) (o : Fin 4096) (b : UInt8) :
    privateMemory (Function.update k.mm.mem (4096 * e.ppn + o) b) k.satp =
      Function.update (privateMemory k.mm.mem k.satp) v (some ⟨e.flags,
        Function.update (fun i : Fin 4096 => k.mm.mem (4096 * e.ppn + i)) o b⟩) := by
  have hin : ∀ a, Function.update k.mm.mem (4096 * e.ppn + o) b a ≠ k.mm.mem a → a = 4096 * e.ppn + o := by
    intro a hne
    by_contra hother
    exact hne (Function.update_of_ne hother _ _)
  have hleaf : ∀ w, leaf (Function.update k.mm.mem (4096 * e.ppn + o) b) k.satp w =
      leaf k.mm.mem k.satp w := by
    apply h.leaf_same
    intro a hne
    rw [hin a hne]
    exact Or.inl ⟨v, e.ppn, userPage_of_leaf he, by unfold InFrame; omega⟩
  funext w
  by_cases hw : w = v
  · subst hw
    rw [Function.update_self, privateMemory_some ((userLeaf_congr (hleaf w)).trans he)]
    unfold pageAt
    congr 2
    funext i
    by_cases hi : i = o
    · subst hi
      rw [Function.update_self, Function.update_self]
    · rw [Function.update_of_ne hi, Function.update_of_ne (by omega)]
  · -- another page is in another frame
    rw [Function.update_of_ne hw]
    apply privateMemory_page (hleaf w)
    intro f hu a hf
    by_contra hne
    have ha := hin a hne
    obtain rfl : f = e.ppn := by unfold InFrame at hf; omega
    exact hw (h.spaces.own.user_one _ h.root_mem _ h.root_mem w v e.ppn hu (userPage_of_leaf he)).2

/-- **A store** of user code is a store to its private memory. -/
theorem user_store_memory (h : k.Inv) {a : Nat} (b : UInt8)
    (ha : user_translate k.mm.mem k.satp true va = some a) :
    (privateMemory k.mm.mem k.satp).store va b =
      some (privateMemory (Function.update k.mm.mem a b) k.satp) := by
  rw [h.user_translate_eq] at ha
  obtain ⟨e, he, ha⟩ := Option.bind_eq_some_iff.mp ha
  split at ha
  · next hperm =>
    cases ha
    have hupdate := h.memory_update he (pageOffset va) b
    rw [show 4096 * e.ppn + va % 4096 = 4096 * e.ppn + (pageOffset va : Nat) from rfl, hupdate]
    unfold PrivateMemory.store
    simp only [Bool.not_true, Bool.false_or] at hperm
    rw [privateMemory_some he, Option.bind_some]
    exact if_pos hperm
  · cases ha

/-- **Stores in a row**, and the memories of the others. -/
theorem user_stores_memory {stores : List (Nat × UInt8)} : ∀ {k : Kernel} {m : Mem}, k.Inv →
    user_stores k.satp k.mm.mem stores = some m →
    (privateMemory k.mm.mem k.satp).stores stores = some (privateMemory m k.satp) ∧
      ∀ q x, k.home q = some x → q ≠ k.current_pid →
        privateMemory m x.root = privateMemory k.mm.mem x.root := by
  induction stores with
  | nil =>
    intro k m _ hm
    cases hm
    exact ⟨rfl, fun _ _ _ _ => rfl⟩
  | cons st rest ih =>
    intro k m h hm
    obtain ⟨va, b⟩ := st
    obtain ⟨a, ha, hrest⟩ := Option.bind_eq_some_iff.mp hm
    obtain ⟨f, hu, hin, -⟩ := user_translate_page h.spaces.own.tables h.root_mem ha
    have hmine : ∀ c, Function.update k.mm.mem a b c ≠ k.mm.mem c → k.Mine c := by
      intro c hne
      obtain rfl : c = a := by
        by_contra hca
        exact hne (Function.update_of_ne hca _ _)
      exact Or.inl ⟨_, f, hu, hin⟩
    have hinv : (k.withMem (Function.update k.mm.mem a b)).Inv :=
      h.write fun c hne => h.mine_loose (hmine c hne)
    obtain ⟨hown, hothers⟩ := ih (k := k.withMem (Function.update k.mm.mem a b)) hinv hrest
    refine ⟨?_, ?_⟩
    · unfold PrivateMemory.stores
      rw [user_store_memory h b ha, Option.bind_some]
      exact hown
    · intro q x hx hq
      rw [hothers q x hx hq]
      exact h.memory_mine hmine hx hq

end User

/-! ## Section 4: Calls -/

/-- A turn that neither creates nor removes a process. -/
theorem Turn.after_own {e : Turn} {u1 u2 : PrivateMemory} {M : Nat → Option PrivateMemory}
    (hfork : e.num ≠ 220) (hwait : e.num = 260 → ∀ q : Nat, e.ret = q → M q = none) :
    e.after u1 u2 M = fun q => if q = e.pid then some u2 else M q := by
  funext q
  unfold Turn.after
  rw [if_neg (fun h : e.num = 220 ∧ e.ret = q => hfork h.1)]
  split
  · rfl
  · split
    · next h => exact (hwait h.1 q h.2).symm
    · rfl

/-- The bytes that the kernel may store to for the current process: those of its
    writable pages, and the heap. -/
def Kernel.MayWrite (k : Kernel) (a : Nat) : Prop :=
  (∃ v e, userLeaf k.mm.mem k.satp v = some e ∧ e.flags.contains .W = true ∧ InFrame e.ppn a) ∨
    k.mm.pages.current ≤ a

section Calls

variable {env : Env} {num : Nat} {args : Args} {k k' : Kernel} {ret : Int}

theorem Kernel.MayWrite.mine {a : Nat} (h : k.MayWrite a) : k.Mine a := by
  rcases h with ⟨v, e, he, -, hin⟩ | hge
  · exact Or.inl ⟨v, e.ppn, userPage_of_leaf he, hin⟩
  · exact Or.inr hge

/-- A permitted store outside the kernel's own pages reaches a writable page. -/
theorem Kernel.Inv.store_may_write (h : k.Inv) {m : Mem} (hm : ∀ a, m a ≠ k.mm.mem a → k.MayWrite a)
    {p : Ptr} (hp : k.StoreOk p) {a : Nat} (ha : (machine k.satp).at m ⟨true, p⟩ = some a) :
    k.MayWrite a := by
  unfold Kernel.StoreOk at hp
  unfold Machine.at at ha
  by_cases hown : p.own = true
  · simp only [hown, if_true, Option.some.injEq] at hp ha
    exact Or.inr (ha ▸ hp)
  · simp only [hown, if_false, Bool.false_eq_true] at hp ha
    -- the tables in `m` are those of `k`
    have htr : hw_translate k.mm.mem k.satp true p.addr = some a := by
      have ha' : hw_translate m k.satp true p.addr = some a := ha
      unfold hw_translate at ha' ⊢
      rwa [h.walk_same fun b hne => (hm b hne).mine] at ha'
    obtain ⟨-, e, he, hperm, hin⟩ := h.translate_leaf htr
    have hW : e.flags.contains .W = true := by
      unfold permits at hperm
      simp only [if_true, Bool.and_eq_true] at hperm
      exact hperm.2.1
    refine Or.inl ⟨Vpn.of p.addr, e, ?_, hW, hin⟩
    unfold userLeaf
    rw [he]
    simp [Option.filter, hp e he]

/-- **Stores of a program**: only writable pages of the current process and the
    heap change. -/
theorem run_writes {α : Type} (h : k.Inv) (hroom : k.mm.pages.current ≤ 0x8600_0000) (c : IoM α)
    (hg : ∀ e ∈ trace (machine k.satp) c k.view, e.write = true → k.StoreOk e.ptr) :
    ∀ a, (Prog.final (run (machine k.satp) c k.view)).mem a ≠ k.mm.mem a → k.MayWrite a := by
  have hblock := machine_block k.satp (W := {a | k.MayWrite a}) fun x hx => Or.inr (hroom.trans hx)
  have hstay := run_stays hblock (machine_refused k.satp) c k.view
    (agreeOff_iff.mpr fun a hne => absurd rfl hne) h.heap (by
      intro e he hw m a hm' ha
      have hwrite : e = ⟨true, e.ptr⟩ := by rw [← hw]
      rw [hwrite] at ha
      exact h.store_may_write (agreeOff_iff.mp hm') (hg e he hw) ha)
  exact agreeOff_iff.mp hstay.1

/-- Writable pages have changed, others have not. -/
theorem Kernel.Inv.grown (h : k.Inv) {m : Mem} (hm : ∀ a, m a ≠ k.mm.mem a → k.MayWrite a) :
    (privateMemory k.mm.mem k.satp).Grown (privateMemory m k.satp) ∧
      ∀ v, privateMemory k.mm.mem k.satp v = none → privateMemory m k.satp v = none := by
  have hleaf : ∀ v, userLeaf m k.satp v = userLeaf k.mm.mem k.satp v := by
    intro v
    exact userLeaf_congr (h.leaf_same (fun a hne => (hm a hne).mine) v)
  constructor
  · intro v p hp
    obtain ⟨e, he, rfl⟩ := Option.map_eq_some_iff.mp hp
    refine ⟨pageAt m e, privateMemory_some ((hleaf v).trans he), rfl, ?_⟩
    intro hW
    apply pageAt_congr
    intro a hin
    by_contra hne
    rcases hm a hne with ⟨w, e', he', hW', hin'⟩ | hge
    · -- a frame has one page
      obtain hppn : e.ppn = e'.ppn := by unfold InFrame at hin hin'; omega
      have hv := (h.spaces.own.user_one _ h.root_mem _ h.root_mem v w e.ppn (userPage_of_leaf he)
        (hppn ▸ userPage_of_leaf he')).2
      rw [← hv, he] at he'
      cases he'
      rw [show e.flags.contains .W = false from hW] at hW'
      cases hW'
    · have := h.spaces.own.user_below _ h.root_mem v e.ppn (userPage_of_leaf he)
      unfold InFrame at hin
      omega
  · intro v hv
    rw [privateMemory_none] at hv ⊢
    rw [hleaf v]
    exact hv

/-- The memories after a call, if the caller alone may have got another one. -/
theorem memory_own {x : Home} (hcur : k'.home k.current_pid = some x)
    (hother : ∀ q, q ≠ k.current_pid → k'.home q = k.home q)
    (hkept : ∀ q y, k.home q = some y → q ≠ k.current_pid →
      privateMemory k'.mm.mem y.root = privateMemory k.mm.mem y.root) :
    k'.memory = fun q => if q = k.current_pid then some (privateMemory k'.mm.mem x.root) else k.memory q := by
  funext q
  by_cases hq : q = k.current_pid
  · rw [if_pos hq, hq]
    exact Kernel.memory_of hcur
  · rw [if_neg hq]
    unfold Kernel.memory
    rw [hother q hq]
    cases hy : k.home q with
    | none => rfl
    | some y => rw [Option.map_some, Option.map_some, hkept q y hy hq]

/-- There is no process 0. -/
theorem memory_zero (hlive : k.table.Live) : k.memory 0 = none := by
  rw [Kernel.memory_eq_none]
  cases hx : k.home 0 with
  | none => rfl
  | some x =>
    obtain ⟨p, hp, -⟩ := Option.map_eq_some_iff.mp hx
    have hentry := (hlive.ok.entry 0 p.entry (by rw [Kernel.table_get, hp]; rfl)).2.2
    omega

/-- **Programs that load and store.** -/
theorem io_memory {α : Type} {c : IoM α} {r : α} (h : k.Inv) (hroom : k.mm.pages.current ≤ 0x8600_0000)
    (hg : ∀ e ∈ trace (machine k.satp) c k.view, e.write = true → k.StoreOk e.ptr)
    (hrun : KM.io c k = .ok r k') :
    ∃ u, (privateMemory k.mm.mem k.satp).Grown u ∧
      (∀ v, privateMemory k.mm.mem k.satp v = none → u v = none) ∧
      k'.memory = (fun q => if q = k.current_pid then some u else k.memory q) ∧
      privateMemory k'.mm.mem k.satp = u := by
  have hm := run_writes h hroom c hg
  obtain ⟨s, hs, rfl⟩ := KM.io_eq_ok.mp hrun
  rw [hs] at hm
  have hm' : ∀ a, s.mem a ≠ k.mm.mem a → k.MayWrite a := hm
  obtain ⟨x, hx, hsatp⟩ := h.satp
  obtain ⟨hgrown, hnone⟩ := h.grown hm'
  refine ⟨privateMemory s.mem k.satp, hgrown, hnone, ?_, rfl⟩
  rw [hsatp]
  have hothers : ∀ q y, k.home q = some y → q ≠ k.current_pid →
      privateMemory (k.setView s).mm.mem y.root = privateMemory k.mm.mem y.root := by
    intro q y hy hq
    exact h.memory_mine (fun a hne => (hm' a hne).mine) hy hq
  exact memory_own hx (fun _ _ => rfl) hothers

/-! ### New pages -/

/-- The pages that the table `r` has got have these flags, and are zero. -/
def FreshPages (r : Nat) (flags : PTEFlags) (s t : Mm) : Prop :=
  ∀ w e, leaf s.mem r w = none → leaf t.mem r w = some e →
    e.flags = flags.mapped ∧ ∀ a, InFrame e.ppn a → t.mem a = 0

section Pages

variable {home : Nat → Option Home} {r va : Nat} {s t u : Mm} {flags : PTEFlags}

/-- New pages of one table leave the bytes of all user pages alone. -/
theorem Extended.page_bytes (h : Spaces s home) (hext : Extended home r s t) (hr : r ∈ roots home) {x : Nat}
    (hx : x ∈ roots home) {v : Vpn} {f a : Nat} (hu : UserPage s.mem x v f) (hin : InFrame f a) :
    t.mem a = s.mem a := by
  by_contra hne
  have hbelow := h.own.user_below x hx v f hu
  unfold InFrame at hin
  rcases hext.grows.bytes a hne with ⟨p, g, hp, hg, h1, h2⟩ | ⟨hge, -⟩
  · obtain rfl : f = g := by omega
    exact h.own.user_node x hx r hr v p f hp hu hg
  · omega

/-- The pages that were there are as they were. -/
theorem Extended.old_page (h : Spaces s home) (hext : Extended home r s t) (hr : r ∈ roots home) {x : Nat}
    (hx : x ∈ roots home) {v : Vpn} {e : PageTableEntry} (he : leaf s.mem x v = some e) :
    privateMemory t.mem x v = privateMemory s.mem x v := by
  apply privateMemory_page
  · rcases hext.leaves x hx v with hl | ⟨-, hnone, -⟩
    · exact hl
    · rw [he] at hnone
      cases hnone
  · intro f hu a hin
    exact hext.page_bytes h hr hx hu hin

/-- The other tables give the same memories. -/
theorem Extended.other_memory (h : Spaces s home) (hext : Extended home r s t) (hr : r ∈ roots home) {x : Nat}
    (hx : x ∈ roots home) (hne : x ≠ r) : privateMemory t.mem x = privateMemory s.mem x := by
  apply privateMemory_congr
  · intro v
    rcases hext.leaves x hx v with hl | ⟨hxr, -⟩
    · exact hl
    · exact absurd hxr hne
  · intro v f hu a hin
    exact hext.page_bytes h hr hx hu hin

theorem FreshPages.refl (r : Nat) (flags : PTEFlags) (s : Mm) : FreshPages r flags s s := by
  intro w e hnone he
  rw [hnone] at he
  cases he

/-- New pages stay zero while more are added. -/
theorem FreshPages.trans (hr : r ∈ roots home) (hext1 : Extended home r s t)
    (h1 : FreshPages r flags s t) (hU : flags.contains .U = true) (hext2 : Extended home r t u)
    (h2 : FreshPages r flags t u) : FreshPages r flags s u := by
  intro w e hnone he
  cases ht : leaf t.mem r w with
  | none => exact h2 w e ht he
  | some e' =>
    obtain ⟨hflags, hzero⟩ := h1 w e' hnone ht
    have hee : e = e' := by
      rcases hext2.leaves r hr w with hl | ⟨-, hnone', -⟩
      · rw [he, ht] at hl
        exact Option.some.inj hl
      · rw [ht] at hnone'
        cases hnone'
    subst hee
    refine ⟨hflags, ?_⟩
    intro a hin
    have huser : UserPage t.mem r w e.ppn := by
      refine ⟨e, ?_, rfl⟩
      unfold userLeaf
      rw [ht]
      simp [Option.filter, hflags, PTEFlags.mapped_contains_U, hU]
    rw [hext2.page_bytes hext1.spaces hr hr huser hin]
    exact hzero a hin

/-- **`map_if_absent`** adds at most one page, and it is zero. -/
theorem map_if_absent_fresh (h : Spaces s home) (hf : UserFlags s.mem (roots home)) (hr : r ∈ roots home)
    (hU : flags.contains .U = true) (hrun : map_if_absent ⟨r⟩ va flags s = .ok ⟨⟩ t) :
    Extended home r s t ∧ FreshPages r flags s t := by
  have hext := ((map_if_absent_wp h hf hr va hU).ok hrun).1
  refine ⟨hext, ?_⟩
  intro w e hnone he
  have hok := h.own.tables.ok
  unfold map_if_absent at hrun
  rw [Prog.bind_run, Prog.get_run] at hrun
  simp only [translate_eq h.own.tables hr] at hrun
  cases hleaf : leaf s.mem r (Vpn.of va) with
  | some e' =>
    simp only [hleaf, Option.map_some, Option.isNone_some, Bool.false_eq_true, if_false] at hrun
    cases hrun
    rw [hnone] at he
    cases he
  | none =>
    simp only [hleaf, Option.map_none, Option.isNone_none, if_true] at hrun
    rcases alloc_page_cases hok with ⟨hroom, halloc⟩ | ⟨-, halloc⟩
    · rw [Prog.bind_of_ok halloc] at hrun
      obtain ⟨hext1, hfree⟩ := h.take (r := r) hf hroom
      have hle := hok.le_end
      have hend := hok.end_le
      have hnext := hok.next_eq
      have hm := map_spec hext1.spaces.own.tables hr (by omega) hrun
      rw [frame_at_cursor] at hm
      have hw : w = Vpn.of va := by
        by_contra hne
        have hold := leaf_of_same (same_take h.own.tables hr) w
        rw [hm.leaves r hr w, if_neg (fun hh => hne hh.2), hold, hnone] at he
        cases he
      rw [hm.leaves r hr w, if_pos ⟨rfl, hw⟩] at he
      cases he
      rw [PageTableEntry.new_ppn (by omega), PageTableEntry.new_flags (by omega)]
      refine ⟨rfl, ?_⟩
      intro a hin
      -- the frame was filled with zeros when it was taken
      obtain ⟨hlo, hhi⟩ := hin
      have hkept := hm.bytes_kept hfree.below (fun p hp => hfree.node r hr p hp) (a - 4096 * s.next) (by omega)
      rw [show 4096 * s.next + (a - 4096 * s.next) = a by omega] at hkept
      rw [hkept]
      exact take_mem_fresh (by omega) (by omega)
    · rw [Prog.bind_of_ok halloc] at hrun
      cases hrun
      rw [hnone] at he
      cases he

/-- The loops of `brk` and `mmap` add zero pages. -/
theorem map_all_fresh {α : Type} (hr : r ∈ roots home) (hU : flags.contains .U = true) (va : α → Nat)
    (l : List α) : ∀ {s t : Mm}, Spaces s home → UserFlags s.mem (roots home) →
    (l.forM fun x => map_if_absent ⟨r⟩ (va x) flags) s = .ok ⟨⟩ t →
    Extended home r s t ∧ FreshPages r flags s t := by
  induction l with
  | nil =>
    intro s t h hf hrun
    cases hrun
    exact ⟨Extended.refl h hf, FreshPages.refl r flags s⟩
  | cons x rest ih =>
    intro s t h hf hrun
    rw [List.forM] at hrun
    obtain ⟨⟨⟩, s1, hx, hrest⟩ := Prog.bind_eq_ok.mp hrun
    obtain ⟨hext1, hfresh1⟩ := map_if_absent_fresh h hf hr hU hx
    obtain ⟨hext2, hfresh2⟩ := ih hext1.spaces hext1.flags hrest
    exact ⟨hext1.trans hr hext2, hfresh1.trans hr hext1 hU hext2 hfresh2⟩

end Pages

/-! ### One lemma for each call -/

theorem Kernel.Inv.memory_current (h : k.Inv) : k.memory k.current_pid = some (privateMemory k.mm.mem k.satp) := by
  obtain ⟨x, hx, hsatp⟩ := h.satp
  rw [Kernel.memory_of hx, hsatp]

/-- The caller is not changed either. -/
theorem Kernel.Inv.memory_same (h : k.Inv) : (fun q => if q = k.current_pid then
    some (privateMemory k.mm.mem k.satp) else k.memory q) = k.memory := by
  funext q
  split
  · next hq => rw [hq, h.memory_current]
  · rfl

theorem Kernel.Inv.root_ne (h : k.Inv) {q : Nat} {x : Home} (hx : k.home q = some x) (hq : q ≠ k.current_pid) :
    x.root ≠ k.satp := by
  intro heq
  obtain ⟨y, hy, hsatp⟩ := h.satp
  exact hq (h.spaces.root_inj q x k.current_pid y hx hy (by rw [heq, hsatp]))

/-- New pages, as the private memory sees them. -/
theorem Extended.pages {home : Nat → Option Home} {r : Nat} {s t : Mm} {flags : PTEFlags} (h : Spaces s home)
    (hext : Extended home r s t) (hr : r ∈ roots home) (hfresh : FreshPages r flags s t) (v : Vpn) :
    privateMemory t.mem r v = privateMemory s.mem r v ∨ (privateMemory s.mem r v = none ∧
      privateMemory t.mem r v = some ⟨flags.mapped, fun _ => 0⟩) := by
  cases hs : leaf s.mem r v with
  | some e => exact Or.inl (hext.old_page h hr hr hs)
  | none =>
    have hnone : privateMemory s.mem r v = none := by
      rw [privateMemory_none]
      unfold userLeaf
      rw [hs]
      rfl
    rcases hext.leaves r hr v with hl | ⟨-, -, e, he, hU, -⟩
    · left
      rw [hnone, privateMemory_none]
      unfold userLeaf
      rw [hl, hs]
      rfl
    · right
      obtain ⟨hflags, hzero⟩ := hfresh v e hs he
      have huser : userLeaf t.mem r v = some e := by
        unfold userLeaf
        rw [he]
        simp [Option.filter, hU]
      refine ⟨hnone, ?_⟩
      rw [privateMemory_some huser]
      unfold pageAt
      rw [hflags]
      congr 2
      funext i
      exact hzero _ (by unfold InFrame; omega)

/-- The memories of the others, while the caller gets new pages. -/
theorem Extended.others (h : k.Inv) {mm : Mm} (hext : Extended k.home k.satp k.mm mm) :
    ∀ q y, k.home q = some y → q ≠ k.current_pid →
      privateMemory mm.mem y.root = privateMemory k.mm.mem y.root := by
  intro q y hy hq
  exact hext.other_memory h.spaces h.root_mem (root_mem hy) (h.root_ne hy hq)

theorem brk_memory (h : k.Inv) {addr : Nat} (hrun : sys_brk addr k = .ok ret k') :
    ∃ u, (privateMemory k.mm.mem k.satp).Extended u ∧
      k'.memory = fun q => if q = k.current_pid then some u else k.memory q := by
  obtain ⟨proc, hcur, hpt, hhome⟩ := h.current
  obtain ⟨mm, b, hmm, -, -, -, -, -, hprocs, hloop⟩ := sys_brk_cases hcur hrun
  have hhome' : k'.home = k.home := by
    funext q
    unfold Kernel.home
    rw [hprocs]
    split
    · next hq => rw [hq, show k.procs[k.current_pid]? = some proc from hcur]; rfl
    · rfl
  have hext : Extended k.home k.satp k.mm mm ∧ FreshPages k.satp (.U ||| .R ||| .W) k.mm mm := by
    rcases hloop with rfl | ⟨lo, hi, hloop⟩
    · exact ⟨Extended.refl h.spaces h.flags, FreshPages.refl _ _ _⟩
    · rw [hpt] at hloop
      exact map_all_fresh h.root_mem (by decide) (fun page => page) (pages lo hi) h.spaces h.flags hloop
  refine ⟨privateMemory mm.mem k.satp, hext.1.pages h.spaces h.root_mem hext.2, ?_⟩
  have hown : k'.memory = fun q => if q = k.current_pid then some (privateMemory k'.mm.mem k.satp)
      else k.memory q := by
    have hcur' : k'.home k.current_pid = some ⟨k.satp, proc.kernel_stack⟩ := by
      rw [hhome']
      exact hhome
    apply memory_own hcur'
    · intro q _
      rw [hhome']
    · rw [hmm]
      exact hext.1.others h
  rw [hown, hmm]

theorem mmap_memory (h : k.Inv) {addr len : Nat} {prot flags fd : Int} {offset : Nat}
    (hg : ∀ p ∈ (user (k.mmap_at addr flags)).span (pageUp len), k.UserSide p.addr)
    (hroom : k.mm.pages.current + 12288 * (pages 0 (pageUp len)).length ≤ 0x8600_0000)
    (hrun : sys_mmap addr len prot flags fd offset k = .ok ret k') :
    ∃ u, (privateMemory k.mm.mem k.satp).Grown u ∧
      k'.memory = fun q => if q = k.current_pid then some u else k.memory q := by
  obtain ⟨proc, hcur, hpt, hhome⟩ := h.current
  obtain ⟨mm, base, hloop, hfill⟩ := sys_mmap_cases hcur hrun
  rw [hpt] at hloop
  obtain ⟨hext, hused⟩ := (map_all_wp h.spaces h.flags h.root_mem (pages 0 (pageUp len))
    (fun page => wadd (k.mmap_at addr flags) page) (prot_flags_user prot)).ok hloop
  obtain ⟨-, hfresh⟩ := map_all_fresh h.root_mem (prot_flags_user prot)
    (fun page => wadd (k.mmap_at addr flags) page) (pages 0 (pageUp len)) h.spaces h.flags hloop
  obtain ⟨hinv, -⟩ := hext.keeps h
  have hinv' : ({ k with mm := mm, mmap_base := base } : Kernel).Inv :=
    hinv.congr rfl rfl rfl rfl rfl
  -- the pages, then the bytes
  obtain ⟨u, hgrown, -, hmem, -⟩ := io_memory hinv' (hused.trans hroom) (by
    intro e he _
    have hmem := mmap_fill_trace he
    refine Kernel.storeOk_user hmem ?_
    intro x hx
    rcases hext.leaves k.satp h.root_mem (Vpn.of e.ptr.addr) with hl | ⟨-, -, e', he', hU, -⟩
    · exact hg e.ptr hmem x (hl ▸ hx)
    · rw [show leaf mm.mem k.satp (Vpn.of e.ptr.addr) = some x from hx] at he'
      cases he'
      exact hU) hfill
  have hpages : (privateMemory k.mm.mem k.satp).Grown (privateMemory mm.mem k.satp) := by
    intro v p hp
    rcases hext.pages h.spaces h.root_mem hfresh v with hv | ⟨hnone, -⟩
    · exact ⟨p, hv.trans hp, rfl, fun _ => rfl⟩
    · rw [hp] at hnone
      cases hnone
  refine ⟨u, hpages.trans hgrown, ?_⟩
  rw [hmem]
  funext q
  show (if q = k.current_pid then some u else _) = _
  split
  · rfl
  · next hq =>
    have hown : ({ k with mm := mm, mmap_base := base } : Kernel).memory =
        fun q => if q = k.current_pid then some (privateMemory mm.mem k.satp) else k.memory q :=
      memory_own (show ({ k with mm := mm, mmap_base := base } : Kernel).home k.current_pid = _ from hhome)
        (fun _ _ => rfl) (hext.others h)
    rw [hown]
    exact if_neg hq

/-- Nothing below the cursor has changed, and no process has moved. -/
theorem Kernel.Inv.memory_beside (h : k.Inv) (hhome : k'.home = k.home)
    (hbytes : ∀ a, a < k.mm.pages.current → k'.mm.mem a = k.mm.mem a) : k'.memory = k.memory := by
  funext q
  unfold Kernel.memory
  rw [hhome]
  cases hy : k.home q with
  | none => rfl
  | some y => rw [Option.map_some, Option.map_some, h.spaces.memory_below (Rvos.root_mem hy) hbytes]

/-- `exec_process` changes the table of its caller alone. -/
theorem exec_process_home {pid : Nat} {data : List UInt8} {argv envp : List Path} {o : Option Nat}
    (hrun : exec_process env pid data argv envp k = .ok o k') {q : Nat} (hq : q ≠ pid) :
    k'.home q = k.home q := by
  rcases exec_process_cases hrun with ⟨-, mm, -, rfl⟩ | ⟨pt, mm1, mm2, loaded, k3, -, -, hload, hend⟩
  · rfl
  · have hrest := (rest_load_program env pt data argv envp).of_ok hload
    simp only [Kernel.rest, Prod.mk.injEq] at hrest
    unfold Kernel.home
    rcases hend with ⟨-, -, rfl⟩ | ⟨elf, max_end, -, -, rfl⟩
    · rw [hrest.2.1]
    · rw [Assoc.get_modify, if_neg hq, hrest.2.1]

theorem execve_memory (h : k.Inv) {path argv envp : Nat}
    (hroom : k.mm.pages.current + 4096 * newFrames ≤ 0x8600_0000)
    (hfit : ∀ name argv' envp', (execve_args k path argv envp).run' [] = some (name, argv', envp') →
      StackFits (argv' ++ with_path envp'))
    (hrun : sys_execve env path argv envp k = .ok ret k') :
    ∃ u, (ret ≠ 0 → u = privateMemory k.mm.mem k.satp) ∧
      k'.memory = fun q => if q = k.current_pid then some u else k.memory q := by
  rcases sys_execve_cases hrun with ⟨-, io, rfl⟩ |
    ⟨name, argv', envp', data, o, k1, hargs, -, hexec, hend⟩
  · exact ⟨_, fun _ => rfl, h.memory_same.symm⟩
  · obtain ⟨-, hbeside, hhome, x, hx⟩ := exec_process_keeps h hroom (hfit _ _ _ hargs) hexec
    rcases hend with ⟨rfl, -, rfl⟩ | ⟨sp, rfl, hret, rfl⟩
    · refine ⟨_, fun _ => rfl, ?_⟩
      rw [h.memory_same]
      exact h.memory_beside (hhome rfl) hbeside.bytes
    · refine ⟨privateMemory k1.mm.mem x.root, fun hne => absurd hret hne, ?_⟩
      have hmem : (k1.exec_enter sp argv'.length).memory = k1.memory := by
        unfold Kernel.exec_enter
        split <;> rfl
      rw [hmem]
      apply memory_own hx
      · intro q hq
        exact exec_process_home hexec hq
      · intro q y hy _
        exact h.spaces.memory_below (root_mem hy) hbeside.bytes

/-- **`clone`**: the child has a copy of the caller's memory. -/
theorem clone_memory (h : k.Inv) (hlive : k.table.Live) {stack : Nat} (hrun : sys_clone stack k = .ok ret k') :
    k'.memory = (Turn.mk k.current_pid [] 220 ret).after (privateMemory k.mm.mem k.satp)
      (privateMemory k.mm.mem k.satp) k.memory := by
  have hpid : ∀ q x, k.home q = some x → q < k.next_pid := by
    intro q x hx
    obtain ⟨p, hp, -⟩ := Option.map_eq_some_iff.mp hx
    refine (hlive.ok.entry q p.entry ?_).2.1
    rw [Kernel.table_get, hp]
    rfl
  obtain ⟨-, hbytes⟩ := sys_clone_keeps h hpid hrun
  rcases sys_clone_cases hrun with ⟨hret, mm, hfail, rfl⟩ |
    ⟨hret, p, pt, kstack, mm1, mm2, hp, hc, hs, hmm, -, hprocs, hcurpid, hsatp, -⟩
  · have hsame : ({ k with mm := mm } : Kernel).memory = k.memory := h.memory_beside rfl hbytes
    rw [hsame]
    funext q
    unfold Turn.after
    rw [if_neg (fun hh : 220 = 220 ∧ ret = q => by omega), if_neg (fun hh : 220 = 260 ∧ ret = q => by omega)]
    exact (congrFun h.memory_same q).symm
  · obtain ⟨parent, hcur, hpt, hhome⟩ := h.current
    rw [hcur] at hp
    cases hp
    rw [hpt] at hc
    rcases (clone_user_space_wp h.spaces.own h.root_mem).ok hc with ⟨r', hr', -, hb, -, hcopy, -⟩ | ⟨hno, -⟩
    · cases hr'
      rcases alloc_pages_two_cases hb.own.tables.ok with ⟨hroom, halloc⟩ | ⟨-, halloc⟩
      · rw [halloc] at hs
        cases hs
        obtain ⟨hb2, hsame2⟩ := hb.stackPages hroom
        have hhome' : ∀ q, k'.home q = if q = k.next_pid then
            some ⟨r', mm1.pages.current + 8192⟩ else k.home q := by
          intro q
          unfold Kernel.home
          rw [hprocs]
          split
          · rw [Option.map_some, Process.home_onStack]
            rfl
          · rfl
        -- the copy, and the two frames taken after it
        have hchild : privateMemory k'.mm.mem r' = privateMemory k.mm.mem k.satp := by
          funext v
          have hlater : privateMemory k'.mm.mem r' v = privateMemory mm1.mem r' v := by
            rw [hmm]
            apply privateMemory_page (leaf_of_same (hsame2 r' hb.root) v)
            intro f hu a hin
            have hbelow := hb.own.user_below r' hb.root v f hu
            unfold InFrame at hin
            have hcur1 : mm1.take.pages.current = mm1.pages.current + 4096 := rfl
            rw [take_mem_out (Or.inl (by omega)), take_mem_out (Or.inl (by omega))]
          rw [hlater]
          cases hu : userLeaf k.mm.mem k.satp v with
          | none => rw [privateMemory_none.mpr hu, privateMemory_none, hcopy.others v (Or.inr hu)]
          | some e =>
            obtain ⟨f, e', he', hppn, hflags, hpage⟩ := hcopy.copied v (Set.mem_univ v) e hu
            rw [privateMemory_some hu, privateMemory_some he']
            unfold pageAt
            rw [hflags, h.flags _ h.root_mem v e hu, hppn]
            congr 2
            funext i
            exact hpage i i.isLt
        have hlt := hpid _ _ hhome
        funext q
        unfold Turn.after
        by_cases hq : q = k.current_pid
        · rw [if_pos hq, hq, Kernel.memory_of (x := ⟨k.satp, p.kernel_stack⟩)
            (by rw [hhome', if_neg (Nat.ne_of_lt hlt), hhome])]
          rw [h.spaces.memory_below h.root_mem hbytes]
        · rw [if_neg hq]
          by_cases hnew : q = k.next_pid
          · rw [if_pos ⟨rfl, by rw [hret, hnew]⟩, hnew, Kernel.memory_of (by rw [hhome', if_pos rfl]), hchild]
          · rw [if_neg (fun hh : 220 = 220 ∧ ret = q => by omega),
              if_neg (fun hh : 220 = 260 ∧ ret = q => by omega)]
            unfold Kernel.memory
            rw [hhome', if_neg hnew]
            cases hy : k.home q with
            | none => rfl
            | some y => rw [Option.map_some, Option.map_some, h.spaces.memory_below (root_mem hy) hbytes]
      · rw [halloc] at hs
        cases hs
    · cases hno

/-- **`wait4`** stores the status, and takes the memory of the child away. -/
theorem wait4_memory (h : k.Inv) (hlive : k.table.Live) {pid options : Int} {wstatus : Nat}
    (hroom : k.mm.pages.current ≤ 0x8600_0000)
    (hg : wstatus ≠ 0 → ∀ p ∈ (user wstatus).span 8, k.UserSide p.addr)
    (hrun : sys_wait4 pid wstatus options k = .ok ret k') :
    ∃ u, (privateMemory k.mm.mem k.satp).Grown u ∧
      (∀ v, privateMemory k.mm.mem k.satp v = none → u v = none) ∧
      k'.memory = (Turn.mk k.current_pid [] 260 ret).after (privateMemory k.mm.mem k.satp) u k.memory := by
  rcases sys_wait4_cases hrun with ⟨z, proc, k1, hz, hret, hsame, hstore, rfl⟩ | ⟨-, hret, rfl⟩
  · -- the status is stored
    have h1 : ∃ u, (privateMemory k.mm.mem k.satp).Grown u ∧
        (∀ v, privateMemory k.mm.mem k.satp v = none → u v = none) ∧
        k1.memory = fun q => if q = k.current_pid then some u else k.memory q := by
      by_cases hw : wstatus = 0
      · rw [hsame hw]
        exact ⟨_, PrivateMemory.Grown.refl _, fun _ hv => hv, h.memory_same.symm⟩
      · obtain ⟨u, hgrown, hnone, hmem, -⟩ := io_memory h hroom (by
          intro e he _
          have hmem := (trace_storeBytes _ he).2
          exact Kernel.storeOk_user hmem (hg hw e.ptr hmem)) (hstore hw)
        exact ⟨u, hgrown, hnone, hmem⟩
    obtain ⟨u, hgrown, hnone, hmem⟩ := h1
    refine ⟨u, hgrown, hnone, ?_⟩
    have hne : z ≠ k.current_pid := by
      intro heq
      have hget := Std.TreeMap.mem_toList_iff_getElem?_eq_some.mp (List.mem_of_find?_eq_some hz)
      have hzombie := List.find?_some hz
      obtain ⟨e, he, hstate⟩ := hlive.current
      rw [Kernel.table_get, show k.table.current = z from heq.symm, hget] at he
      cases he
      simp only [Bool.and_eq_true, beq_iff_eq] at hzombie
      have hz' : proc.entry.state = .Zombie := hzombie.1.2
      rcases hstate with hs | hs <;> rw [hz'] at hs <;> cases hs
    funext q
    have herase : ({ k1 with procs := k1.procs.erase z } : Kernel).memory q =
        if q = z then none else k1.memory q := by
      unfold Kernel.memory Kernel.home
      rw [Assoc.get_erase]
      split <;> rfl
    rw [herase, show k1.memory q = if q = k.current_pid then some u else k.memory q from congrFun hmem q]
    unfold Turn.after
    rw [if_neg (fun hh : 260 = 220 ∧ ret = q => by omega)]
    by_cases hq : q = k.current_pid
    · rw [if_neg (by omega), if_pos hq, if_pos hq]
    · by_cases hqz : q = z
      · rw [if_pos hqz, if_neg hq, if_pos ⟨rfl, by rw [hret, hqz]⟩]
      · rw [if_neg hqz, if_neg hq, if_neg hq, if_neg (fun hh : 260 = 260 ∧ ret = q => by omega)]
  · refine ⟨_, PrivateMemory.Grown.refl _, fun _ hv => hv, ?_⟩
    rw [Turn.after_own (show (260 : Nat) ≠ 220 by decide)]
    · exact h.memory_same.symm
    · intro _ q hq
      obtain rfl : q = 0 := by
        have hq' : ret = q := hq
        split at hret <;> omega
      exact memory_zero hlive

theorem exit_memory (h : k.Inv) {code : Int} (hrun : sys_exit code k = .ok ret k') : k'.memory = k.memory := by
  rw [sys_exit_eq] at hrun
  cases hrun
  have hwoken : ∀ p : Process, p.woken.home = p.home := by
    intro p
    unfold Process.woken
    split <;> rfl
  apply h.memory_beside
  · exact (home_modify hwoken _).trans (home_modify (f := Process.exited code) (fun _ => rfl) k)
  · intro a _
    rfl

/-- **The calls**, as the private memories see them. -/
theorem dispatch_memory (h : k.Inv) (hlive : k.table.Live) (hg : Guard env k num args)
    (hrun : dispatch env num args k = .ok ret k') (stores : List (Nat × UInt8)) :
    ∃ u, (privateMemory k.mm.mem k.satp).Called num ret u ∧
      k'.memory = (Turn.mk k.current_pid stores num ret).after (privateMemory k.mm.mem k.satp) u k.memory := by
  -- most calls neither create nor remove a process
  have hown : ∀ {u : PrivateMemory}, num ≠ 220 → num ≠ 260 →
      (k'.memory = fun q => if q = k.current_pid then some u else k.memory q) →
      k'.memory = (Turn.mk k.current_pid stores num ret).after (privateMemory k.mm.mem k.satp) u k.memory := by
    intro u hfork hwait hmem
    rw [hmem, Turn.after_own (show (Turn.mk k.current_pid stores num ret).num ≠ 220 from hfork)]
    intro hnum
    exact absurd hnum hwait
  have hstill : num ≠ 220 → num ≠ 260 → k'.memory = k.memory → ∃ u,
      (privateMemory k.mm.mem k.satp).Called num ret u ∧ k'.memory =
        (Turn.mk k.current_pid stores num ret).after (privateMemory k.mm.mem k.satp) u k.memory := by
    intro hfork hwait hmem
    exact ⟨_, PrivateMemory.Called.refl num ret _, hown hfork hwait (hmem.trans h.memory_same.symm)⟩
  cases dispatch_cases hrun with
  | io c hnum hio hc =>
    simp only [processCalls, List.mem_cons, List.not_mem_nil, or_false, not_or] at hnum
    have hio' := io_memory h hg.room (by
      rcases hc with hc | rfl
      · exact hg.io c hc
      · intro e he _
        cases he) hio
    obtain ⟨u, hgrown, hnone, hmem, -⟩ := hio'
    refine ⟨u, PrivateMemory.Called.bytes hgrown hnone ?_ hnum.2.2.1, hown hnum.2.2.2.1 hnum.2.2.2.2.2.2 hmem⟩
    exact ⟨hnum.1, hnum.2.1, hnum.2.2.2.1, hnum.2.2.2.2.1⟩
  | quiet hnum hk =>
    simp only [processCalls, List.mem_cons, List.not_mem_nil, or_false, not_or] at hnum
    exact hstill hnum.2.2.2.1 hnum.2.2.2.2.2.2 (by rw [hk])
  | exit hnum hexit => exact hstill (by omega) (by omega) (exit_memory h hexit)
  | brk hnum hbrk =>
    obtain ⟨u, hext, hmem⟩ := brk_memory h hbrk
    refine ⟨u, ⟨fun hs => by omega, fun _ => hext.grown, fun hne => absurd hnum hne, fun _ => hext⟩, ?_⟩
    exact hown (by omega) (by omega) hmem
  | clone hnum hclone =>
    subst hnum
    exact ⟨_, PrivateMemory.Called.refl 220 ret _, clone_memory h hlive hclone⟩
  | execve hnum hexec =>
    obtain ⟨u, hsame, hmem⟩ := execve_memory h (hg.execve hnum).1 (hg.execve hnum).2 hexec
    refine ⟨u, ⟨?_, ?_, fun _ hne => absurd hnum hne, fun hb => by omega⟩, hown (by omega) (by omega) hmem⟩
    · intro hs
      exact hsame (by omega)
    · intro hs
      rw [hsame fun h0 => hs ⟨hnum, h0⟩]
      exact PrivateMemory.Grown.refl _
  | mmap hnum hmmap =>
    obtain ⟨u, hgrown, hmem⟩ := mmap_memory h (hg.mmap hnum).2 (hg.mmap hnum).1 hmmap
    refine ⟨u, ⟨fun hs => by omega, fun _ => hgrown, fun _ _ hne => absurd hnum hne, fun hb => by omega⟩, ?_⟩
    exact hown (by omega) (by omega) hmem
  | wait4 hnum hwait =>
    subst hnum
    obtain ⟨u, hgrown, hnone, hmem⟩ := wait4_memory h hlive hg.room (hg.wait4 rfl) hwait
    exact ⟨u, PrivateMemory.Called.bytes hgrown hnone (by decide) (by decide), hmem⟩

end Calls

/-! ## Section 5: Runs -/

/-- What the kernel's state is as an abstract machine. -/
def Kernel.machine (k : Kernel) : Machine := ⟨k.current_pid, k.memory⟩

/-- The turn that a trap of the process `pid` is. -/
def Trap.turn (l : Trap) (pid : Nat) : Turn := ⟨pid, l.burst.stores, (l.burst.x 17).toNat, l.ret⟩

section Runs

variable {env : Env} {s0 s s1 t : System} {l : Trap} {ls ls' : List Trap} {q : Nat}

/-- Entering the kernel writes to the caller's kernel stack. -/
theorem System.Inv.enter_stack (h : s.Inv) {m : Mem}
    (hm : user_stores s.k.satp s.k.mm.mem l.burst.stores = some m) :
    (s.k.withMem m).StackOnly ((s.k.withMem m).enter (s.trapCpu l)) := by
  obtain ⟨p, hcur, -, hhome⟩ := h.kernel.current
  have htf : (s.trapCpu l).tf = wsub p.kernel_stack frameSize :=
    congrArg (wsub · frameSize) (h.scratch p hcur)
  have h0 : (s.k.withMem m).Inv := h.kernel.user_stores hm
  refine h0.stack_only (show (s.k.withMem m).home s.k.current_pid = _ from hhome) ?_ ?_ ?_
  · rfl
  · rfl
  · intro a ha
    rw [show wsub (Home.mk s.k.satp p.kernel_stack).stack frameSize = (s.trapCpu l).tf from htf.symm] at ha
    exact enter_out ha

/-- Entering the kernel leaves all memories alone. -/
theorem System.Inv.enter_memory (h : s.Inv) {m : Mem}
    (hm : user_stores s.k.satp s.k.mm.mem l.burst.stores = some m) :
    ((s.k.withMem m).enter (s.trapCpu l)).memory = (s.k.withMem m).memory :=
  (h.enter_stack hm).memory (h.kernel.user_stores hm)

/-- **A step is a turn** of the abstract model. -/
theorem Step.turn (h : s.Inv) (hg : s.Guarded env l) (hstep : Step env s l t) :
    Turns s.k.memory (l.turn s.k.current_pid) t.k.memory := by
  obtain ⟨-, k1, k2, hin, -⟩ := Step.keeps h hg hstep
  have hrest := hin.rest.memory hin.after
  have hguard := hg k1 hin.call
  have hbefore := hin.before
  have hrun := hin.run
  obtain ⟨m, hm, hk1⟩ := hin.call
  obtain ⟨hown, hothers⟩ := user_stores_memory h.kernel hm
  have henter := h.enter_memory hm
  have h0 : (s.k.withMem m).Inv := h.kernel.user_stores hm
  have hlive1 : k1.table.Live := by
    rw [hk1]
    exact h.live
  have hpid1 : k1.current_pid = s.k.current_pid := by rw [hk1]; rfl
  rw [← hk1] at henter
  -- what the caller has when it makes its call
  have hcaller : privateMemory k1.mm.mem k1.satp = privateMemory m s.k.satp := by
    have h1 := hbefore.memory_current
    rw [hpid1, henter] at h1
    exact Option.some.inj (h1.symm.trans h0.memory_current)
  obtain ⟨u, hcalled, hmem⟩ := dispatch_memory hbefore hlive1 hguard hrun l.burst.stores
  rw [hcaller] at hcalled hmem
  refine ⟨privateMemory s.k.mm.mem s.k.satp, privateMemory m s.k.satp, u, h.kernel.memory_current, hown,
    hcalled, ?_⟩
  rw [hrest, hmem, hpid1, henter]
  funext q
  unfold Turn.after
  by_cases hq : q = s.k.current_pid
  · rw [if_pos hq]
    exact (if_pos hq).symm
  · have hkept : (s.k.withMem m).memory q = s.k.memory q := by
      unfold Kernel.memory
      cases hx : s.k.home q with
      | none => rw [show (s.k.withMem m).home q = none from hx]; rfl
      | some x =>
        rw [show (s.k.withMem m).home q = some x from hx, Option.map_some, Option.map_some]
        exact congrArg some (hothers q x hx hq)
    rw [hkept]
    rfl

/-- The first process makes a child, which then runs. -/
theorem first_clone : ∃ s t l, CalmStart Env.quiet s ∧
    LTS.guarded (System.Guarded Env.quiet) (Step Env.quiet) s l t ∧ (s.trapCpu l).num = 220 ∧ l.ret = 2 ∧
    (t.Inv ∧ t.k.Roomy 29) ∧
    t.k.table = ⟨[(1, ⟨1, 0, .Ready, 0⟩), (2, ⟨2, 1, .Running, 0⟩)], 2, 3⟩ := by
  obtain ⟨s, hs, hroom, -⟩ := start_exists fun _ => 0
  obtain ⟨t, ⟨l, hl, hshow, hguard, -⟩, ht, hroomy, htable⟩ := script_step Env.quiet
    (fun _ _ => 0) .clone ⟨1, 220, ⟨0, 0, 0, 0, 0, 0⟩, 2, false⟩
    ⟨[(1, ⟨1, 0, .Ready, 0⟩), (2, ⟨2, 1, .Running, 0⟩)], 2, 3⟩ hs.inv hroom
    (by rw [hs.start.table]; decide +kernel)
  exact ⟨s, t, l, hs, ⟨hguard, hl⟩, hshow.num.symm, hshow.ret.symm, ⟨ht, hroomy⟩, htable⟩

/-- **Private memories.**  A run whose calls meet their guards is a run of the
    abstract model, one turn for each trap; and what user code can load at its end
    is what its private memory holds. -/
theorem memories_refine (hstart : CalmStart env s)
    (hrun : LTS.Steps (LTS.guarded (System.Guarded env) (Step env)) s ls t) :
    (∃ es, List.Forall₂ (fun l e => ∃ pid, e = l.turn pid) ls es ∧
        LTS.Steps Machine.Step s.k.machine es t.k.machine) ∧
      ∀ va, (user_translate t.k.mm.mem t.k.satp false va).map t.k.mm.mem =
        (t.k.memory t.k.current_pid).bind fun u => u.load va := by
  have hinv := calm_run hstart hrun
  constructor
  · clear hinv
    induction hrun with
    | nil => exact ⟨[], List.Forall₂.nil, LTS.Steps.nil _⟩
    | @snoc s1 t1 ls l hpre hl ih =>
      obtain ⟨es, hes, habs⟩ := ih
      have hone : List.Forall₂ (fun l e => ∃ pid, e = Trap.turn l pid) [l] [l.turn s1.k.current_pid] :=
        List.Forall₂.cons ⟨_, rfl⟩ List.Forall₂.nil
      refine ⟨es ++ [l.turn s1.k.current_pid], List.rel_append hes hone, ?_⟩
      exact LTS.Steps.snoc _ habs ⟨rfl, Step.turn (calm_run hstart hpre) hl.1 hl.2⟩
  · intro va
    rw [hinv.kernel.memory_current, user_load_memory hinv.kernel]
    rfl

/-- A run in which the first process makes a child. -/
theorem memories_refine_clone : ∃ s t l es, CalmStart Env.quiet s ∧
    LTS.Steps (LTS.guarded (System.Guarded Env.quiet) (Step Env.quiet)) s [l] t ∧
    LTS.Steps Machine.Step s.k.machine es t.k.machine := by
  obtain ⟨s, t, l, hs, hl, -, -, -, -⟩ := first_clone
  have hrun : LTS.Steps (LTS.guarded (System.Guarded Env.quiet) (Step Env.quiet)) s [l] t := LTS.Steps.single hl
  obtain ⟨⟨es, -, habs⟩, -⟩ := memories_refine hs hrun
  exact ⟨s, t, l, es, hs, hrun, habs⟩

/-- A process that has no turn: its memory is as it was, or it has been waited for. -/
theorem Step.memory_other (h : s.Inv) (hg : s.Guarded env l) (hstep : Step env s l t)
    (hq : s.k.current_pid ≠ q) (hlt : q < s.k.next_pid) :
    t.k.memory q = s.k.memory q ∨ t.k.memory q = none := by
  obtain ⟨u, u1, u2, -, -, -, hM⟩ := Step.turn h hg hstep
  rw [hM]
  unfold Turn.after
  rw [if_neg (fun hh => hq hh.symm)]
  split
  · next hfork =>
    -- the child's number is new
    obtain ⟨-, k1, k2, hin, -⟩ := Step.keeps h hg hstep
    have hnext : k1.next_pid = s.k.next_pid := by
      obtain ⟨m, -, hk1⟩ := hin.call
      rw [hk1]
      rfl
    have hrun := hin.run
    rw [show (s.trapCpu l).num = 220 from hfork.1] at hrun
    rcases sys_clone_cases (show sys_clone _ k1 = .ok l.ret k2 from hrun) with ⟨hret, -⟩ | ⟨hret, -⟩
    · have := hfork.2
      exact absurd this (by show l.ret ≠ q; omega)
    · have := hfork.2
      exact absurd this (by show l.ret ≠ q; omega)
  · split
    · exact Or.inr rfl
    · exact Or.inl rfl

/-- The same over a run. -/
theorem System.Inv.memory_away (hinv : s.Inv) {u : PrivateMemory} (hu : s.k.memory q = some u)
    (haway : LTS.Steps (LTS.guarded (fun s l => s.Guarded env l ∧ s.k.current_pid ≠ q) (Step env)) s ls t) :
    t.Inv ∧ (t.k.memory q = some u ∨ t.k.memory q = none) := by
  have hlt : q < s.k.next_pid := by
    cases hx : s.k.home q with
    | none => rw [Kernel.memory_eq_none.mpr hx] at hu; cases hu
    | some x =>
      obtain ⟨p, hp, -⟩ := Option.map_eq_some_iff.mp hx
      exact (hinv.live.ok.entry q p.entry (by rw [Kernel.table_get, hp]; rfl)).2.1
  -- the number of the process stays in use: a new child gets another one
  have hkeep : ∀ s l t, (s.Inv ∧ q < s.k.next_pid ∧ (s.k.memory q = some u ∨ s.k.memory q = none)) →
      LTS.guarded (fun s l => s.Guarded env l ∧ s.k.current_pid ≠ q) (Step env) s l t →
      t.Inv ∧ q < t.k.next_pid ∧ (t.k.memory q = some u ∨ t.k.memory q = none) := by
    intro s l t hs hl
    obtain ⟨hi, hq, hmem⟩ := hs
    obtain ⟨⟨hg, hne⟩, hstep⟩ := hl
    refine ⟨(Step.keeps hi hg hstep).1, Nat.lt_of_lt_of_le hq (Step.next_pid_le hi hstep), ?_⟩
    rcases Step.memory_other hi hg hstep hne hq with hsame | hgone
    · rw [hsame]
      exact hmem
    · exact Or.inr hgone
  obtain ⟨hi, -, hmem⟩ := LTS.Steps.invariant hkeep haway ⟨hinv, hlt, Or.inl hu⟩
  exact ⟨hi, hmem⟩

/-- **The child of a `clone`** finds at its first turn the memory that its parent
    had when it made the call, whatever has run in between. -/
theorem child_finds_copy (hstart : CalmStart env s0)
    (hrun : LTS.Steps (LTS.guarded (System.Guarded env) (Step env)) s0 ls s)
    (hg : s.Guarded env l) (hstep : Step env s l s1) (hnum : (s.trapCpu l).num = 220) (hret : l.ret = q)
    (haway : LTS.Steps (LTS.guarded (fun s l => s.Guarded env l ∧ s.k.current_pid ≠ q) (Step env)) s1 ls' t)
    (hnow : t.k.current_pid = q) :
    ∃ k, s.AtCall l k ∧ t.k.memory q = k.memory s.k.current_pid := by
  have hinv := calm_run hstart hrun
  obtain ⟨hinv1, k1, k2, hin, -⟩ := Step.keeps hinv hg hstep
  refine ⟨k1, hin.call, ?_⟩
  obtain ⟨m, hm, hk1⟩ := hin.call
  have h0 : (s.k.withMem m).Inv := hinv.kernel.user_stores hm
  have hcaller : k1.memory s.k.current_pid = some (privateMemory m s.k.satp) := by
    rw [hk1, hinv.enter_memory hm]
    exact h0.memory_current
  -- the copy is handed out by the step itself
  have hchild : s1.k.memory q = some (privateMemory m s.k.satp) := by
    obtain ⟨u, u1, u2, hu, hu1, -, hM⟩ := Step.turn hinv hg hstep
    have hown := (user_stores_memory hinv.kernel hm).1
    rw [show (l.turn s.k.current_pid).pid = s.k.current_pid from rfl, hinv.kernel.memory_current] at hu
    cases hu
    rw [show (l.turn s.k.current_pid).stores = l.burst.stores from rfl, hown] at hu1
    cases hu1
    have hne : q ≠ s.k.current_pid := by
      have hlt := hinv.live.current_lt
      have hnext : k1.next_pid = s.k.next_pid := by
        rw [hk1]
        rfl
      have hclone := hin.run
      rw [hnum] at hclone
      rcases sys_clone_cases (show sys_clone _ k1 = .ok l.ret k2 from hclone) with ⟨hr, -⟩ | ⟨hr, -⟩
      · omega
      · have : s.k.table.next_pid = s.k.next_pid := rfl
        have : s.k.table.current = s.k.current_pid := rfl
        omega
    rw [hM]
    unfold Turn.after
    rw [if_neg (show ¬ q = (l.turn s.k.current_pid).pid from hne)]
    exact if_pos ⟨hnum, hret⟩
  obtain ⟨hinvt, hmem⟩ := hinv1.memory_away hchild haway
  rcases hmem with hkept | hgone
  · rw [hkept, hcaller]
  · rw [← hnow, hinvt.kernel.memory_current] at hgone
    cases hgone

/-- The child of the first process. -/
theorem child_finds_copy_first : ∃ s t l k, CalmStart Env.quiet s ∧ Step Env.quiet s l t ∧
    (s.trapCpu l).num = 220 ∧ t.k.current_pid = 2 ∧ s.AtCall l k ∧
    t.k.memory 2 = k.memory s.k.current_pid := by
  obtain ⟨s, t, l, hs, hl, hnum, hret, -, htable⟩ := first_clone
  have hnow : t.k.current_pid = 2 := congrArg Table.current htable
  obtain ⟨k, hk, hmem⟩ := child_finds_copy (q := 2) hs (LTS.Steps.nil s) hl.1 hl.2 hnum hret (LTS.Steps.nil t) hnow
  exact ⟨s, t, l, k, hs, hl.2, hnum, hnow, hk, hmem⟩

end Runs

end Rvos

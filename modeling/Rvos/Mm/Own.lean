import Rvos.Mm.Tables

/-! # Who owns a frame

    Every frame that has been handed out is a page-table node, a user page of
    one table at one address, a frame of a kernel stack, or unused.  `Own`
    states that these roles never overlap, for the tables with roots in `R` and
    the kernel-stack frames `K`; this is what keeps address spaces apart.

    * `Own`       : the invariant.
    * `Free`      : a frame that is handed out and has no role yet.
    * `Builds`    : the state while a new table is built on top of an old state.
      Everything below the old cursor is untouched, so whatever held of the old
      tables still holds. -/

namespace Rvos

open ByteMem Usize

/-! ## Section 1: Roles -/

/-- The leaf for the page `v`, if it has the `U` flag. -/
def userLeaf (m : Mem) (r : Nat) (v : Vpn) : Option PageTableEntry :=
  (leaf m r v).filter fun e => e.flags.contains .U

/-- The page `v` of the table `r` is a user page, in frame `f`. -/
def UserPage (m : Mem) (r : Nat) (v : Vpn) (f : Nat) : Prop :=
  ∃ e, userLeaf m r v = some e ∧ e.ppn = f

/-- No frame has two roles, and every frame with a role has been handed out. -/
structure Own (s : Mm) (R K : Set Nat) : Prop where
  tables : Tables s R
  user_one : ∀ r ∈ R, ∀ r' ∈ R, ∀ v v' f, UserPage s.mem r v f → UserPage s.mem r' v' f →
    r = r' ∧ v = v'
  user_node : ∀ r ∈ R, ∀ r' ∈ R, ∀ v p f, p.length ≤ 2 → UserPage s.mem r v f →
    node s.mem r' p ≠ some f
  user_below : ∀ r ∈ R, ∀ v f, UserPage s.mem r v f → 4096 * f + 4096 ≤ s.pages.current
  stack_user : ∀ f ∈ K, ∀ r ∈ R, ∀ v, ¬ UserPage s.mem r v f
  stack_node : ∀ f ∈ K, ∀ r ∈ R, ∀ p, p.length ≤ 2 → node s.mem r p ≠ some f
  stack_below : ∀ f ∈ K, 4096 * f + 4096 ≤ s.pages.current

/-- A frame that has been handed out and has no role. -/
structure Free (s : Mm) (R K : Set Nat) (f : Nat) : Prop where
  below : 4096 * f + 4096 ≤ s.pages.current
  node : ∀ r ∈ R, ∀ p, p.length ≤ 2 → node s.mem r p ≠ some f
  user : ∀ r ∈ R, ∀ v, ¬ UserPage s.mem r v f
  stack : f ∉ K

theorem Own.mono {s : Mm} {R R' K K' : Set Nat} (h : Own s R K) (hR : R' ⊆ R) (hK : K' ⊆ K) :
    Own s R' K' where
  tables := h.tables.mono hR
  user_one := fun r hr r' hr' => h.user_one r (hR hr) r' (hR hr')
  user_node := fun r hr r' hr' => h.user_node r (hR hr) r' (hR hr')
  user_below := fun r hr => h.user_below r (hR hr)
  stack_user := fun f hf r hr => h.stack_user f (hK hf) r (hR hr)
  stack_node := fun f hf r hr => h.stack_node f (hK hf) r (hR hr)
  stack_below := fun f hf => h.stack_below f (hK hf)

section Roles

variable {s s' : Mm} {R K : Set Nat} {r f : Nat}

theorem UserPage.congr {m m' : Mem} {v : Vpn} (h : leaf m' r v = leaf m r v) :
    UserPage m' r v f ↔ UserPage m r v f := by
  unfold UserPage userLeaf
  rw [h]

/-- Roles move to any later state in which the tables look the same. -/
theorem Own.transport (h : Own s R K) (hok : s'.Ok)
    (hcur : s.pages.current ≤ s'.pages.current)
    (hsame : ∀ r ∈ R, SameEntries s.mem s'.mem r 2) : Own s' R K := by
  have huser : ∀ r ∈ R, ∀ v f, UserPage s'.mem r v f ↔ UserPage s.mem r v f :=
    fun r hr v f => UserPage.congr (leaf_of_same (hsame r hr) v)
  have hnode : ∀ r ∈ R, ∀ p : List (Fin 512), p.length ≤ 2 →
      node s'.mem r p = node s.mem r p := fun r hr p hp =>
    node_of_same (hsame r hr) (by omega)
  constructor
  · exact h.tables.transport hok hcur fun r hr => (hsame r hr).shallow (by omega)
  · intro r hr r' hr' v v' f h1 h2
    exact h.user_one r hr r' hr' v v' f ((huser r hr v f).mp h1) ((huser r' hr' v' f).mp h2)
  · intro r hr r' hr' v p f hp hu
    rw [hnode r' hr' p hp]
    exact h.user_node r hr r' hr' v p f hp ((huser r hr v f).mp hu)
  · intro r hr v f hu
    exact Nat.le_trans (h.user_below r hr v f ((huser r hr v f).mp hu)) hcur
  · intro f hf r hr v hu
    exact h.stack_user f hf r hr v ((huser r hr v f).mp hu)
  · intro f hf r hr p hp
    rw [hnode r hr p hp]
    exact h.stack_node f hf r hr p hp
  · intro f hf
    exact Nat.le_trans (h.stack_below f hf) hcur

theorem Free.transport (h : Free s R K f)
    (hcur : s.pages.current ≤ s'.pages.current)
    (hsame : ∀ r ∈ R, SameEntries s.mem s'.mem r 2) : Free s' R K f where
  below := Nat.le_trans h.below hcur
  node := by
    intro r hr p hp
    rw [node_of_same (hsame r hr) (by omega)]
    exact h.node r hr p hp
  user := by
    intro r hr v hu
    exact h.user r hr v ((UserPage.congr (leaf_of_same (hsame r hr) v)).mp hu)
  stack := h.stack

/-! ## Section 2: Handing out frames -/

/-- The frame at the cursor has no role. -/
theorem Own.fresh (h : Own s R K) : (∀ r ∈ R, ∀ v, ¬ UserPage s.mem r v s.next) ∧ s.next ∉ K := by
  have hnext := h.tables.ok.next_eq
  constructor
  · intro r hr v hu
    have := h.user_below r hr v _ hu
    omega
  · intro hK
    have := h.stack_below _ hK
    omega

theorem Own.take (h : Own s R K) (hroom : s.pages.current + 4096 ≤ s.pages.end_) :
    Own s.take R K ∧ Free s.take R K s.next := by
  have hsame : ∀ r ∈ R, SameEntries s.mem s.take.mem r 2 := fun r hr => same_take h.tables hr
  have hnext := h.tables.ok.next_eq
  refine ⟨h.transport (h.tables.ok.take hroom) (Nat.le_add_right _ _) hsame, ?_⟩
  constructor
  · show 4096 * s.next + 4096 ≤ s.pages.current + 4096
    omega
  · intro r hr p hp
    rw [node_of_same (hsame r hr) (by omega)]
    exact h.tables.fresh hr hp
  · intro r hr v hu
    exact h.fresh.1 r hr v ((UserPage.congr (leaf_of_same (hsame r hr) v)).mp hu)
  · exact h.fresh.2

/-- A free frame becomes a frame of a kernel stack. -/
theorem Own.stack (h : Own s R K) (hf : Free s R K f) : Own s R (insert f K) where
  tables := h.tables
  user_one := h.user_one
  user_node := h.user_node
  user_below := h.user_below
  stack_user := by
    intro g hg r hr v hu
    rcases Set.mem_insert_iff.mp hg with rfl | hg
    · exact hf.user r hr v hu
    · exact h.stack_user g hg r hr v hu
  stack_node := by
    intro g hg r hr p hp
    rcases Set.mem_insert_iff.mp hg with rfl | hg
    · exact hf.node r hr p hp
    · exact h.stack_node g hg r hr p hp
  stack_below := by
    intro g hg
    rcases Set.mem_insert_iff.mp hg with rfl | hg
    · exact hf.below
    · exact h.stack_below g hg

/-- A free frame becomes the root of an empty table. -/
theorem Own.new (h : Own s R K) (hroom : s.pages.current + 4096 ≤ s.pages.end_) :
    Own s.take (insert s.next R) K := by
  obtain ⟨hown, hfree⟩ := h.take hroom
  obtain ⟨htables, hempty⟩ := tables_new h.tables hroom
  have hnouser : ∀ v f, ¬ UserPage s.take.mem s.next v f := by
    intro v f hu
    obtain ⟨e, he, -⟩ := hu
    simp [userLeaf, hempty v] at he
  -- the new table has one node, its root
  have hroot : ∀ p f, node s.take.mem s.next p = some f → f = s.next := by
    intro p f hf
    cases p with
    | nil => simpa [Rvos.node, eq_comm] using hf
    | cons i p => simp [Rvos.node, Radix.node_cons, child_take h.tables.ok] at hf
  constructor
  · exact htables
  · intro r hr r' hr' v v' f h1 h2
    rcases Set.mem_insert_iff.mp hr with rfl | hr
    · exact absurd h1 (hnouser v f)
    · rcases Set.mem_insert_iff.mp hr' with rfl | hr'
      · exact absurd h2 (hnouser v' f)
      · exact hown.user_one r hr r' hr' v v' f h1 h2
  · intro r hr r' hr' v p f hp hu hn
    rcases Set.mem_insert_iff.mp hr with rfl | hr
    · exact hnouser v f hu
    · rcases Set.mem_insert_iff.mp hr' with rfl | hr'
      · rw [hroot p f hn] at hu
        exact hfree.user r hr v hu
      · exact hown.user_node r hr r' hr' v p f hp hu hn
  · intro r hr v f hu
    rcases Set.mem_insert_iff.mp hr with rfl | hr
    · exact absurd hu (hnouser v f)
    · exact hown.user_below r hr v f hu
  · intro f hf r hr v hu
    rcases Set.mem_insert_iff.mp hr with rfl | hr
    · exact hnouser v f hu
    · exact hown.stack_user f hf r hr v hu
  · intro f hf r hr p hp hn
    rcases Set.mem_insert_iff.mp hr with rfl | hr
    · rw [hroot p f hn] at hf
      exact hfree.stack hf
    · exact hown.stack_node f hf r hr p hp hn
  · exact hown.stack_below

/-! ## Section 3: Mapping a page -/

section Mapped

variable {v : Vpn} {e : PageTableEntry}

theorem Mapped.userLeaf (hm : Mapped R r v e s s') {x : Nat} (hx : x ∈ R) (w : Vpn) :
    userLeaf s'.mem x w = if x = r ∧ w = v then (if e.flags.contains .U then some e else none)
      else userLeaf s.mem x w := by
  unfold Rvos.userLeaf
  rw [hm.leaves x hx w]
  split
  · simp [Option.filter]
  · rfl

/-- The user pages after `map`: those before, and the new one if it is one. -/
theorem Mapped.userPage (hm : Mapped R r v e s s') {x : Nat} (hx : x ∈ R) {w : Vpn}
    (hu : UserPage s'.mem x w f) :
    UserPage s.mem x w f ∨ (x = r ∧ w = v ∧ e.flags.contains .U = true ∧ e.ppn = f) := by
  obtain ⟨e', he', hppn⟩ := hu
  rw [hm.userLeaf hx] at he'
  split at he'
  · next h =>
    split at he'
    · next hU => exact Or.inr ⟨h.1, h.2, hU, by cases he'; exact hppn⟩
    · cases he'
  · exact Or.inl ⟨e', he', hppn⟩

/-- A page is mapped to a frame without a role, or without the `U` flag: no
    frame gets a second role. -/
theorem Own.mapped (h : Own s R K) (hm : Mapped R r v e s s')
    (hfree : e.flags.contains .U = true → Free s R K e.ppn) : Own s' R K := by
  have hcur := hm.grows.cursor
  -- a node of `s'` is a node of `s` or a frame `s` had not handed out
  have hnode : ∀ x ∈ R, ∀ p f, p.length ≤ 2 → Rvos.node s'.mem x p = some f →
      Rvos.node s.mem x p = some f ∨ s.pages.current ≤ 4096 * f := by
    intro x hx p f hp hf
    rcases hm.grows.fresh x hx p f hp hf with hf | hf
    · exact Or.inl hf
    · exact Or.inr hf.2
  constructor
  · exact hm.grows.tables
  · intro x hx x' hx' w w' f h1 h2
    rcases hm.userPage hx h1 with h1 | ⟨hxr, hwv, hU, hf⟩
    · rcases hm.userPage hx' h2 with h2 | ⟨-, -, hU, hf⟩
      · exact h.user_one x hx x' hx' w w' f h1 h2
      · exact absurd h1 (hf ▸ (hfree hU).user x hx w)
    · rcases hm.userPage hx' h2 with h2 | ⟨hxr', hwv', -, -⟩
      · exact absurd h2 (hf ▸ (hfree hU).user x' hx' w')
      · exact ⟨hxr.trans hxr'.symm, hwv.trans hwv'.symm⟩
  · intro x hx x' hx' w p f hp hu hn
    rcases hm.userPage hx hu with hu | ⟨-, -, hU, hf⟩
    · rcases hnode x' hx' p f hp hn with hn | hge
      · exact h.user_node x hx x' hx' w p f hp hu hn
      · have := h.user_below x hx w f hu
        omega
    · rcases hnode x' hx' p f hp hn with hn | hge
      · exact (hfree hU).node x' hx' p hp (hf ▸ hn)
      · have := (hfree hU).below
        omega
  · intro x hx w f hu
    rcases hm.userPage hx hu with hu | ⟨-, -, hU, hf⟩
    · exact Nat.le_trans (h.user_below x hx w f hu) hcur
    · exact Nat.le_trans (hf ▸ (hfree hU).below) hcur
  · intro g hg x hx w hu
    rcases hm.userPage hx hu with hu | ⟨-, -, hU, hf⟩
    · exact h.stack_user g hg x hx w hu
    · exact (hfree hU).stack (hf ▸ hg)
  · intro g hg x hx p hp hn
    rcases hnode x hx p g hp hn with hn | hge
    · exact h.stack_node g hg x hx p hp hn
    · have := h.stack_below g hg
      omega
  · intro g hg
    exact Nat.le_trans (h.stack_below g hg) hcur

/-- The user pages have the flags that `map` sets. -/
def UserFlags (m : Mem) (R : Set Nat) : Prop :=
  ∀ r ∈ R, ∀ v e, userLeaf m r v = some e → e.flags.mapped = e.flags

theorem UserFlags.mono {m : Mem} {R' : Set Nat} (h : UserFlags m R) (hR : R' ⊆ R) :
    UserFlags m R' :=
  fun r hr => h r (hR hr)

theorem UserFlags.same {m m' : Mem} (h : UserFlags m R)
    (hsame : ∀ r ∈ R, SameEntries m m' r 2) : UserFlags m' R := by
  intro r hr v e he
  unfold Rvos.userLeaf at he
  rw [leaf_of_same (hsame r hr) v] at he
  exact h r hr v e he

theorem UserFlags.mapped (h : UserFlags s.mem R) (hm : Mapped R r v e s s') :
    UserFlags s'.mem R := by
  intro x hx w e' he'
  rw [hm.userLeaf hx] at he'
  split at he'
  · split at he'
    · exact Option.some.inj he' ▸ hm.flags
    · cases he'
  · exact h x hx w e' he'

end Mapped

end Roles

/-- `alloc_pages` of two frames hands out both, or refuses. -/
theorem alloc_pages_two_cases {s : Mm} (h : s.Ok) :
    (s.pages.current + 8192 ≤ s.pages.end_ ∧
      alloc_pages 2 s = .ok (some s.pages.current) s.take.take) ∨
    (s.pages.end_ < s.pages.current + 8192 ∧ alloc_pages 2 s = .ok none s) := by
  have hle := h.le_end
  have hend := h.end_le
  have hsize : wmul 2 PAGE_SIZE = 8192 := by rw [wmul_of_lt] <;> simp [PAGE_SIZE]
  have hadd : wadd s.pages.current 8192 = s.pages.current + 8192 := wadd_of_lt (by omega)
  by_cases hroom : s.pages.current + 8192 ≤ s.pages.end_
  · refine Or.inl ⟨hroom, ?_⟩
    have hmem : fill s.mem s.pages.current 8192 0 = s.take.take.mem := by
      funext a
      by_cases hin : s.pages.current ≤ a ∧ a < s.pages.current + 8192
      · rw [fill_in hin.1 hin.2]
        by_cases hlow : a < s.pages.current + 4096
        · rw [take_mem_out (Or.inl hlow), take_mem_fresh hin.1 hlow]
        · exact (take_mem_fresh (s := s.take) (by show s.pages.current + 4096 ≤ a; omega)
            (by show a < s.pages.current + 4096 + 4096; omega)).symm
      · rw [fill_out (by omega), take_mem_out, take_mem_out (by omega)]
        show a < s.pages.current + 4096 ∨ s.pages.current + 4096 + 4096 ≤ a
        omega
    rw [alloc_pages_granted (by rw [hsize, hadd]; exact hroom), hsize, hadd, hmem]
    rfl
  · refine Or.inr ⟨by omega, ?_⟩
    rw [alloc_pages_refused (by rw [hsize, hadd]; omega)]

/-! ## Section 4: Building a table -/

/-- The state while the table `r` is built on top of `s0`: the old tables and
    everything else below the old cursor are as they were, and all frames of the
    new table are new. -/
structure Builds (s0 : Mm) (R K : Set Nat) (r : Nat) (s : Mm) : Prop where
  base : Own s0 R ∅
  own : Own s (insert r R) K
  end_eq : s.pages.end_ = s0.pages.end_
  cursor : s0.pages.current ≤ s.pages.current
  bytes : ∀ a, a < s0.pages.current → s.mem a = s0.mem a
  nodes : ∀ p f, p.length ≤ 2 → node s.mem r p = some f → s0.pages.current ≤ 4096 * f
  users : ∀ v f, UserPage s.mem r v f → s0.pages.current ≤ 4096 * f

section Builds

variable {s0 s s' : Mm} {R K : Set Nat} {r f : Nat} {v : Vpn} {e : PageTableEntry}

theorem Builds.root (_h : Builds s0 R K r s) : r ∈ (insert r R : Set Nat) := Set.mem_insert r R

/-- A new, empty table. -/
theorem Builds.new (h : Own s0 R K) (hroom : s0.pages.current + 4096 ≤ s0.pages.end_) :
    Builds s0 R K s0.next s0.take ∧ ∀ v, leaf s0.take.mem s0.next v = none := by
  have hnext := h.tables.ok.next_eq
  have hempty := (tables_new h.tables hroom).2
  refine ⟨⟨h.mono (Set.Subset.refl R) (Set.empty_subset K), h.new hroom, rfl, Nat.le_add_right _ _,
    fun a ha => take_mem_out (Or.inl ha), ?_, ?_⟩, hempty⟩
  · intro p f _ hf
    cases p with
    | nil =>
      obtain rfl : s0.next = f := by simpa [node] using hf
      omega
    | cons i p => simp [node, Radix.node_cons, child_take h.tables.ok] at hf
  · intro v f hu
    obtain ⟨e, he, -⟩ := hu
    simp [userLeaf, hempty v] at he

/-- Mapping a page in the new table. -/
theorem Builds.mapped (h : Builds s0 R K r s) (hm : Mapped (insert r R) r v e s s')
    (hfree : e.flags.contains .U = true →
      Free s (insert r R) K e.ppn ∧ s0.pages.current ≤ 4096 * e.ppn) :
    Builds s0 R K r s' := by
  have hcur := h.cursor
  refine ⟨h.base, h.own.mapped hm fun hU => (hfree hU).1, hm.grows.end_eq.trans h.end_eq,
    Nat.le_trans hcur hm.grows.cursor, ?_, ?_, ?_⟩
  · intro a ha
    -- `map` writes to nodes of the new table and to fresh frames
    have hkept : s'.mem a = s.mem a := by
      by_contra hne
      rcases hm.grows.bytes a hne with ⟨p, f, hp, hf, hlo, hhi⟩ | hfresh
      · have := h.nodes p f hp hf
        omega
      · omega
    rw [hkept, h.bytes a ha]
  · intro p f hp hf
    rcases hm.grows.fresh r h.root p f hp hf with hf | ⟨-, hge⟩
    · exact h.nodes p f hp hf
    · exact Nat.le_trans hcur hge
  · intro w f hu
    rcases hm.userPage h.root hu with hu | ⟨-, -, hU, hf⟩
    · exact h.users w f hu
    · exact hf ▸ (hfree hU).2

/-- Taking a frame. -/
theorem Builds.take (h : Builds s0 R K r s) (hroom : s.pages.current + 4096 ≤ s.pages.end_) :
    Builds s0 R K r s.take ∧ Free s.take (insert r R) K s.next ∧
      s0.pages.current ≤ 4096 * s.next := by
  obtain ⟨hown, hfree⟩ := h.own.take hroom
  have hcur := h.cursor
  have hnext := h.own.tables.ok.next_eq
  have hsame := same_take h.own.tables h.root
  refine ⟨⟨h.base, hown, h.end_eq, Nat.le_trans hcur (Nat.le_add_right _ _), ?_, ?_, ?_⟩, hfree, by omega⟩
  · intro a ha
    rw [take_mem_out (Or.inl (by omega)), h.bytes a ha]
  · intro p f hp hf
    rw [node_of_same hsame (by omega)] at hf
    exact h.nodes p f hp hf
  · intro w f hu
    exact h.users w f ((UserPage.congr (leaf_of_same hsame w)).mp hu)

/-- A free frame becomes a frame of a kernel stack. -/
theorem Builds.stack (h : Builds s0 R K r s) (hf : Free s (insert r R) K f) :
    Builds s0 R (insert f K) r s :=
  ⟨h.base, h.own.stack hf, h.end_eq, h.cursor, h.bytes, h.nodes, h.users⟩

/-- Two frames become a kernel stack. -/
theorem Builds.stackPages (h : Builds s0 R K r s) (hroom : s.pages.current + 8192 ≤ s.pages.end_) :
    Builds s0 R (insert (s.next + 1) (insert s.next K)) r s.take.take ∧
      ∀ x ∈ (insert r R : Set Nat), SameEntries s.mem s.take.take.mem x 2 := by
  have hend : s.take.pages.end_ = s.pages.end_ := rfl
  have hcur : s.take.pages.current = s.pages.current + 4096 := rfl
  obtain ⟨h1, hfree1, -⟩ := h.take (by omega)
  obtain ⟨h2, hfree2, -⟩ := (h1.stack hfree1).take (by omega)
  have hnext : s.take.next = s.next + 1 := by
    unfold Mm.next
    rw [hcur]
    omega
  rw [hnext] at hfree2
  refine ⟨h2.stack hfree2, ?_⟩
  intro x hx
  refine h.own.tables.same_of_below (fun a ha => ?_) hx
  rw [take_mem_out (Or.inl (by omega)), take_mem_out (Or.inl ha)]

/-- The old tables are as they were. -/
theorem Builds.same (h : Builds s0 R K r s) {x : Nat} (hx : x ∈ R) :
    SameEntries s0.mem s.mem x 2 :=
  h.base.tables.same_of_below h.bytes hx

/-- Writing to bytes of new frames that are not nodes. -/
theorem Builds.write (h : Builds s0 R K r s) {m : Mem}
    (hm : ∀ a, m a ≠ s.mem a → s0.pages.current ≤ a ∧
      ∀ p f, p.length ≤ 2 → node s.mem r p = some f → ¬ (4096 * f ≤ a ∧ a < 4096 * f + 4096)) :
    Builds s0 R K r { s with mem := m } ∧
      ∀ x ∈ (insert r R : Set Nat), SameEntries s.mem m x 2 := by
  have hsame : ∀ x ∈ (insert r R : Set Nat), SameEntries s.mem m x 2 := by
    intro x hx p g hp hg i
    refine entry_congr (fun a h1 h2 => ?_) i
    by_contra hne
    obtain ⟨hlo, hout⟩ := hm a hne
    rcases Set.mem_insert_iff.mp hx with rfl | hx
    · exact hout p g hp hg ⟨h1, h2⟩
    · -- nodes of the old tables lie below the old cursor
      rw [node_of_same (h.same hx) (by omega)] at hg
      have := h.base.tables.below x hx p g hp hg
      omega
  have hr := hsame r h.root
  have hok := h.own.tables.ok
  refine ⟨⟨h.base, h.own.transport ⟨hok.aligned, hok.le_end, hok.end_le⟩ (Nat.le_refl _) hsame,
    h.end_eq, h.cursor, ?_, ?_, ?_⟩, hsame⟩
  · intro a ha
    have hkept : m a = s.mem a := by
      by_contra hne
      have := (hm a hne).1
      omega
    exact hkept.trans (h.bytes a ha)
  · intro p f hp hf
    rw [node_of_same hr (by omega)] at hf
    exact h.nodes p f hp hf
  · intro w f hu
    exact h.users w f ((UserPage.congr (leaf_of_same hr w)).mp hu)

/-- The old tables keep their ownership, whatever becomes of the new one. -/
theorem Builds.drop (h : Builds s0 R K r s) : Own s R K :=
  h.own.mono (Set.subset_insert r R) (Set.Subset.refl K)

end Builds

end Rvos

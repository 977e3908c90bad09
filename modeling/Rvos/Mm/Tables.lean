import Rvos.Mm.PageTable

/-! # Page tables in one physical memory

    The tables with roots in `R` share the memory with each other and with
    everything else.  `Tables s R` is the invariant under which they do not
    disturb one another: no frame is a node twice, and every node lies below
    the cursor of the frame allocator, so that a fresh frame is never a node.

    * `Grows R r s s'` : what any operation on the table `r` may do.
    * `map_spec`, `unmap_spec`, `PageTable.new_spec` : one lemma for each
      operation, in terms of `node` and `leaf`.
    * `translate_eq` : `translate` read off the leaf. -/

namespace Rvos

open ByteMem Usize

/-! ## Section 1: The frame allocator, without wrap-around -/

/-- The cursor is page aligned and within physical memory. -/
structure Mm.Ok (s : Mm) : Prop where
  aligned : 4096 ∣ s.pages.current
  le_end : s.pages.current ≤ s.pages.end_
  end_le : s.pages.end_ ≤ 0x8800_0000

/-- The state after one frame is handed out. -/
def Mm.take (s : Mm) : Mm where
  mem := fill s.mem s.pages.current 4096 0
  pages := { s.pages with current := s.pages.current + 4096 }

/-- `alloc_page` hands out the frame at the cursor, or refuses; the bound keeps
    the addition from wrapping. -/
theorem alloc_page_outcome {s : Mm} (hcur : s.pages.current < 2 ^ 63) :
    (s.pages.current + 4096 ≤ s.pages.end_ ∧
      alloc_page s = .ok (some s.pages.current) s.take) ∨
    (s.pages.end_ < s.pages.current + 4096 ∧ alloc_page s = .ok none s) := by
  have hsize : wmul 1 PAGE_SIZE = 4096 := by rw [wmul_of_lt] <;> simp [PAGE_SIZE]
  have hadd : wadd s.pages.current 4096 = s.pages.current + 4096 := wadd_of_lt (by omega)
  rw [alloc_page_eq]
  by_cases hroom : s.pages.current + 4096 ≤ s.pages.end_
  · refine Or.inl ⟨hroom, ?_⟩
    rw [alloc_pages_granted (by rw [hsize, hadd]; exact hroom), hsize, hadd, Mm.take]
  · refine Or.inr ⟨by omega, ?_⟩
    rw [alloc_pages_refused (by rw [hsize, hadd]; omega)]

theorem alloc_page_cases {s : Mm} (h : s.Ok) :
    (s.pages.current + 4096 ≤ s.pages.end_ ∧
      alloc_page s = .ok (some s.pages.current) s.take) ∨
    (s.pages.end_ < s.pages.current + 4096 ∧ alloc_page s = .ok none s) := by
  have hle := h.le_end
  have hend := h.end_le
  exact alloc_page_outcome (by omega)

theorem Mm.Ok.take {s : Mm} (h : s.Ok) (hroom : s.pages.current + 4096 ≤ s.pages.end_) :
    s.take.Ok where
  aligned := (Nat.dvd_add_right h.aligned).mpr (dvd_refl 4096)
  le_end := hroom
  end_le := h.end_le

/-- The number of the frame at the cursor. -/
def Mm.next (s : Mm) : Nat := s.pages.current / 4096

theorem frame_at_cursor (s : Mm) : s.pages.current >>> PAGE_SIZE_BITS = s.next :=
  Nat.shiftRight_eq_div_pow _ _

theorem Mm.Ok.next_eq {s : Mm} (h : s.Ok) : 4096 * s.next = s.pages.current :=
  Nat.mul_div_cancel' h.aligned

/-- Outside the frame handed out nothing changes. -/
theorem take_mem_out {s : Mm} {a : Nat}
    (h : a < s.pages.current ∨ s.pages.current + 4096 ≤ a) : s.take.mem a = s.mem a :=
  fill_out h

/-- The frame handed out is zero. -/
theorem take_mem_fresh {s : Mm} {a : Nat} (h1 : s.pages.current ≤ a)
    (h2 : a < s.pages.current + 4096) : s.take.mem a = 0 :=
  fill_in h1 h2

/-- Every entry of a zero frame is invalid. -/
theorem entry_zero {m : Mem} {f : Nat}
    (h : ∀ a, 4096 * f ≤ a → a < 4096 * f + 4096 → m a = 0) (i : Fin 512) :
    (entry m f i).is_valid = false := by
  have hi := i.isLt
  have hread : read64 m (4096 * f + 8 * i) = 0 :=
    read64_of_zero fun x h1 h2 => h x (by omega) (by omega)
  rw [entry, pte, hread]
  decide

/-! ## Section 2: The invariant -/

/-- The tables with roots in `R` share no node, all their nodes have been
    handed out, and an entry that names a node has no flag but `V`. -/
structure Tables (s : Mm) (R : Set Nat) : Prop where
  ok : s.Ok
  apart : Radix.Apart (child s.mem) R 2
  below : ∀ r ∈ R, ∀ p f, p.length ≤ 2 → node s.mem r p = some f →
    4096 * f + 4096 ≤ s.pages.current
  inner : ∀ r ∈ R, ∀ p f, p.length ≤ 1 → node s.mem r p = some f → ∀ i,
    (entry s.mem f i).is_valid = true → (entry s.mem f i).flags = .V

theorem Tables.mono {s : Mm} {R R' : Set Nat} (h : Tables s R) (hR : R' ⊆ R) : Tables s R' where
  ok := h.ok
  apart := h.apart.mono hR
  below := fun r hr => h.below r (hR hr)
  inner := fun r hr => h.inner r (hR hr)

theorem Tables.small {s : Mm} {R : Set Nat} (h : Tables s R) {r : Nat} (hr : r ∈ R)
    {p : List (Fin 512)} {f : Nat} (hp : p.length ≤ 2) (hf : node s.mem r p = some f) :
    f < 2 ^ 51 := by
  have h1 := h.below r hr p f hp hf
  have h2 := h.ok.le_end
  have h3 := h.ok.end_le
  omega

/-- No node of a table is the frame at the cursor. -/
theorem Tables.fresh {s : Mm} {R : Set Nat} (h : Tables s R) {r : Nat} (hr : r ∈ R)
    {p : List (Fin 512)} (hp : p.length ≤ 2) : node s.mem r p ≠ some s.next := by
  intro hf
  have h1 := h.below r hr p _ hp hf
  have h2 := h.ok.next_eq
  omega

theorem child_congr {m m' : Mem} {f : Nat} {i : Fin 512} (h : entry m' f i = entry m f i) :
    child m' f i = child m f i := by
  rw [child, child, h]

/-- The nodes of `r` down to depth `d` have the same entries in both memories. -/
def SameEntries (m m' : Mem) (r d : Nat) : Prop :=
  ∀ p f, p.length ≤ d → node m r p = some f → ∀ i, entry m' f i = entry m f i

theorem node_of_same {m m' : Mem} {r d : Nat} (h : SameEntries m m' r d) {p : List (Fin 512)}
    (hp : p.length ≤ d + 1) : node m' r p = node m r p := by
  refine Radix.node_congr fun q i f hpre hf => child_congr (h q f ?_ hf i)
  have := hpre.length_le
  simp at this
  omega

theorem leaf_of_same {m m' : Mem} {r : Nat} (h : SameEntries m m' r 2) (v : Vpn) :
    leaf m' r v = leaf m r v := by
  rw [leaf, leaf, node_of_same h (by simp)]
  cases hf : node m r [v.i, v.j] with
  | none => simp
  | some f => simp only [Option.bind_some, h [v.i, v.j] f (by simp) hf v.k]

/-- A memory that agrees below the cursor has the same entries in every node. -/
theorem Tables.same_of_below {s : Mm} {R : Set Nat} (h : Tables s R) {m' : Mem}
    (hm : ∀ a, a < s.pages.current → m' a = s.mem a) {r : Nat} (hr : r ∈ R) :
    SameEntries s.mem m' r 2 := by
  intro p f hp hf i
  refine entry_congr (fun a _ h2 => hm a ?_) i
  have := h.below r hr p f hp hf
  omega

/-- The invariant moves to any later state with the same inner entries. -/
theorem Tables.transport {s s' : Mm} {R : Set Nat} (h : Tables s R) (hok : s'.Ok)
    (hcur : s.pages.current ≤ s'.pages.current)
    (hsame : ∀ r ∈ R, SameEntries s.mem s'.mem r 1) : Tables s' R := by
  have hnode : ∀ r ∈ R, ∀ p : List (Fin 512), p.length ≤ 2 →
      node s'.mem r p = node s.mem r p := fun r hr p hp => node_of_same (hsame r hr) hp
  refine ⟨hok, ?_, ?_, ?_⟩
  · intro r hr r' hr' p q f hp hq h1 h2
    refine h.apart r hr r' hr' p q f hp hq ?_ ?_
    · exact (hnode r hr p hp).symm.trans h1
    · exact (hnode r' hr' q hq).symm.trans h2
  · intro r hr p f hp hf
    rw [hnode r hr p hp] at hf
    exact Nat.le_trans (h.below r hr p f hp hf) hcur
  · intro r hr p f hp hf i
    rw [hnode r hr p (by omega)] at hf
    rw [hsame r hr p f hp hf i]
    exact h.inner r hr p f hp hf i

/-! ## Section 3: What an operation on one table may do -/

/-- The step from `s` to `s'` works on the table `r`: nodes stay, new nodes of
    `r` are fresh frames, and only bytes of nodes of `r` and of fresh frames
    change. -/
structure Grows (R : Set Nat) (r : Nat) (s s' : Mm) : Prop where
  tables : Tables s' R
  end_eq : s'.pages.end_ = s.pages.end_
  cursor : s.pages.current ≤ s'.pages.current
  keeps : ∀ x ∈ R, ∀ p f, p.length ≤ 2 → node s.mem x p = some f → node s'.mem x p = some f
  fresh : ∀ x ∈ R, ∀ p f, p.length ≤ 2 → node s'.mem x p = some f →
    node s.mem x p = some f ∨ (x = r ∧ s.pages.current ≤ 4096 * f)
  bytes : ∀ a, s'.mem a ≠ s.mem a →
    (∃ p f, p.length ≤ 2 ∧ node s.mem r p = some f ∧ 4096 * f ≤ a ∧ a < 4096 * f + 4096) ∨
    (s.pages.current ≤ a ∧ a < s'.pages.current)

theorem Grows.refl {R : Set Nat} {s : Mm} (r : Nat) (h : Tables s R) : Grows R r s s where
  tables := h
  end_eq := rfl
  cursor := Nat.le_refl _
  keeps := fun _ _ _ _ _ h => h
  fresh := fun _ _ _ _ _ h => Or.inl h
  bytes := fun _ h => absurd rfl h

theorem Grows.trans {R : Set Nat} {r : Nat} {s t u : Mm} (hr : r ∈ R) (h1 : Grows R r s t)
    (h2 : Grows R r t u) : Grows R r s u where
  tables := h2.tables
  end_eq := h2.end_eq.trans h1.end_eq
  cursor := Nat.le_trans h1.cursor h2.cursor
  keeps := fun x hx p f hp hf => h2.keeps x hx p f hp (h1.keeps x hx p f hp hf)
  fresh := by
    intro x hx p f hp hf
    rcases h2.fresh x hx p f hp hf with hf | ⟨hxr, hf⟩
    · exact h1.fresh x hx p f hp hf
    · exact Or.inr ⟨hxr, Nat.le_trans h1.cursor hf⟩
  bytes := by
    intro a ha
    have hc1 := h1.cursor
    have hc2 := h2.cursor
    by_cases hstep : t.mem a = s.mem a
    · rw [← hstep] at ha
      rcases h2.bytes a ha with ⟨p, f, hp, hf, hlo, hhi⟩ | hfresh
      · -- a node of `t` is a node of `s` or a frame `s` had not handed out
        rcases h1.fresh r hr p f hp hf with hf' | ⟨-, hge⟩
        · exact Or.inl ⟨p, f, hp, hf', hlo, hhi⟩
        · have := h1.tables.below r hr p f hp hf
          exact Or.inr (by omega)
      · exact Or.inr (by omega)
    · rcases h1.bytes a hstep with hnode | hfresh
      · exact Or.inl hnode
      · exact Or.inr (by omega)

theorem write_frame {m : Mem} {f : Nat} {i : Fin 512} {w : Word} {a : Nat}
    (h : write64 m (4096 * f + 8 * i) w a ≠ m a) : 4096 * f ≤ a ∧ a < 4096 * f + 4096 := by
  have hi := i.isLt
  by_contra hout
  exact h (write64_out (by omega))

section Store

variable {s : Mm} {R : Set Nat} {r f : Nat} {i j k : Fin 512}

/-- A store to a last-level slot leaves the inner nodes as they were. -/
theorem same_leaf_store (ht : Tables s R) (hr : r ∈ R) (hf : node s.mem r [i, j] = some f)
    (e : PageTableEntry) {x : Nat} (hx : x ∈ R) :
    SameEntries s.mem (write64 s.mem (4096 * f + 8 * k) e.bits) x 1 := by
  intro p g hp hg l
  rw [entry_write, if_neg]
  intro hhere
  obtain ⟨rfl, -⟩ := hhere
  obtain ⟨-, rfl⟩ := ht.apart x hx r hr p [i, j] g (by omega) (by simp) hg hf
  simp at hp

/-- A store to a last-level slot changes one leaf of one table. -/
theorem leaf_leaf_store (ht : Tables s R) (hr : r ∈ R) (hf : node s.mem r [i, j] = some f)
    (e : PageTableEntry) {x : Nat} (hx : x ∈ R) (v : Vpn) :
    leaf (write64 s.mem (4096 * f + 8 * k) e.bits) x v =
      if x = r ∧ v = ⟨i, j, k⟩ then (if e.is_valid then some e else none)
      else leaf s.mem x v := by
  rw [leaf, leaf, node_of_same (same_leaf_store ht hr hf e hx) (by simp)]
  cases hg : node s.mem x [v.i, v.j] with
  | none =>
    rw [if_neg]
    · simp
    · rintro ⟨rfl, rfl⟩
      simp [hf] at hg
  | some g =>
    simp only [Option.bind_some, entry_write]
    by_cases hhere : x = r ∧ v = ⟨i, j, k⟩
    · obtain ⟨rfl, rfl⟩ := hhere
      obtain rfl : g = f := by simpa [hf] using hg.symm
      simp
    · have hslot : ¬ (g = f ∧ v.k = k) := by
        rintro ⟨rfl, hk⟩
        obtain ⟨rfl, hpath⟩ := ht.apart x hx r hr [v.i, v.j] [i, j] g (by simp) (by simp) hg hf
        simp only [List.cons.injEq, and_true] at hpath
        exact hhere ⟨rfl, by cases v; simp_all⟩
      rw [if_neg hhere, if_neg hslot]

theorem grows_leaf_store (ht : Tables s R) (hr : r ∈ R) (hf : node s.mem r [i, j] = some f)
    (e : PageTableEntry) :
    Grows R r s { s with mem := write64 s.mem (4096 * f + 8 * k) e.bits } where
  tables := ht.transport ⟨ht.ok.aligned, ht.ok.le_end, ht.ok.end_le⟩ (Nat.le_refl _)
    fun x hx => same_leaf_store ht hr hf e hx
  end_eq := rfl
  cursor := Nat.le_refl _
  keeps := fun x hx p g hp hg => (node_of_same (same_leaf_store ht hr hf e hx) hp).trans hg
  fresh := fun x hx p g hp hg =>
    Or.inl ((node_of_same (same_leaf_store ht hr hf e hx) hp).symm.trans hg)
  bytes := fun a ha => Or.inl ⟨[i, j], f, by simp, hf, write_frame ha⟩

end Store

/-! ## Section 4: Creating the nodes of a path -/

/-- The memory after a fresh node is linked into slot `i` of frame `f`. -/
def Mm.link (s : Mm) (f : Nat) (i : Fin 512) : Mm :=
  { s.take with
    mem := write64 (fill s.take.mem s.pages.current 4096 0) (4096 * f + 8 * i)
      (PageTableEntry.new s.next .V).bits }

section Link

variable {s : Mm} {R : Set Nat} {r f : Nat} {p : List (Fin 512)} {i : Fin 512}

theorem link_mem : (s.link f i).mem = write64 (fill s.take.mem s.pages.current 4096 0)
    (4096 * f + 8 * i) (PageTableEntry.new s.next .V).bits := rfl

theorem link_bytes {a : Nat} (h : (s.link f i).mem a ≠ s.mem a) :
    (4096 * f ≤ a ∧ a < 4096 * f + 4096) ∨
      (s.pages.current ≤ a ∧ a < s.pages.current + 4096) := by
  by_contra hout
  push Not at hout
  apply h
  have hout' : a < s.pages.current ∨ s.pages.current + 4096 ≤ a := by omega
  have hwrite : (s.link f i).mem a = fill s.take.mem s.pages.current 4096 0 a := by
    by_contra hne
    have := write_frame hne
    omega
  rw [hwrite, fill_out hout', take_mem_out hout']

/-- Outside the fresh frame, the only entry that differs is the link itself. -/
theorem link_entry (hok : s.Ok) {g : Nat} (hg : g ≠ s.next) (l : Fin 512) :
    entry (s.link f i).mem g l =
      if g = f ∧ l = i then PageTableEntry.new s.next .V else entry s.mem g l := by
  have hnext := hok.next_eq
  have hfill : entry (fill s.take.mem s.pages.current 4096 0) g l = entry s.mem g l := by
    refine entry_congr (fun a h1 h2 => ?_) l
    have hout : a < s.pages.current ∨ s.pages.current + 4096 ≤ a := by omega
    rw [fill_out hout, take_mem_out hout]
  rw [link_mem, entry_write, hfill]

theorem link_flags (hok : s.Ok) : (PageTableEntry.new s.next .V).flags = .V := by
  have hnext := hok.next_eq
  have hend := hok.end_le
  have hle := hok.le_end
  exact PageTableEntry.new_flags (by omega) _

/-- The entries of the fresh node are all invalid. -/
theorem link_empty (hok : s.Ok) (hlt : 4096 * f + 4096 ≤ s.pages.current) (l : Fin 512) :
    (entry (s.link f i).mem s.next l).is_valid = false := by
  have hnext := hok.next_eq
  refine entry_zero (fun a h1 h2 => ?_) l
  rw [link_mem, write64_out (by have := i.isLt; omega), fill_in (by omega) (by omega)]

/-- The new node is linked, and empty. -/
theorem link_linked (ht : Tables s R) (hr : r ∈ R) (hp : p.length ≤ 2)
    (hf : node s.mem r p = some f) (hinv : (entry s.mem f i).is_valid = false) :
    Radix.Linked (child s.mem) (child (s.link f i).mem) f i s.next := by
  have hnext := ht.ok.next_eq
  have hlt := ht.below r hr p f hp hf
  have hend := ht.ok.end_le
  have hle := ht.ok.le_end
  have hvalid : (PageTableEntry.new s.next .V).is_valid = true := by
    rw [PageTableEntry.is_valid, link_flags ht.ok]
    decide
  refine ⟨?_, ?_, ?_, ?_⟩
  · have hhere : entry (s.link f i).mem f i = PageTableEntry.new s.next .V := by
      rw [link_entry ht.ok (by omega), if_pos ⟨rfl, rfl⟩]
    rw [child, hhere, if_pos hvalid, PageTableEntry.new_ppn (by omega)]
  · simp [child, hinv]
  · intro g l hne hg
    refine child_congr ?_
    rw [link_entry ht.ok hg, if_neg (by tauto)]
  · intro l
    simp [child, link_empty ht.ok hlt l]

/-- Linking a fresh node grows the table and changes no leaf. -/
theorem grows_link (ht : Tables s R) (hr : r ∈ R) (hp : p.length ≤ 1)
    (hf : node s.mem r p = some f) (hinv : (entry s.mem f i).is_valid = false)
    (hroom : s.pages.current + 4096 ≤ s.pages.end_) :
    Grows R r s (s.link f i) ∧ (∀ x ∈ R, ∀ v, leaf (s.link f i).mem x v = leaf s.mem x v) ∧
      node (s.link f i).mem r (p ++ [i]) = some s.next := by
  have hlink := link_linked ht hr (by omega) hf hinv
  have hfresh : ∀ x ∈ R, ∀ q, q.length ≤ 2 → Radix.node (child s.mem) x q ≠ some s.next :=
    fun x hx q hq => ht.fresh hx hq
  have hnode : ∀ x ∈ R, ∀ q g, q.length ≤ 2 → (node (s.link f i).mem x q = some g ↔
      node s.mem x q = some g ∨ (x = r ∧ q = p ++ [i] ∧ g = s.next)) :=
    fun x hx q g hq =>
      Radix.node_link ht.apart hr (by omega) hf hlink hfresh hx (Nat.le_succ_of_le hq)
  have hnext := ht.ok.next_eq
  have hf_lt := ht.below r hr p f (by omega) hf
  have hok : (s.link f i).Ok := ⟨(ht.ok.take hroom).aligned, hroom, ht.ok.end_le⟩
  have hbelow : ∀ x ∈ R, ∀ q g, q.length ≤ 2 → node (s.link f i).mem x q = some g →
      4096 * g + 4096 ≤ s.pages.current + 4096 := by
    intro x hx q g hq hg
    rcases (hnode x hx q g hq).mp hg with hg | ⟨-, -, rfl⟩
    · have := ht.below x hx q g hq hg
      omega
    · omega
  have hinner : ∀ x ∈ R, ∀ q g, q.length ≤ 1 → node (s.link f i).mem x q = some g → ∀ l,
      (entry (s.link f i).mem g l).is_valid = true →
        (entry (s.link f i).mem g l).flags = .V := by
    intro x hx q g hq hg l hvalid
    rcases (hnode x hx q g (by omega)).mp hg with hg | ⟨-, -, rfl⟩
    · -- an old node: the link has flag `V`, the rest is as before
      have hne : g ≠ s.next := fun h => hfresh x hx q (by omega) (h ▸ hg)
      rw [link_entry ht.ok hne] at hvalid ⊢
      split at hvalid
      · next h => rw [if_pos h]; exact link_flags ht.ok
      · next h => rw [if_neg h]; exact ht.inner x hx q g hq hg l hvalid
    · rw [link_empty ht.ok hf_lt] at hvalid
      cases hvalid
  refine ⟨⟨⟨hok, ht.apart.link hr (by omega) hf hlink hfresh, hbelow, hinner⟩, rfl,
    Nat.le_add_right _ _, ?_, ?_, ?_⟩, ?_, ?_⟩
  · exact fun x hx q g hq hg => (hnode x hx q g hq).mpr (Or.inl hg)
  · intro x hx q g hq hg
    rcases (hnode x hx q g hq).mp hg with hg | ⟨hxr, -, rfl⟩
    · exact Or.inl hg
    · exact Or.inr ⟨hxr, by omega⟩
  · intro a ha
    rcases link_bytes ha with hin | hin
    · exact Or.inl ⟨p, f, by omega, hf, hin⟩
    · exact Or.inr hin
  · intro x hx v
    rw [leaf, leaf]
    cases hg : node s.mem x [v.i, v.j] with
    | some g =>
      -- an old low node: the link lies in another node, or in another frame
      rw [(hnode x hx _ g (by simp)).mpr (Or.inl hg)]
      have hsame : entry (s.link f i).mem g v.k = entry s.mem g v.k := by
        refine entry_congr (fun a h1 h2 => ?_) v.k
        by_contra hne
        have hg_lt := ht.below x hx _ g (by simp) hg
        have hgf : g = f := by
          rcases link_bytes hne with h | h <;> omega
        subst hgf
        obtain ⟨-, rfl⟩ := ht.apart x hx r hr _ p g (by simp) (by omega) hg hf
        simp at hp
      simp only [Option.bind_some, hsame]
    | none =>
      cases hg' : node (s.link f i).mem x [v.i, v.j] with
      | none => rfl
      | some g =>
        -- the new node itself: all its entries are invalid
        rcases (hnode x hx _ g (by simp)).mp hg' with h | ⟨-, -, rfl⟩
        · simp [hg] at h
        · have hinv' := hlink.leaf v.k
          simp only [child] at hinv'
          split at hinv' <;> simp_all
  · exact (hnode r hr _ _ (by simp; omega)).mpr (Or.inr ⟨rfl, rfl, rfl⟩)

/-- The three outcomes of `child_create`. -/
theorem child_create_cases (ht : Tables s R) (hr : r ∈ R) (hp : p.length ≤ 2)
    (hf : node s.mem r p = some f) :
    ((entry s.mem f i).is_valid = true ∧ child_create (slot f i) s = .ok (some ()) s) ∨
    ((entry s.mem f i).is_valid = false ∧ s.pages.current + 4096 ≤ s.pages.end_ ∧
      child_create (slot f i) s = .ok (some ()) (s.link f i)) ∨
    ((entry s.mem f i).is_valid = false ∧ s.pages.end_ < s.pages.current + 4096 ∧
      child_create (slot f i) s = .ok none s) := by
  have hsmall := ht.small hr hp hf
  have hpte : pte s.mem (slot f i) = entry s.mem f i := entry_eq_pte hsmall s.mem i
  cases hvalid : (entry s.mem f i).is_valid with
  | true =>
    refine Or.inl ⟨rfl, ?_⟩
    simp [child_create, Prog.bind_run, hpte, hvalid]
  | false =>
    refine Or.inr ?_
    rcases alloc_page_cases ht.ok with ⟨hroom, halloc⟩ | ⟨hfull, halloc⟩
    · refine Or.inl ⟨rfl, hroom, ?_⟩
      rw [slot_eq hsmall] at hpte ⊢
      simp only [child_create, Prog.bind_run, Prog.get_run, hpte, hvalid, Bool.false_eq_true,
        if_false, halloc, Prog.modify_run, Prog.pure_run, frame_at_cursor]
      rfl
    · refine Or.inr ⟨rfl, hfull, ?_⟩
      simp [child_create, Prog.bind_run, hpte, hvalid, halloc]

end Link

/-- The child of a valid entry of a node. -/
theorem node_child {m : Mem} {r f : Nat} {p : List (Fin 512)} {i : Fin 512}
    (hf : node m r p = some f) (hvalid : (entry m f i).is_valid = true) :
    node m r (p ++ [i]) = some (entry m f i).ppn := by
  rw [node, Radix.node_snoc, show Radix.node (child m) r p = some f from hf]
  simp [child, hvalid]

theorem entry_of_node_snoc {m : Mem} {r f g : Nat} {p : List (Fin 512)} {i : Fin 512}
    (hf : node m r p = some f) (hg : node m r (p ++ [i]) = some g) :
    (entry m f i).is_valid = true ∧ (entry m f i).ppn = g := by
  rw [node, Radix.node_snoc, show Radix.node (child m) r p = some f from hf] at hg
  simp only [Option.bind_some, child] at hg
  split at hg <;> simp_all

theorem find_pte_create_from_cons (f : Nat) (i j : Fin 512) (l : List (Fin 512)) :
    find_pte_create_from f (i :: j :: l) = (do
      match ← child_create (slot f i) with
      | none => return none
      | some _ => find_pte_create_from (pte (← get).mem (slot f i)).ppn (j :: l)) := rfl

/-- A walk that returns went through the first child, or ended there. -/
theorem find_pte_create_from_through {f : Nat} {i k : Fin 512} {q : List (Fin 512)} {s t s' : Mm}
    {oc : Option Unit} {o : Option Nat} (hrun : find_pte_create_from f ((i :: q) ++ [k]) s = .ok o s')
    (hchild : child_create (slot f i) s = .ok oc t) :
    (oc = none ∧ o = none ∧ s' = t) ∨
      (oc ≠ none ∧ find_pte_create_from (pte t.mem (slot f i)).ppn (q ++ [k]) t = .ok o s') := by
  obtain ⟨j, l, hl⟩ := List.exists_cons_of_ne_nil (List.concat_ne_nil k q)
  rw [List.cons_append, hl, find_pte_create_from_cons, Prog.bind_of_ok hchild] at hrun
  rw [hl]
  cases oc with
  | none =>
    cases hrun
    exact Or.inl ⟨rfl, rfl, rfl⟩
  | some u => exact Or.inr ⟨by simp, hrun⟩

/-- A walk that creates the nodes of `path` in the table `r`, `n` of them at
    most, and none if they are all there. -/
structure Walked (R : Set Nat) (r : Nat) (path : List (Fin 512)) (n : Nat) (s s' : Mm) : Prop where
  grows : Grows R r s s'
  leaves : ∀ x ∈ R, ∀ v, leaf s'.mem x v = leaf s.mem x v
  used : s'.pages.current ≤ s.pages.current + n * 4096
  reused : node s.mem r path ≠ none → s'.pages.current = s.pages.current

/-- Nothing is reached through an invalid entry. -/
theorem node_dead {m : Mem} {r f : Nat} {p : List (Fin 512)} {i : Fin 512}
    (hf : node m r p = some f) (hinv : (entry m f i).is_valid = false) (q : List (Fin 512)) :
    node m r (p ++ i :: q) = none := by
  rw [node, Radix.node_append, show Radix.node (child m) r p = some f from hf]
  simp [Radix.node_cons, child, hinv]

/-- The walk of `find_pte_create` from a node at path `p`: the rest of the path
    is `q` and then `k`. -/
theorem find_pte_create_from_spec {R : Set Nat} {r : Nat} (hr : r ∈ R) {k : Fin 512} :
    ∀ (q p : List (Fin 512)) (s : Mm) (f : Nat), p.length + q.length ≤ 2 → Tables s R →
      node s.mem r p = some f →
      ∀ o s', find_pte_create_from f (q ++ [k]) s = .ok o s' →
        Walked R r (p ++ q) q.length s s' ∧
        ((o = none ∧ node s.mem r (p ++ q) = none ∧
            s.pages.end_ < s.pages.current + q.length * 4096) ∨
          ∃ g, o = some (slot g k) ∧ node s'.mem r (p ++ q) = some g) := by
  intro q
  induction q with
  | nil =>
    intro p s f hlen ht hf o s' hrun
    simp only [List.nil_append, find_pte_create_from, Prog.pure_run,
      EStateM.Result.ok.injEq] at hrun
    obtain ⟨rfl, rfl⟩ := hrun
    exact ⟨⟨Grows.refl r ht, fun _ _ _ => rfl, by simp, fun _ => rfl⟩,
      Or.inr ⟨f, rfl, by simpa using hf⟩⟩
  | cons i q ih =>
    intro p s f hlen ht hf o s' hrun
    have hlen' : p.length ≤ 1 := by simp at hlen; omega
    have hcons : find_pte_create_from f ((i :: q) ++ [k]) = (do
        match ← child_create (slot f i) with
        | none => return none
        | some _ => find_pte_create_from (pte (← get).mem (slot f i)).ppn (q ++ [k])) := by
      cases q <;> exact find_pte_create_from_cons f i _ _
    rw [hcons, Prog.bind_eq_ok] at hrun
    obtain ⟨oc, t, hcreate, hrest⟩ := hrun
    -- once the child exists, the walk goes on from it
    have hgo : ∀ {t : Mm}, Grows R r s t → (entry t.mem f i).is_valid = true →
        find_pte_create_from (pte t.mem (slot f i)).ppn (q ++ [k]) t = .ok o s' →
        Walked R r (p ++ i :: q) q.length t s' ∧
        ((o = none ∧ node t.mem r (p ++ i :: q) = none ∧
            t.pages.end_ < t.pages.current + q.length * 4096) ∨
          ∃ g, o = some (slot g k) ∧ node s'.mem r (p ++ i :: q) = some g) := by
      intro t hgrow hvalid hrun
      have hft := hgrow.keeps r hr p f (by omega) hf
      rw [entry_eq_pte (ht.small hr (by omega) hf)] at hrun
      have hnext := ih (p ++ [i]) t _ (by simp at hlen ⊢; omega) hgrow.tables
        (node_child hft hvalid) o s' hrun
      simpa only [List.append_assoc, List.singleton_append] using hnext
    rcases child_create_cases (i := i) ht hr (by omega) hf with
      ⟨hvalid, heq⟩ | ⟨hinv, hroom, heq⟩ | ⟨hinv, hfull, heq⟩
    · rw [heq] at hcreate
      obtain ⟨rfl, rfl⟩ := EStateM.Result.ok.inj hcreate
      obtain ⟨hw, hout⟩ := hgo (Grows.refl r ht) hvalid hrest
      have hused := hw.used
      refine ⟨⟨hw.grows, hw.leaves, by simp only [List.length_cons]; linarith, hw.reused⟩, ?_⟩
      rcases hout with ⟨ho, hnone, hfull⟩ | hsome
      · exact Or.inl ⟨ho, hnone, by simp only [List.length_cons]; linarith⟩
      · exact Or.inr hsome
    · rw [heq] at hcreate
      obtain ⟨rfl, rfl⟩ := EStateM.Result.ok.inj hcreate
      obtain ⟨hgrow, hleaf, hnew⟩ := grows_link ht hr hlen' hf hinv hroom
      have hvalid := (entry_of_node_snoc (hgrow.keeps r hr p f (by omega) hf) hnew).1
      obtain ⟨hw, hout⟩ := hgo hgrow hvalid hrest
      have hused := hw.used
      have hcur : (s.link f i).pages.current = s.pages.current + 4096 := rfl
      have hend : (s.link f i).pages.end_ = s.pages.end_ := rfl
      refine ⟨⟨hgrow.trans hr hw.grows, fun x hx v => (hw.leaves x hx v).trans (hleaf x hx v),
        by simp only [List.length_cons]; omega, fun hne => absurd (node_dead hf hinv q) hne⟩, ?_⟩
      rcases hout with ⟨ho, -, hfull⟩ | hsome
      · exact Or.inl ⟨ho, node_dead hf hinv q, by simp only [List.length_cons]; omega⟩
      · exact Or.inr hsome
    · rw [heq] at hcreate
      obtain ⟨rfl, rfl⟩ := EStateM.Result.ok.inj hcreate
      obtain ⟨rfl, rfl⟩ := EStateM.Result.ok.inj hrest
      exact ⟨⟨Grows.refl r ht, fun _ _ _ => rfl, by simp, fun _ => rfl⟩,
        Or.inl ⟨rfl, node_dead hf hinv q, by simp only [List.length_cons]; omega⟩⟩

theorem alloc_page_returns (s : Mm) : ∃ o t, alloc_page s = .ok o t := by
  rw [alloc_page_eq]
  by_cases h : wadd s.pages.current (wmul 1 PAGE_SIZE) ≤ s.pages.end_
  · exact ⟨_, _, alloc_pages_granted h⟩
  · exact ⟨_, _, alloc_pages_refused (Nat.lt_of_not_le h)⟩

theorem child_create_returns (addr : Nat) (s : Mm) : ∃ o t, child_create addr s = .ok o t := by
  obtain ⟨o, t, halloc⟩ := alloc_page_returns s
  by_cases hvalid : (pte s.mem addr).is_valid = true
  · exact ⟨some (), s, by simp [child_create, Prog.bind_run, hvalid]⟩
  · cases o with
    | none => exact ⟨none, t, by simp [child_create, Prog.bind_run, hvalid, halloc]⟩
    | some page =>
      let w := (PageTableEntry.new (page >>> PAGE_SIZE_BITS) .V).bits
      refine ⟨some (), { t with mem := write64 (fill t.mem page PAGE_SIZE 0) addr w }, ?_⟩
      simp only [child_create, Prog.bind_run, Prog.get_run, if_neg hvalid, halloc]
      rfl

/-- The walk of `find_pte_create` never panics by itself. -/
theorem find_pte_create_from_returns (l : List (Fin 512)) :
    ∀ f s, ∃ o t, find_pte_create_from f l s = .ok o t := by
  induction l with
  | nil => intro f s; exact ⟨none, s, rfl⟩
  | cons i l ih =>
    intro f s
    cases l with
    | nil => exact ⟨some (slot f i), s, rfl⟩
    | cons j l =>
      obtain ⟨o, t, hchild⟩ := child_create_returns (slot f i) s
      cases o with
      | none => exact ⟨none, t, by rw [find_pte_create_from_cons, Prog.bind_of_ok hchild]; rfl⟩
      | some _ =>
        obtain ⟨o, u, hrest⟩ := ih (pte t.mem (slot f i)).ppn t
        exact ⟨o, u, by rw [find_pte_create_from_cons, Prog.bind_of_ok hchild]; exact hrest⟩

/-! ## Section 5: The operations -/

theorem indices_eq (va : Nat) :
    indices (va >>> PAGE_SIZE_BITS) = [(Vpn.of va).i, (Vpn.of va).j] ++ [(Vpn.of va).k] := rfl

section Ops

variable {s s' : Mm} {R : Set Nat} {r : Nat}

/-- The walk of `find_pte` from a node at path `p`. -/
theorem find_pte_from_eq (ht : Tables s R) (hr : r ∈ R) (k : Fin 512) :
    ∀ (q p : List (Fin 512)) (f : Nat), p.length + q.length ≤ 2 → node s.mem r p = some f →
      find_pte_from s.mem f (q ++ [k]) = (node s.mem r (p ++ q)).bind fun g =>
        if (entry s.mem g k).is_valid then some (slot g k) else none := by
  intro q
  induction q with
  | nil =>
    intro p f hlen hf
    rw [List.append_nil, hf]
    simp [find_pte_from, entry_eq_pte (ht.small hr (by simpa using hlen) hf)]
  | cons i q ih =>
    intro p f hlen hf
    have hsmall := ht.small hr (by simp at hlen; omega) hf
    have hcons : find_pte_from s.mem f ((i :: q) ++ [k]) =
        if (entry s.mem f i).is_valid then
          find_pte_from s.mem (entry s.mem f i).ppn (q ++ [k]) else none := by
      rw [← entry_eq_pte hsmall]
      cases q <;> rfl
    rw [hcons]
    cases hvalid : (entry s.mem f i).is_valid with
    | true =>
      have hnext := ih (p ++ [i]) _ (by simp at hlen ⊢; omega) (node_child hf hvalid)
      simpa using hnext
    | false =>
      simp [node_dead hf hvalid q]

theorem find_pte_eq (ht : Tables s R) (hr : r ∈ R) (va : Nat) :
    PageTable.find_pte ⟨r⟩ s.mem (va >>> PAGE_SIZE_BITS) =
      (node s.mem r [(Vpn.of va).i, (Vpn.of va).j]).bind fun g =>
        if (entry s.mem g (Vpn.of va).k).is_valid then some (slot g (Vpn.of va).k) else none := by
  rw [PageTable.find_pte, indices_eq]
  exact find_pte_from_eq ht hr _ _ [] r (by simp) rfl

/-- **`find_pte`** finds the leaf of the page. -/
theorem find_pte_leaf (ht : Tables s R) (hr : r ∈ R) (va : Nat) :
    (PageTable.find_pte ⟨r⟩ s.mem (va >>> PAGE_SIZE_BITS)).map (pte s.mem) =
      leaf s.mem r (Vpn.of va) := by
  rw [find_pte_eq ht hr, leaf]
  cases hg : node s.mem r [(Vpn.of va).i, (Vpn.of va).j] with
  | none => rfl
  | some g =>
    have hsmall := ht.small hr (by simp) hg
    simp only [Option.bind_some]
    split
    · simp [entry_eq_pte hsmall]
    · rfl

/-- **`translate`** reads the leaf of the page and adds the offset. -/
theorem translate_eq (ht : Tables s R) (hr : r ∈ R) (va : Nat) :
    PageTable.translate ⟨r⟩ s.mem va = (leaf s.mem r (Vpn.of va)).map fun e =>
      shl e.ppn PAGE_SIZE_BITS ||| (va &&& (PAGE_SIZE - 1)) := by
  rw [← find_pte_leaf ht hr, PageTable.translate, Option.map_map]
  rfl

/-- What a successful `map` of the page `v` to the entry `e` does. -/
structure Mapped (R : Set Nat) (r : Nat) (v : Vpn) (e : PageTableEntry) (s s' : Mm) : Prop where
  was : leaf s.mem r v = none
  grows : Grows R r s s'
  leaves : ∀ x ∈ R, ∀ w, leaf s'.mem x w =
    if x = r ∧ w = v then some e else leaf s.mem x w
  used : s'.pages.current ≤ s.pages.current + 2 * 4096
  reused : node s.mem r [v.i, v.j] ≠ none → s'.pages.current = s.pages.current
  flags : e.flags.mapped = e.flags

/-- **`map`**, when it returns: the page was unmapped, and now it is mapped. -/
theorem map_spec (ht : Tables s R) (hr : r ∈ R) {va pa : Nat} (hpa : pa < 2 ^ 64)
    {flags : PTEFlags} (h : PageTable.map ⟨r⟩ va pa flags s = .ok () s') :
    Mapped R r (Vpn.of va) (PageTableEntry.new (pa >>> PAGE_SIZE_BITS) flags.mapped) s s' := by
  rw [PageTable.map, Prog.bind_eq_ok] at h
  obtain ⟨o, t, hwalk, hrest⟩ := h
  rw [PageTable.find_pte_create, indices_eq] at hwalk
  obtain ⟨⟨hgrow, hleaf, hused, hreused⟩, hout⟩ :=
    find_pte_create_from_spec hr _ [] s r (by simp) ht rfl o t hwalk
  rcases hout with ⟨rfl, -, -⟩ | ⟨g, rfl, hg⟩
  · simp at hrest
  · have hg' : node t.mem r [(Vpn.of va).i, (Vpn.of va).j] = some g := hg
    have hsmall := hgrow.tables.small hr (by simp) hg'
    simp only [Prog.bind_run, Prog.get_run, entry_eq_pte hsmall] at hrest
    cases hvalid : (entry t.mem g (Vpn.of va).k).is_valid with
    | true => simp [hvalid, Prog.bind_run] at hrest
    | false =>
      simp only [hvalid, Bool.false_eq_true, if_false, Prog.modify_run,
        EStateM.Result.ok.injEq, slot_eq hsmall, true_and] at hrest
      subst hrest
      have hppn : pa >>> PAGE_SIZE_BITS < 2 ^ 54 := by
        rw [Nat.shiftRight_eq_div_pow, PAGE_SIZE_BITS]; omega
      have hflags := PageTableEntry.new_flags hppn flags.mapped
      have hnew : (PageTableEntry.new (pa >>> PAGE_SIZE_BITS) flags.mapped).is_valid = true := by
        rw [PageTableEntry.is_valid, hflags]
        exact PTEFlags.mapped_valid flags
      refine ⟨?_, hgrow.trans hr (grows_leaf_store hgrow.tables hr hg' _), ?_, hused, hreused, ?_⟩
      · rw [← hleaf r hr, leaf, hg']
        simp [hvalid]
      · intro x hx v
        rw [leaf_leaf_store hgrow.tables hr hg' _ hx, hleaf x hx, if_pos hnew]
      · rw [hflags, PTEFlags.mapped_mapped]

/-- **`map`**, when it panics: the page was mapped, or a node was missing and
    there was no frame for it. -/
theorem map_panic (ht : Tables s R) (hr : r ∈ R) {va pa : Nat} {flags : PTEFlags} {e : Halt}
    (h : PageTable.map ⟨r⟩ va pa flags s = .error e s') :
    (e = .panic "remap" ∧ (leaf s.mem r (Vpn.of va)).isSome) ∨
    (e = .panic "out of memory mapping page" ∧ leaf s.mem r (Vpn.of va) = none ∧
      node s.mem r [(Vpn.of va).i, (Vpn.of va).j] = none ∧
      s.pages.end_ < s.pages.current + 2 * 4096) := by
  rw [PageTable.map, Prog.bind_eq_error] at h
  rcases h with h | ⟨o, t, hwalk, hrest⟩
  · obtain ⟨o, t, hok⟩ := find_pte_create_from_returns (indices (va >>> PAGE_SIZE_BITS)) r s
    rw [PageTable.find_pte_create, hok] at h
    cases h
  rw [PageTable.find_pte_create, indices_eq] at hwalk
  obtain ⟨⟨hgrow, hleaf, -, -⟩, hout⟩ :=
    find_pte_create_from_spec hr _ [] s r (by simp) ht rfl o t hwalk
  rcases hout with ⟨rfl, hnone, hfull⟩ | ⟨g, rfl, hg⟩
  · simp only [Prog.throw_run, EStateM.Result.error.injEq] at hrest
    refine Or.inr ⟨hrest.1.symm, ?_, hnone, hfull⟩
    rw [leaf, show node s.mem r [(Vpn.of va).i, (Vpn.of va).j] = none from hnone]
    rfl
  · have hg' : node t.mem r [(Vpn.of va).i, (Vpn.of va).j] = some g := hg
    have hsmall := hgrow.tables.small hr (by simp) hg'
    simp only [Prog.bind_run, Prog.get_run, entry_eq_pte hsmall] at hrest
    cases hvalid : (entry t.mem g (Vpn.of va).k).is_valid with
    | true =>
      simp only [hvalid, if_true, Prog.bind_run, Prog.throw_run,
        EStateM.Result.error.injEq] at hrest
      refine Or.inl ⟨hrest.1.symm, ?_⟩
      rw [← hleaf r hr, leaf, hg']
      simp [hvalid]
    | false => simp [hvalid] at hrest

/-- **`map`**, both outcomes. -/
theorem map_wp (ht : Tables s R) (hr : r ∈ R) {va pa : Nat} (hpa : pa < 2 ^ 64)
    (flags : PTEFlags) :
    Prog.wp (PageTable.map ⟨r⟩ va pa flags)
      (fun _ s' =>
        Mapped R r (Vpn.of va) (PageTableEntry.new (pa >>> PAGE_SIZE_BITS) flags.mapped) s s')
      (fun e _ => (e = .panic "remap" ∧ (leaf s.mem r (Vpn.of va)).isSome) ∨
        (e = .panic "out of memory mapping page" ∧ leaf s.mem r (Vpn.of va) = none ∧
          node s.mem r [(Vpn.of va).i, (Vpn.of va).j] = none ∧
          s.pages.end_ < s.pages.current + 2 * 4096)) s := by
  unfold Prog.wp
  cases h : PageTable.map ⟨r⟩ va pa flags s with
  | ok _ s' => exact map_spec ht hr hpa h
  | error e s' => exact map_panic ht hr h

/-- **`map`** returns for an unmapped page, if there is room for two nodes or
    none is missing. -/
theorem map_returns (ht : Tables s R) (hr : r ∈ R) {va : Nat} (pa : Nat) (flags : PTEFlags)
    (hnone : leaf s.mem r (Vpn.of va) = none)
    (hroom : node s.mem r [(Vpn.of va).i, (Vpn.of va).j] ≠ none ∨
      s.pages.current + 2 * 4096 ≤ s.pages.end_) :
    ∃ s', PageTable.map ⟨r⟩ va pa flags s = .ok () s' := by
  cases h : PageTable.map ⟨r⟩ va pa flags s with
  | ok _ s' => exact ⟨s', rfl⟩
  | error e s' =>
    rcases map_panic ht hr h with ⟨-, hsome⟩ | ⟨-, -, hlow, hfull⟩
    · simp [hnone] at hsome
    · rcases hroom with hroom | hroom
      · exact absurd hlow hroom
      · omega

/-- **`unmap`** always returns, and leaves the page unmapped. -/
theorem unmap_spec (ht : Tables s R) (hr : r ∈ R) (va : Nat) :
    ∃ s', PageTable.unmap ⟨r⟩ va s = .ok () s' ∧ Grows R r s s' ∧
      ∀ x ∈ R, ∀ v, leaf s'.mem x v =
        if x = r ∧ v = Vpn.of va then none else leaf s.mem x v := by
  have hrun_none : PageTable.find_pte ⟨r⟩ s.mem (va >>> PAGE_SIZE_BITS) = none →
      PageTable.unmap ⟨r⟩ va s = .ok () s := by
    intro h
    simp only [PageTable.unmap, Prog.bind_run, Prog.get_run, h, Prog.pure_run]
  have hrun_some : ∀ addr, PageTable.find_pte ⟨r⟩ s.mem (va >>> PAGE_SIZE_BITS) = some addr →
      PageTable.unmap ⟨r⟩ va s =
        .ok () { s with mem := write64 s.mem addr PageTableEntry.empty.bits } := by
    intro addr h
    simp only [PageTable.unmap, Prog.bind_run, Prog.get_run, h, Prog.modify_run]
  -- nothing is written when the leaf is already missing
  have hkept : leaf s.mem r (Vpn.of va) = none →
      ∀ x ∈ R, ∀ v, leaf s.mem x v = if x = r ∧ v = Vpn.of va then none else leaf s.mem x v := by
    intro hnone x _ v
    split
    · next h => rw [h.1, h.2, hnone]
    · rfl
  have hfind := find_pte_eq ht hr va
  cases hg : node s.mem r [(Vpn.of va).i, (Vpn.of va).j] with
  | none =>
    rw [hg] at hfind
    exact ⟨s, hrun_none hfind, Grows.refl r ht, hkept (by rw [leaf, hg]; rfl)⟩
  | some g =>
    simp only [hg, Option.bind_some] at hfind
    cases hvalid : (entry s.mem g (Vpn.of va).k).is_valid with
    | false =>
      simp only [hvalid, Bool.false_eq_true, if_false] at hfind
      exact ⟨s, hrun_none hfind, Grows.refl r ht, hkept (by rw [leaf, hg]; simp [hvalid])⟩
    | true =>
      simp only [hvalid, if_true, slot_eq (ht.small hr (by simp) hg)] at hfind
      refine ⟨_, hrun_some _ hfind, grows_leaf_store ht hr hg .empty, fun x hx v => ?_⟩
      exact (leaf_leaf_store ht hr hg .empty hx v).trans (by simp)

theorem fill_fill (m : Mem) (a n : Nat) (b : UInt8) : fill (fill m a n b) a n b = fill m a n b := by
  funext x
  by_cases h : a ≤ x ∧ x < a + n
  · rw [fill_in h.1 h.2, fill_in h.1 h.2]
  · rw [fill_out (by omega)]

/-- **`PageTable::new`** takes one frame as the root of an empty table. -/
theorem PageTable.new_cases (hok : s.Ok) :
    (s.pages.current + 4096 ≤ s.pages.end_ ∧ PageTable.new s = .ok (some ⟨s.next⟩) s.take) ∨
    (s.pages.end_ < s.pages.current + 4096 ∧ PageTable.new s = .ok none s) := by
  rcases alloc_page_cases hok with ⟨hroom, halloc⟩ | ⟨hfull, halloc⟩
  · refine Or.inl ⟨hroom, ?_⟩
    simp only [PageTable.new, Prog.bind_run, halloc, Prog.modify_run, Prog.pure_run,
      frame_at_cursor, Mm.take, PAGE_SIZE, fill_fill]
  · refine Or.inr ⟨hfull, ?_⟩
    simp only [PageTable.new, Prog.bind_run, halloc, Prog.pure_run]

/-- Handing out a frame leaves every table as it was. -/
theorem same_take (ht : Tables s R) (hr : r ∈ R) : SameEntries s.mem s.take.mem r 2 :=
  ht.same_of_below (fun _ h => take_mem_out (Or.inl h)) hr

theorem SameEntries.shallow {m m' : Mem} {d d' : Nat} (h : SameEntries m m' r d) (hd : d' ≤ d) :
    SameEntries m m' r d' := fun p f hp => h p f (Nat.le_trans hp hd)

theorem tables_take (ht : Tables s R) (hroom : s.pages.current + 4096 ≤ s.pages.end_) :
    Tables s.take R :=
  ht.transport (ht.ok.take hroom) (Nat.le_add_right _ _)
    fun _ hr => (same_take ht hr).shallow (by omega)

theorem child_take (hok : s.Ok) (i : Fin 512) : child s.take.mem s.next i = none := by
  have hnext := hok.next_eq
  have hzero := entry_zero (m := s.take.mem) (f := s.next)
    (fun a h1 h2 => take_mem_fresh (by omega) (by omega)) i
  simp [child, hzero]

/-- The frame handed out can serve as the root of an empty table. -/
theorem tables_new (ht : Tables s R) (hroom : s.pages.current + 4096 ≤ s.pages.end_) :
    Tables s.take (insert s.next R) ∧ (∀ v, leaf s.take.mem s.next v = none) := by
  have ht' := tables_take ht hroom
  have hnext := ht.ok.next_eq
  have honly : ∀ p f, node s.take.mem s.next p = some f → p = [] ∧ f = s.next := by
    intro p f hf
    cases p with
    | nil => exact ⟨rfl, by simpa [node, eq_comm] using hf⟩
    | cons i p => simp [node, Radix.node_cons, child_take ht.ok] at hf
  refine ⟨⟨ht'.ok, ht'.apart.insert (child_take ht.ok) fun r hr q hq => ?_, ?_, ?_⟩, ?_⟩
  · rw [show Radix.node (child s.take.mem) r q = node s.mem r q from
      node_of_same (same_take ht hr) (by omega)]
    exact ht.fresh hr hq
  · rintro r (rfl | hr) p f hp hf
    · obtain ⟨-, rfl⟩ := honly p f hf
      show _ ≤ s.pages.current + 4096
      omega
    · exact ht'.below r hr p f hp hf
  · rintro r (rfl | hr) p f hp hf i hvalid
    · obtain ⟨-, rfl⟩ := honly p f hf
      have hnone := child_take ht.ok i
      simp [child, hvalid] at hnone
    · exact ht'.inner r hr p f hp hf i hvalid
  · intro v
    rw [leaf]
    cases hf : node s.take.mem s.next [v.i, v.j] with
    | none => rfl
    | some f => exact absurd (honly _ f hf).1 (by simp)

end Ops

end Rvos

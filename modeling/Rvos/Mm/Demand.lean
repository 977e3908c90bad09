import Rvos.Lib.Trie
import Rvos.Mm.Tables

/-! # How many frames a mapping takes

    The nodes and the mapped pages of a table form a trie of paths of at most
    three indices (`paths`).  Mapping a page inserts its path, and each path
    that was missing takes one frame: the nodes, and the page itself.

    * `map_exact`   : `map` succeeds just if there are frames for the missing
      nodes, and takes just these.
    * `place_exact` : the same for a page that is mapped to a new frame. -/

namespace Rvos

open ByteMem Usize Trie

/-- The paths to the nodes and the mapped pages of the table `r`. -/
def paths (m : Mem) (r : Nat) : Set (List (Fin 512)) := {p | p.length ≤ 3 ∧ node m r p ≠ none}

/-- The path of a page. -/
def Vpn.path (v : Vpn) : List (Fin 512) := [v.i, v.j, v.k]

/-- A page that is missing takes a frame more than the node it goes into. -/
theorem Vpn.cost_path {v : Vpn} {X : Set (List (Fin 512))} (h : v.path ∉ X) :
    cost X v.path = cost X [v.i, v.j] + 1 :=
  cost_snoc (p := [v.i, v.j]) (i := v.k) h

theorem Vpn.grow_path (v : Vpn) (X : Set (List (Fin 512))) :
    insert v.path (grow X [v.i, v.j]) = grow X v.path := by
  have hpath : v.path = [v.i, v.j] ++ [v.k] := rfl
  ext p
  rw [hpath]
  simp only [grow, Set.mem_insert_iff, Set.mem_union, mem_prefixes, List.prefix_concat_iff]
  tauto

section Paths

variable {m : Mem} {r : Nat} {p q : List (Fin 512)}

theorem mem_paths_of_node (hp : p.length ≤ 3) {f : Nat} (hf : node m r p = some f) :
    p ∈ paths m r := ⟨hp, by simp [hf]⟩

/-- Above a node there are nodes. -/
theorem paths_closed (hq : q <+: p) (hp : p ∈ paths m r) : q ∈ paths m r := by
  obtain ⟨tail, rfl⟩ := hq
  refine ⟨?_, fun hnone => hp.2 ?_⟩
  · have := hp.1
    rw [List.length_append] at this
    omega
  · rw [node, Radix.node_append, show Radix.node (child m) r q = none from hnone]
    rfl

theorem prefixes_subset_paths (hp : p ∈ paths m r) : prefixes p ⊆ paths m r :=
  fun _ hq => paths_closed hq hp

/-- A page is mapped just if its path is there. -/
theorem leaf_eq_none_iff {v : Vpn} : leaf m r v = none ↔ v.path ∉ paths m r := by
  have hpath : v.path = [v.i, v.j] ++ [v.k] := rfl
  have hnode : node m r v.path = (node m r [v.i, v.j]).bind fun f => child m f v.k := by
    rw [hpath]
    exact Radix.node_snoc _ _ _ _
  have hlen : v.path.length ≤ 3 := by simp [Vpn.path]
  rw [paths, Set.mem_ofPred_eq, hnode, leaf]
  cases node m r [v.i, v.j] with
  | none => simp
  | some f =>
    by_cases hvalid : (entry m f v.k).is_valid = true
    · simp [child, hvalid, hlen]
    · simp [child, hvalid]

theorem paths_of_same {m' : Mem} (h : SameEntries m m' r 2) : paths m' r = paths m r := by
  ext p
  refine and_congr_right fun hp => ?_
  rw [node_of_same h hp]

end Paths

section Walk

variable {s : Mm} {R : Set Nat} {r f : Nat} {p : List (Fin 512)} {i : Fin 512}

/-- Linking a node inserts its path. -/
theorem paths_link (ht : Tables s R) (hr : r ∈ R) (hp : p.length ≤ 1)
    (hf : node s.mem r p = some f) (hinv : (entry s.mem f i).is_valid = false) :
    paths (s.link f i).mem r = insert (p ++ [i]) (paths s.mem r) := by
  have hfresh : ∀ x ∈ R, ∀ q, q.length ≤ 2 → Radix.node (child s.mem) x q ≠ some s.next :=
    fun x hx q hq => ht.fresh hx hq
  have hnode : ∀ q g, q.length ≤ 3 → (node (s.link f i).mem r q = some g ↔
      node s.mem r q = some g ∨ (r = r ∧ q = p ++ [i] ∧ g = s.next)) :=
    fun q g hq => Radix.node_link ht.apart hr (by omega) hf
      (link_linked ht hr (by omega) hf hinv) hfresh hr hq
  ext q
  simp only [paths, Set.mem_ofPred_eq, Set.mem_insert_iff, Option.ne_none_iff_exists']
  constructor
  · rintro ⟨hq, g, hg⟩
    rcases (hnode q g hq).mp hg with hg | ⟨-, rfl, -⟩
    · exact Or.inr ⟨hq, g, hg⟩
    · exact Or.inl rfl
  · rintro (rfl | ⟨hq, g, hg⟩)
    · have hq : (p ++ [i]).length ≤ 3 := by
        rw [List.length_append, List.length_singleton]
        omega
      exact ⟨hq, s.next, (hnode _ _ hq).mpr (Or.inr ⟨rfl, rfl, rfl⟩)⟩
    · exact ⟨hq, g, (hnode q g hq).mpr (Or.inl hg)⟩

/-- **The walk of `find_pte_create`** pays for the nodes that are missing. -/
theorem find_pte_create_from_exact (hr : r ∈ R) {k : Fin 512} :
    ∀ (q p : List (Fin 512)) (s : Mm) (f : Nat), p.length + q.length ≤ 2 → Tables s R →
      node s.mem r p = some f →
      ∀ o s', find_pte_create_from f (q ++ [k]) s = .ok o s' →
        (o = none ∧ s.pages.end_ < s.pages.current + 4096 * cost (paths s.mem r) (p ++ q)) ∨
        (o ≠ none ∧
          s'.pages.current = s.pages.current + 4096 * cost (paths s.mem r) (p ++ q) ∧
          paths s'.mem r = grow (paths s.mem r) (p ++ q)) := by
  intro q
  induction q with
  | nil =>
    intro p s f hlen ht hf o s' hrun
    simp only [List.nil_append, find_pte_create_from, Prog.pure_run,
      EStateM.Result.ok.injEq] at hrun
    obtain ⟨rfl, rfl⟩ := hrun
    have hsub : prefixes (p ++ []) ⊆ paths s.mem r := by
      rw [List.append_nil]
      exact prefixes_subset_paths (mem_paths_of_node (by simp at hlen; omega) hf)
    right
    rw [cost_eq_zero hsub, grow_eq hsub]
    exact ⟨by simp, rfl, rfl⟩
  | cons i q ih =>
    intro p s f hlen ht hf o s' hrun
    have hlen' : p.length ≤ 1 := by simp at hlen; omega
    have hsnoc : p ++ [i] ++ q = p ++ i :: q := by simp
    have hpre : p ++ [i] <+: p ++ i :: q := ⟨q, hsnoc⟩
    rcases child_create_cases (i := i) ht hr (by omega) hf with
      ⟨hvalid, heq⟩ | ⟨hinv, hroom, heq⟩ | ⟨hinv, hfull, heq⟩
    · -- the node is there
      obtain ⟨-, hrest⟩ := (find_pte_create_from_through hrun heq).resolve_left (by simp)
      rw [entry_eq_pte (ht.small hr (by omega) hf)] at hrest
      have hnext := ih (p ++ [i]) s _ (by simp at hlen ⊢; omega) ht (node_child hf hvalid) o s' hrest
      rwa [hsnoc] at hnext
    · -- a frame becomes the node
      obtain ⟨-, hrest⟩ := (find_pte_create_from_through hrun heq).resolve_left (by simp)
      obtain ⟨hgrow, -, hnew⟩ := grows_link ht hr hlen' hf hinv hroom
      have hft := hgrow.keeps r hr p f (by omega) hf
      have hvalid := (entry_of_node_snoc hft hnew).1
      rw [entry_eq_pte (ht.small hr (by omega) hf)] at hrest
      have hnext := ih (p ++ [i]) (s.link f i) _ (by simp at hlen ⊢; omega) hgrow.tables
        (node_child hft hvalid) o s' hrest
      have hmiss : p ++ [i] ∉ paths s.mem r := by
        intro hin
        refine hin.2 ?_
        exact node_dead hf hinv []
      have hpaths := paths_link ht hr hlen' hf hinv
      have hcost := cost_insert hpre hmiss
      have hcur : (s.link f i).pages.current = s.pages.current + 4096 := rfl
      have hend : (s.link f i).pages.end_ = s.pages.end_ := rfl
      have hgrown : grow (insert (p ++ [i]) (paths s.mem r)) (p ++ i :: q) =
          grow (paths s.mem r) (p ++ i :: q) := by
        unfold grow
        rw [Set.insert_union]
        exact Set.insert_eq_self.mpr (Or.inr hpre)
      rw [hsnoc, hpaths, hgrown, hcur, hend] at hnext
      rcases hnext with ⟨ho, hfull⟩ | ⟨ho, hused, hs'⟩
      · exact Or.inl ⟨ho, by omega⟩
      · exact Or.inr ⟨ho, by omega, hs'⟩
    · -- there is no frame
      obtain ⟨-, rfl, -⟩ := (find_pte_create_from_through hrun heq).resolve_right (by simp)
      have hpos : 0 < cost (paths s.mem r) (p ++ i :: q) := by
        have hmiss : p ++ [i] ∉ paths s.mem r := fun hin => hin.2 (node_dead hf hinv [])
        rw [cost_insert hpre hmiss]
        omega
      exact Or.inl ⟨rfl, by omega⟩

end Walk

section Exact

variable {s s' : Mm} {R : Set Nat} {r : Nat}

/-- The paths after a page is mapped, in any way. -/
theorem paths_leaf_store (ht : Tables s R) (hr : r ∈ R) {f : Nat} {v : Vpn}
    (hf : node s.mem r [v.i, v.j] = some f) {e : PageTableEntry} (he : e.is_valid = true) :
    paths (write64 s.mem (4096 * f + 8 * v.k) e.bits) r = insert v.path (paths s.mem r) := by
  have hsame := same_leaf_store (k := v.k) ht hr hf e hr
  have hleaf := fun w => leaf_leaf_store (k := v.k) ht hr hf e hr w
  ext p
  by_cases hp : p.length ≤ 2
  · -- the nodes stay
    have hne : p ≠ v.path := by
      rintro rfl
      simp [Vpn.path] at hp
    simp only [paths, Set.mem_ofPred_eq, Set.mem_insert_iff, hne, false_or,
      node_of_same hsame hp]
  · by_cases hp3 : p.length = 3
    · obtain ⟨i, j, k, rfl⟩ := List.length_eq_three.mp hp3
      have hpage : ∀ m, [i, j, k] ∈ paths m r ↔ leaf m r ⟨i, j, k⟩ ≠ none := by
        intro m
        rw [ne_eq, leaf_eq_none_iff, not_not]
        rfl
      rw [Set.mem_insert_iff, hpage, hpage, hleaf ⟨i, j, k⟩]
      by_cases hv : (⟨i, j, k⟩ : Vpn) = v
      · subst hv
        simp [he, Vpn.path]
      · have hne : [i, j, k] ≠ v.path := by
          intro h
          simp only [Vpn.path, List.cons.injEq, and_true] at h
          exact hv (by cases v; simp_all)
        rw [if_neg (by tauto)]
        simp [hne]
    · have hlong : ∀ m, p ∉ paths m r := fun m hin => by
        have := hin.1
        omega
      have hne : p ≠ v.path := by
        rintro rfl
        simp [Vpn.path] at hp3
      simp [hlong, hne]

/-- `map` when the walk has found no frame for a node. -/
theorem map_of_no_walk {va pa : Nat} {flags : PTEFlags}
    (h : find_pte_create_from r (indices (va >>> PAGE_SIZE_BITS)) s = .ok none s') :
    PageTable.map ⟨r⟩ va pa flags s = .error (.panic "out of memory mapping page") s' := by
  unfold PageTable.map PageTable.find_pte_create
  dsimp only
  rw [Prog.bind_of_ok h]
  rfl

/-- `map` when the walk has found an invalid entry. -/
theorem map_of_walk {va g : Nat} {k : Fin 512} (pa : Nat) (flags : PTEFlags) (hg : g < 2 ^ 51)
    (h : find_pte_create_from r (indices (va >>> PAGE_SIZE_BITS)) s = .ok (some (slot g k)) s')
    (hinv : (entry s'.mem g k).is_valid = false) :
    PageTable.map ⟨r⟩ va pa flags s = .ok () { s' with
      mem := write64 s'.mem (4096 * g + 8 * k)
        (PageTableEntry.new (pa >>> PAGE_SIZE_BITS) flags.mapped).bits } := by
  unfold PageTable.map PageTable.find_pte_create
  dsimp only
  rw [Prog.bind_of_ok h]
  rw [← slot_eq hg]
  simp only [Prog.bind_run, Prog.get_run, entry_eq_pte hg, hinv, Bool.false_eq_true, if_false,
    Prog.modify_run]

/-- **`map` of an unmapped page**: it succeeds just if there are frames for the
    missing nodes. -/
theorem map_exact (ht : Tables s R) (hr : r ∈ R) {va pa : Nat} (hpa : pa < 2 ^ 64)
    (flags : PTEFlags) (hnone : leaf s.mem r (Vpn.of va) = none) :
    (s.pages.current + 4096 * cost (paths s.mem r) (Vpn.of va).path ≤ s.pages.end_ + 4096 ∧
      ∃ s', PageTable.map ⟨r⟩ va pa flags s = .ok () s' ∧
        Mapped R r (Vpn.of va) (PageTableEntry.new (pa >>> PAGE_SIZE_BITS) flags.mapped) s s' ∧
        s'.pages.current + 4096 = s.pages.current + 4096 * cost (paths s.mem r) (Vpn.of va).path ∧
        paths s'.mem r = grow (paths s.mem r) (Vpn.of va).path) ∨
    (s.pages.end_ + 4096 < s.pages.current + 4096 * cost (paths s.mem r) (Vpn.of va).path ∧
      ∃ s', PageTable.map ⟨r⟩ va pa flags s = .error (.panic "out of memory mapping page") s') := by
  have hmiss := leaf_eq_none_iff.mp hnone
  have hcost := Vpn.cost_path hmiss
  obtain ⟨o, t, hwalk⟩ := find_pte_create_from_returns (indices (va >>> PAGE_SIZE_BITS)) r s
  have hwalk' := hwalk
  rw [indices_eq] at hwalk'
  obtain ⟨⟨hgrow, hleaf, -, -⟩, hout⟩ :=
    find_pte_create_from_spec hr _ [] s r (by simp) ht rfl o t hwalk'
  have hexact := find_pte_create_from_exact hr _ [] s r (by simp) ht rfl o t hwalk'
  rw [List.nil_append] at hexact
  rcases hexact with ⟨rfl, hfull⟩ | ⟨ho, hused, hpaths⟩
  · exact Or.inr ⟨by omega, t, map_of_no_walk hwalk⟩
  · rcases hout with ⟨rfl, -, -⟩ | ⟨g, rfl, hg⟩
    · exact absurd rfl ho
    have hg' : node t.mem r [(Vpn.of va).i, (Vpn.of va).j] = some g := hg
    have hinv : (entry t.mem g (Vpn.of va).k).is_valid = false := by
      have hnone' := (hleaf r hr (Vpn.of va)).trans hnone
      rw [leaf, hg'] at hnone'
      simpa using hnone'
    have hmap := map_of_walk pa flags (hgrow.tables.small hr (by simp) hg')
      hwalk hinv
    have hppn : pa >>> PAGE_SIZE_BITS < 2 ^ 54 := by
      rw [Nat.shiftRight_eq_div_pow, PAGE_SIZE_BITS]; omega
    have hnew : (PageTableEntry.new (pa >>> PAGE_SIZE_BITS) flags.mapped).is_valid = true := by
      rw [PageTableEntry.is_valid, PageTableEntry.new_flags hppn]
      exact PTEFlags.mapped_valid flags
    have hend := hgrow.end_eq
    have hle := hgrow.tables.ok.le_end
    refine Or.inl ⟨by omega, _, hmap, map_spec ht hr hpa hmap, ?_, ?_⟩
    · show t.pages.current + 4096 = _
      omega
    · rw [paths_leaf_store hgrow.tables hr hg' hnew, hpaths, Vpn.grow_path]

end Exact

/-! ## Section 2: Pages in new frames -/

/-- The missing page `v` has been mapped to the frame at the cursor. -/
structure Placed (R : Set Nat) (r : Nat) (flags : PTEFlags) (v : Vpn) (s t : Mm) : Prop where
  was : leaf s.mem r v = none
  grows : Grows R r s t
  used : t.pages.current = s.pages.current + 4096 * cost (paths s.mem r) v.path
  paths : paths t.mem r = grow (paths s.mem r) v.path
  entry : leaf t.mem r v = some (PageTableEntry.new s.next flags.mapped)
  others : ∀ x ∈ R, ∀ w, ¬ (x = r ∧ w = v) → leaf t.mem x w = leaf s.mem x w
  apart : ∀ x ∈ R, ∀ p, p.length ≤ 2 → node t.mem x p ≠ some s.next

section Place

variable {s t : Mm} {R : Set Nat} {r : Nat} {v : Vpn} {flags : PTEFlags}

/-- A frame is handed out. -/
theorem grows_take (ht : Tables s R) (r : Nat) (hroom : s.pages.current + 4096 ≤ s.pages.end_) :
    Grows R r s s.take where
  tables := tables_take ht hroom
  end_eq := rfl
  cursor := Nat.le_add_right _ _
  keeps := fun x hx p f hp hf => by rwa [node_of_same (same_take ht hx) (by omega)]
  fresh := fun x hx p f hp hf => by
    rw [node_of_same (same_take ht hx) (by omega)] at hf
    exact Or.inl hf
  bytes := fun a ha => by
    right
    by_contra hout
    have hcur : s.take.pages.current = s.pages.current + 4096 := rfl
    exact ha (take_mem_out (by omega))

/-- **A page mapped to a new frame**, from a state with at least one frame left:
    it takes one frame for each path that was missing, and the page is zero. -/
theorem place_exact (ht : Tables s R) (hr : r ∈ R) (hroom : s.pages.current + 4096 ≤ s.pages.end_)
    {va : Nat} (flags : PTEFlags) (hnone : leaf s.mem r (Vpn.of va) = none) :
    (s.pages.current + 4096 * cost (paths s.mem r) (Vpn.of va).path ≤ s.pages.end_ ∧
      ∃ t, PageTable.map ⟨r⟩ va s.pages.current flags s.take = .ok () t ∧
        Placed R r flags (Vpn.of va) s t ∧
        ∀ a, s.pages.current ≤ a → a < s.pages.current + 4096 → t.mem a = 0) ∨
    (s.pages.end_ < s.pages.current + 4096 * cost (paths s.mem r) (Vpn.of va).path ∧
      ∃ t, PageTable.map ⟨r⟩ va s.pages.current flags s.take =
        .error (.panic "out of memory mapping page") t) := by
  have hok := ht.ok
  have hle := hok.le_end
  have hend := hok.end_le
  have hnext := hok.next_eq
  have hsame := same_take ht hr
  have hnone' : leaf s.take.mem r (Vpn.of va) = none := by rw [leaf_of_same hsame, hnone]
  have hcur : s.take.pages.current = s.pages.current + 4096 := rfl
  have hend' : s.take.pages.end_ = s.pages.end_ := rfl
  have hmap := map_exact (tables_take ht hroom) hr (show s.pages.current < 2 ^ 64 by omega) flags
    hnone'
  rw [paths_of_same hsame, frame_at_cursor, hcur, hend'] at hmap
  rcases hmap with ⟨hfit, t, hrun, hm, hused, hpaths⟩ | ⟨hfull, t, hrun⟩
  · have hold : ∀ x ∈ R, ∀ p f, p.length ≤ 2 → node s.take.mem x p = some f →
        4096 * f + 4096 ≤ s.pages.current := by
      intro x hx p f hp hf
      rw [node_of_same (same_take ht hx) (by omega)] at hf
      exact ht.below x hx p f hp hf
    refine Or.inl ⟨by omega, t, hrun, ⟨hnone, ?_, by omega, hpaths, ?_, ?_, ?_⟩, ?_⟩
    · exact (grows_take ht r hroom).trans hr hm.grows
    · rw [hm.leaves r hr, if_pos ⟨rfl, rfl⟩]
    · intro x hx w hw
      rw [hm.leaves x hx, if_neg hw, leaf_of_same (same_take ht hx)]
    · -- a node is an old one, or has a frame beyond the page's
      intro x hx p hp hf
      rcases hm.grows.fresh x hx p _ hp hf with hf | ⟨-, hge⟩
      · have := hold x hx p _ hp hf
        omega
      · omega
    · intro a hlo hhi
      rw [← take_mem_fresh hlo hhi]
      by_contra hne
      rcases hm.grows.bytes a hne with ⟨p, f, hp, hf, h1, h2⟩ | hfresh
      · have := hold r hr p f hp hf
        omega
      · omega
  · exact Or.inr ⟨by omega, t, hrun⟩

/-- The page's own frame is one of those that were taken. -/
theorem Placed.room (h : Placed R r flags v s t) : s.pages.current + 4096 ≤ t.pages.current := by
  have hpos := cost_pos (leaf_eq_none_iff.mp h.was)
  have hused := h.used
  omega

/-- Writing to the new page. -/
theorem Placed.write (h : Placed R r flags v s t) (hr : r ∈ R) (hok : s.Ok) {m : Mem}
    (hm : ∀ a, a < s.pages.current ∨ s.pages.current + 4096 ≤ a → m a = t.mem a) :
    Placed R r flags v s { t with mem := m } := by
  have hnext := hok.next_eq
  have hsame : ∀ x ∈ R, SameEntries t.mem m x 2 := by
    intro x hx p f hp hf i
    refine entry_congr (fun a h1 h2 => hm a ?_) i
    have : f ≠ s.next := by
      rintro rfl
      exact h.apart x hx p hp hf
    omega
  have ht := h.grows.tables
  refine ⟨h.was, ⟨?_, h.grows.end_eq, h.grows.cursor, ?_, ?_, ?_⟩, h.used, ?_, ?_, ?_, ?_⟩
  · exact ht.transport ⟨ht.ok.aligned, ht.ok.le_end, ht.ok.end_le⟩ (le_refl _)
      fun x hx => (hsame x hx).shallow (by omega)
  · intro x hx p f hp hf
    rw [node_of_same (hsame x hx) (by omega)]
    exact h.grows.keeps x hx p f hp hf
  · intro x hx p f hp hf
    rw [node_of_same (hsame x hx) (by omega)] at hf
    exact h.grows.fresh x hx p f hp hf
  · intro a ha
    by_cases hin : a < s.pages.current ∨ s.pages.current + 4096 ≤ a
    · rw [show ({ t with mem := m } : Mm).mem a = t.mem a from hm a hin] at ha
      exact h.grows.bytes a ha
    · have hroom := h.room
      exact Or.inr (by show s.pages.current ≤ a ∧ a < t.pages.current; omega)
  · rw [← h.paths]
    exact paths_of_same (hsame r hr)
  · rw [← h.entry]
    exact leaf_of_same (hsame r hr) v
  · intro x hx w hw
    rw [← h.others x hx w hw]
    exact leaf_of_same (hsame x hx) w
  · intro x hx p hp
    rw [node_of_same (hsame x hx) (by omega)]
    exact h.apart x hx p hp

/-! ## Section 3: Several pages -/

/-- The paths of the pages at some addresses. -/
def pagePaths (l : List Nat) : List (List (Fin 512)) := l.map fun va => (Vpn.of va).path

/-- The frames that mapping these pages takes: one for each page and for each
    node that is missing. -/
noncomputable def framesFor (m : Mem) (r : Nat) (l : List Nat) : Nat :=
  demand (Rvos.paths m r) (pagePaths l)

/-- A loop that maps missing pages gets through `l1` with `n` frames: they suffice
    for all of it, or are used up at its end. -/
def Reaches (m : Mem) (r : Nat) (l1 l2 : List Nat) (n : Nat) : Prop :=
  framesFor m r l1 = n ∨ (l2 = [] ∧ framesFor m r l1 ≤ n)

theorem framesFor_nil (m : Mem) (r : Nat) : framesFor m r [] = 0 := demand_nil _

theorem framesFor_mapped {m : Mem} {va : Nat} (h : leaf m r (Vpn.of va) ≠ none) (l : List Nat) :
    framesFor m r (va :: l) = framesFor m r l := by
  refine demand_cons_of_mem (prefixes_subset_paths ?_) _
  by_contra hmiss
  exact h (leaf_eq_none_iff.mpr hmiss)

/-- One page is mapped, then the others. -/
theorem Placed.framesFor {va : Nat} (h : Placed R r flags (Vpn.of va) s t) (l : List Nat) :
    framesFor s.mem r (va :: l) =
      cost (Rvos.paths s.mem r) (Vpn.of va).path + framesFor t.mem r l := by
  unfold Rvos.framesFor
  rw [h.paths]
  exact demand_cons _ _ _

theorem cost_le_framesFor (m : Mem) (r va : Nat) (l : List Nat) :
    cost (Rvos.paths m r) (Vpn.of va).path ≤ framesFor m r (va :: l) := by
  unfold Rvos.framesFor pagePaths
  rw [List.map_cons, demand_cons]
  omega

end Place

end Rvos

import Mathlib

/-! # What it costs to grow a trie

    A trie is seen as the set of its paths.  Inserting a path adds all its
    prefixes, and costs one unit for each that was not there.  The costs of
    several insertions depend on their order, their sum does not: it is the
    number of all the prefixes that were missing.

    * `cost X p`   : what inserting `p` into `X` costs.
    * `demand X l` : what inserting all paths of `l` costs together.
    * `demand_cons` : one path after the other. -/

namespace Trie

variable {κ : Type} {X Y : Set (List κ)} {p q : List κ} {l : List (List κ)}

/-- The prefixes of a path, the path included. -/
def prefixes (p : List κ) : Set (List κ) := {q | q <+: p}

/-- The trie with a path inserted. -/
def grow (X : Set (List κ)) (p : List κ) : Set (List κ) := X ∪ prefixes p

/-- What inserting a path costs. -/
noncomputable def cost (X : Set (List κ)) (p : List κ) : Nat := (prefixes p \ X).ncard

/-- The prefixes of some paths. -/
def closure (l : List (List κ)) : Set (List κ) := {q | ∃ p ∈ l, q <+: p}

/-- What inserting all these paths costs. -/
noncomputable def demand (X : Set (List κ)) (l : List (List κ)) : Nat := (closure l \ X).ncard

theorem mem_prefixes : q ∈ prefixes p ↔ q <+: p := Iff.rfl

theorem finite_prefixes (p : List κ) : (prefixes p).Finite := by
  refine (List.finite_toSet p.inits).subset fun q hq => ?_
  exact List.mem_inits q p |>.mpr hq

theorem closure_nil : closure ([] : List (List κ)) = ∅ := by
  simp [closure]

theorem closure_cons (p : List κ) (l : List (List κ)) :
    closure (p :: l) = prefixes p ∪ closure l := by
  ext q
  simp [closure, prefixes]

theorem finite_closure (l : List (List κ)) : (closure l).Finite := by
  induction l with
  | nil => rw [closure_nil]; exact Set.finite_empty
  | cons p l ih => rw [closure_cons]; exact (finite_prefixes p).union ih

/-- A trie that has the path has nothing to pay. -/
theorem cost_eq_zero (h : prefixes p ⊆ X) : cost X p = 0 := by
  rw [cost, Set.sdiff_eq_empty.mpr h, Set.ncard_empty]

theorem grow_eq (h : prefixes p ⊆ X) : grow X p = X := Set.union_eq_left.mpr h

/-- The path itself is paid for, and the prefixes above it. -/
theorem cost_pos (h : p ∉ X) : 0 < cost X p := by
  rw [cost, Set.ncard_pos ((finite_prefixes p).subset Set.sdiff_subset)]
  exact ⟨p, List.prefix_refl p, h⟩

/-- A path is never paid for more than once for each of its prefixes. -/
theorem cost_le (X : Set (List κ)) (p : List κ) : cost X p ≤ p.length + 1 := by
  have hsub : prefixes p \ X ⊆ {q | q ∈ p.inits} := fun q hq => (List.mem_inits q p).mpr hq.1
  calc cost X p ≤ {q | q ∈ p.inits}.ncard := Set.ncard_le_ncard hsub (List.finite_toSet _)
    _ ≤ p.inits.length := by
      classical
      rw [show {q | q ∈ p.inits} = (p.inits.toFinset : Set (List κ)) by ext; simp,
        Set.ncard_coe_finset]
      exact p.inits.toFinset_card_le
    _ = p.length + 1 := List.length_inits p

/-- A prefix that is missing is paid for once. -/
theorem cost_insert (hq : q <+: p) (hX : q ∉ X) : cost X p = cost (insert q X) p + 1 := by
  have hdiff : prefixes p \ X = insert q (prefixes p \ insert q X) := by
    ext x
    by_cases hx : x = q
    · subst hx
      simp [prefixes, hq, hX]
    · simp [hx]
  rw [cost, hdiff, Set.ncard_insert_of_notMem (by simp)
    ((finite_prefixes p).subset Set.sdiff_subset)]
  rfl

/-- A path one step longer. -/
theorem cost_snoc {i : κ} (h : p ++ [i] ∉ X) : cost X (p ++ [i]) = cost X p + 1 := by
  have hdiff : prefixes (p ++ [i]) \ X = insert (p ++ [i]) (prefixes p \ X) := by
    ext q
    simp only [prefixes, Set.mem_sdiff, Set.mem_ofPred_eq, Set.mem_insert_iff, List.prefix_concat_iff]
    constructor
    · rintro ⟨rfl | hq, hX⟩
      · exact Or.inl rfl
      · exact Or.inr ⟨hq, hX⟩
    · rintro (rfl | ⟨hq, hX⟩)
      · exact ⟨Or.inl rfl, h⟩
      · exact ⟨Or.inr hq, hX⟩
  have hlong : p ++ [i] ∉ prefixes p \ X := by
    rintro ⟨hq, -⟩
    have := List.IsPrefix.length_le hq
    simp at this
  rw [cost, hdiff, Set.ncard_insert_of_notMem hlong ((finite_prefixes p).subset Set.sdiff_subset)]
  rfl

theorem demand_nil (X : Set (List κ)) : demand X [] = 0 := by
  simp [demand, closure_nil]

/-- **One path after the other**: the later ones find the prefixes of the first. -/
theorem demand_cons (X : Set (List κ)) (p : List κ) (l : List (List κ)) :
    demand X (p :: l) = cost X p + demand (grow X p) l := by
  have hsplit : closure (p :: l) \ X = (prefixes p \ X) ∪ (closure l \ grow X p) := by
    ext q
    simp only [closure_cons, grow, Set.mem_sdiff, Set.mem_union, not_or]
    tauto
  have hdisj : Disjoint (prefixes p \ X) (closure l \ grow X p) := by
    rw [Set.disjoint_left]
    intro q hq hq'
    exact hq'.2 (Or.inr hq.1)
  rw [demand, hsplit, Set.ncard_union_eq hdisj ((finite_prefixes p).subset Set.sdiff_subset)
    ((finite_closure l).subset Set.sdiff_subset)]
  rfl

/-- A path that is there makes no difference. -/
theorem demand_cons_of_mem (h : prefixes p ⊆ X) (l : List (List κ)) :
    demand X (p :: l) = demand X l := by
  rw [demand_cons, cost_eq_zero h, grow_eq h, Nat.zero_add]

end Trie

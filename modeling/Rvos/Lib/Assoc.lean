import Mathlib.Data.List.Sort
import Mathlib.Tactic

/-! # Ordered maps as sorted lists

    The entries of a map with natural keys, in the order of the keys, are one
    list: the only sorted list with the map's lookups (`toList_unique`).  So an
    insertion, a change or a removal in the map is the corresponding change of
    that list, and what a loop over the map finds can be computed on the list. -/

namespace Assoc

variable {β γ : Type} {t : Std.TreeMap Nat β} {l : List (Nat × β)}

theorem get_insert (t : Std.TreeMap Nat β) (k j : Nat) (v : β) :
    (t.insert k v)[j]? = if j = k then some v else t[j]? := by
  rw [Std.TreeMap.getElem?_insert]
  simp only [Nat.compare_eq_eq, eq_comm (a := k)]

theorem get_modify (t : Std.TreeMap Nat β) (k j : Nat) (f : β → β) :
    (t.modify k f)[j]? = if j = k then t[j]?.map f else t[j]? := by
  rw [Std.TreeMap.getElem?_modify]
  simp only [Nat.compare_eq_eq, eq_comm (a := k)]
  by_cases hk : j = k
  · simp [hk]
  · simp [hk]

theorem get_erase (t : Std.TreeMap Nat β) (k j : Nat) :
    (t.erase k)[j]? = if j = k then none else t[j]? := by
  rw [Std.TreeMap.getElem?_erase]
  simp only [Nat.compare_eq_eq, eq_comm (a := k)]

/-- Strictly ascending keys. -/
def Ascending (l : List (Nat × β)) : Prop := l.Pairwise fun a b => a.1 < b.1

theorem ascending_toList (t : Std.TreeMap Nat β) : Ascending t.toList :=
  t.ordered_keys_toList.imp Nat.compare_eq_lt.mp

theorem Ascending.nodup (h : Ascending l) : l.Nodup := by
  refine h.imp ?_
  intro a b hab heq
  exact Nat.lt_irrefl _ (heq ▸ hab)

/-- A sorted list with the lookups of a map is the list of its entries. -/
theorem toList_unique (hl : Ascending l) (h : ∀ k v, (k, v) ∈ l ↔ t[k]? = some v) :
    t.toList = l := by
  have hperm : t.toList.Perm l := by
    rw [List.perm_ext_iff_of_nodup (ascending_toList t).nodup hl.nodup]
    rintro ⟨k, v⟩
    rw [h, Std.TreeMap.mem_toList_iff_getElem?_eq_some]
  refine hperm.eq_of_pairwise (fun a b _ _ hab hba => ?_) (ascending_toList t) hl
  omega

/-- Change the value of one key. -/
def update (k : Nat) (f : β → β) (l : List (Nat × β)) : List (Nat × β) :=
  l.map fun p => if p.1 = k then (p.1, f p.2) else p

/-- Remove one key. -/
def remove (k : Nat) (l : List (Nat × β)) : List (Nat × β) := l.filter fun p => p.1 ≠ k

/-- Change every value. -/
def mapVal (f : Nat → β → γ) (l : List (Nat × β)) : List (Nat × γ) := l.map fun p => (p.1, f p.1 p.2)

theorem toList_modify (k : Nat) (f : β → β) : (t.modify k f).toList = update k f t.toList := by
  refine toList_unique ?_ ?_
  · refine List.Pairwise.map _ ?_ (ascending_toList t)
    intro a b hab
    split <;> split <;> exact hab
  · intro j v
    simp only [update, List.mem_map, Prod.exists, Std.TreeMap.mem_toList_iff_getElem?_eq_some,
      Std.TreeMap.getElem?_modify]
    constructor
    · rintro ⟨a, b, hab, heq⟩
      split at heq
      · next ha =>
        simp only [Prod.mk.injEq] at heq
        simp [← heq.1, ← heq.2, ← ha, hab]
      · next ha =>
        simp only [Prod.mk.injEq] at heq
        simp [← heq.1, ← heq.2, Ne.symm ha, hab]
    · intro h
      by_cases hk : k = j
      · subst hk
        simp only [Nat.compare_eq_eq.mpr, if_true, Option.map_eq_some_iff] at h
        obtain ⟨b, hb, rfl⟩ := h
        exact ⟨k, b, hb, by simp⟩
      · simp only [Nat.compare_eq_eq, hk, if_false] at h
        exact ⟨j, v, h, by simp [Ne.symm hk]⟩

theorem toList_erase (k : Nat) : (t.erase k).toList = remove k t.toList := by
  refine toList_unique ((ascending_toList t).filter _) ?_
  intro j v
  simp only [remove, List.mem_filter, Std.TreeMap.mem_toList_iff_getElem?_eq_some,
    Std.TreeMap.getElem?_erase, Nat.compare_eq_eq]
  by_cases hk : k = j
  · simp [hk]
  · simp [hk, Ne.symm hk]

/-- A new key above all others comes last. -/
theorem toList_insert {t' : Std.TreeMap Nat β} {k : Nat} {v : β}
    (h' : ∀ j, t'[j]? = if j = k then some v else t[j]?) (h : ∀ p ∈ t.toList, p.1 < k) :
    t'.toList = t.toList ++ [(k, v)] := by
  refine toList_unique ?_ ?_
  · refine List.pairwise_append.mpr ⟨ascending_toList t, List.pairwise_singleton _ _, ?_⟩
    intro a ha b hb
    obtain rfl := List.mem_singleton.mp hb
    exact h a ha
  · intro j w
    simp only [List.mem_append, List.mem_singleton, Prod.mk.injEq,
      Std.TreeMap.mem_toList_iff_getElem?_eq_some, h']
    by_cases hk : j = k
    · subst hk
      have hnone : t[j]? ≠ some w := fun hj =>
        Nat.lt_irrefl _ (h _ (Std.TreeMap.mem_toList_iff_getElem?_eq_some.mpr hj))
      simp only [hnone, if_true, true_and, false_or, Option.some.injEq]
      exact eq_comm
    · simp [hk]

/-- The value of a key. -/
def lookup (k : Nat) (l : List (Nat × β)) : Option β := (l.find? fun p => p.1 = k).map Prod.snd

@[simp] theorem lookup_nil (k : Nat) : lookup k ([] : List (Nat × β)) = none := rfl

@[simp] theorem lookup_cons (k : Nat) (p : Nat × β) (l : List (Nat × β)) :
    lookup k (p :: l) = if p.1 = k then some p.2 else lookup k l := by
  unfold lookup
  by_cases hp : p.1 = k <;> simp [hp]

theorem lookup_toList (t : Std.TreeMap Nat β) (k : Nat) : lookup k t.toList = t[k]? := by
  unfold lookup
  cases hfind : t.toList.find? fun p => p.1 = k with
  | some p =>
    have hp : p.1 = k := by simpa using List.find?_some hfind
    have hmem := Std.TreeMap.mem_toList_iff_getElem?_eq_some.mp (List.mem_of_find?_eq_some hfind)
    rw [← hp, hmem]
    rfl
  | none =>
    cases hk : t[k]? with
    | none => rfl
    | some v =>
      have hnone := List.find?_eq_none.mp hfind (k, v)
        (Std.TreeMap.mem_toList_iff_getElem?_eq_some.mpr hk)
      simp at hnone

theorem lookup_mapVal (f : Nat → β → γ) (k : Nat) (l : List (Nat × β)) :
    lookup k (mapVal f l) = (lookup k l).map (f k) := by
  unfold lookup mapVal
  rw [List.find?_map]
  cases hfind : l.find? fun p => p.1 = k with
  | none => simp [hfind]
  | some p =>
    have hp : p.1 = k := by simpa using List.find?_some hfind
    simp [hfind, hp]

theorem mem_of_lookup {k : Nat} {v : β} (h : lookup k l = some v) : (k, v) ∈ l := by
  unfold lookup at h
  obtain ⟨p, hp, rfl⟩ := Option.map_eq_some_iff.mp h
  have hk : p.1 = k := by simpa using List.find?_some hp
  rw [← hk]
  exact List.mem_of_find?_eq_some hp

/-- In a sorted list every entry is found by its key. -/
theorem Ascending.lookup_of_mem (hl : Ascending l) {k : Nat} {v : β} (h : (k, v) ∈ l) :
    lookup k l = some v := by
  induction l with
  | nil => cases h
  | cons p l ih =>
    obtain ⟨hp, hrest⟩ := List.pairwise_cons.mp hl
    rcases List.mem_cons.mp h with rfl | hmem
    · simp
    · have hne : p.1 ≠ k := Nat.ne_of_lt (hp _ hmem)
      rw [lookup_cons, if_neg hne]
      exact ih hrest hmem

theorem lookup_update (k j : Nat) (f : β → β) (l : List (Nat × β)) :
    lookup k (update j f l) = if k = j then (lookup k l).map f else lookup k l := by
  induction l with
  | nil => simp [update]
  | cons p l ih =>
    have hcons : update j f (p :: l) = (if p.1 = j then (p.1, f p.2) else p) :: update j f l := rfl
    rw [hcons, lookup_cons, lookup_cons, ih]
    by_cases hp : p.1 = j
    · by_cases hk : k = j
      · simp [hp, hk]
      · simp [hp, hk, Ne.symm hk]
    · by_cases hk : k = j
      · simp [hp, hk]
      · simp [hp, hk]

theorem lookup_remove (k j : Nat) (l : List (Nat × β)) :
    lookup k (remove j l) = if k = j then none else lookup k l := by
  induction l with
  | nil => simp [remove]
  | cons p l ih =>
    unfold remove at ih ⊢
    by_cases hp : p.1 = j
    · rw [List.filter_cons_of_neg (by simp [hp]), ih, lookup_cons]
      by_cases hk : k = j
      · simp [hk]
      · simp [hk, hp, Ne.symm hk]
    · rw [List.filter_cons_of_pos (by simp [hp]), lookup_cons, lookup_cons, ih]
      by_cases hk : k = j
      · simp [hk, hp]
      · simp [hk]

theorem lookup_append (k n : Nat) (v : β) (l : List (Nat × β)) :
    lookup k (l ++ [(n, v)]) = (lookup k l).or (if k = n then some v else none) := by
  unfold lookup
  rw [List.find?_append]
  cases l.find? fun p => p.1 = k with
  | some p => simp
  | none => by_cases hk : k = n <;> simp [hk, eq_comm]

theorem Ascending.update (hl : Ascending l) (k : Nat) (f : β → β) : Ascending (update k f l) := by
  refine List.Pairwise.map _ ?_ hl
  intro a b hab
  split <;> split <;> exact hab

theorem Ascending.remove (hl : Ascending l) (k : Nat) : Ascending (remove k l) := hl.filter _

theorem Ascending.append (hl : Ascending l) {k : Nat} (v : β) (h : ∀ p ∈ l, p.1 < k) :
    Ascending (l ++ [(k, v)]) := by
  refine List.pairwise_append.mpr ⟨hl, List.pairwise_singleton _ _, ?_⟩
  intro a ha b hb
  obtain rfl := List.mem_singleton.mp hb
  exact h a ha

/-- Changing values one by one, seen through a function of the values. -/
theorem mapVal_update {f : β → γ} {g : β → β} {h : γ → γ} (hfg : ∀ b, f (g b) = h (f b)) (k : Nat)
    (l : List (Nat × β)) :
    mapVal (fun _ => f) (update k g l) = update k h (mapVal (fun _ => f) l) := by
  simp only [mapVal, update, List.map_map]
  refine List.map_congr_left fun p _ => ?_
  by_cases hp : p.1 = k <;> simp [hp, hfg]

theorem mapVal_remove (f : Nat → β → γ) (k : Nat) (l : List (Nat × β)) :
    mapVal f (remove k l) = remove k (mapVal f l) := by
  unfold mapVal remove
  rw [List.filter_map]
  rfl

end Assoc

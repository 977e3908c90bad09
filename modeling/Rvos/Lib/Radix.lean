import Mathlib.Tactic

/-! # Forests of radix nodes in a shared store

    Several search trees keep their nodes in one store.  The store is seen
    through its child function: `child f i` is the node that slot `i` of node
    `f` points to.  Nothing in the store itself says which tree a node belongs
    to, so that an update of one tree leaves the others alone is a property of
    the whole store.

    * `node child r p`   : the node reached from the root `r` along the path `p`.
    * `Apart child R d`  : up to depth `d`, the trees with roots in `R` share no
      node, and no tree reaches a node twice.
    * `node_congr`       : a node depends on the slots along its path only.
    * `node_link`        : the nodes after a fresh, empty node is linked in. -/

namespace Radix

variable {ν κ : Type}

/-! ## Section 1: Paths -/

/-- The node reached from `r` along the path `p`. -/
def node (child : ν → κ → Option ν) : ν → List κ → Option ν
  | r, [] => some r
  | r, i :: p => (child r i).bind fun c => node child c p

@[simp] theorem node_nil (child : ν → κ → Option ν) (r : ν) : node child r [] = some r := rfl

theorem node_cons (child : ν → κ → Option ν) (r : ν) (i : κ) (p : List κ) :
    node child r (i :: p) = (child r i).bind fun c => node child c p := rfl

theorem node_append (child : ν → κ → Option ν) (p q : List κ) :
    ∀ r, node child r (p ++ q) = (node child r p).bind fun f => node child f q := by
  induction p with
  | nil => intro r; rfl
  | cons i p ih =>
    intro r
    simp only [List.cons_append, node_cons, Option.bind_assoc, ih]

theorem node_snoc (child : ν → κ → Option ν) (r : ν) (p : List κ) (i : κ) :
    node child r (p ++ [i]) = (node child r p).bind fun f => child f i := by
  rw [node_append]
  congr 1
  funext f
  simp [node_cons]

/-- A node is determined by the slots along its path. -/
theorem node_congr {child child' : ν → κ → Option ν} {r : ν} {p : List κ}
    (h : ∀ q i f, q ++ [i] <+: p → node child r q = some f → child' f i = child f i) :
    node child' r p = node child r p := by
  induction p using List.reverseRecOn with
  | nil => rfl
  | append_singleton p i ih =>
    have hp : node child' r p = node child r p :=
      ih fun q j f hq hf => h q j f (hq.trans (List.prefix_append p [i])) hf
    rw [node_snoc, node_snoc, hp]
    cases hf : node child r p with
    | none => rfl
    | some f => exact h p i f (List.prefix_refl _) hf

/-! ## Section 2: Trees that share nothing -/

/-- Up to depth `d`, a node is reached from one root of `R` along one path. -/
def Apart (child : ν → κ → Option ν) (R : Set ν) (d : Nat) : Prop :=
  ∀ r ∈ R, ∀ r' ∈ R, ∀ p q f, p.length ≤ d → q.length ≤ d →
    node child r p = some f → node child r' q = some f → r = r' ∧ p = q

theorem Apart.mono {child : ν → κ → Option ν} {R R' : Set ν} {d : Nat}
    (h : Apart child R d) (hR : R' ⊆ R) : Apart child R' d :=
  fun r hr r' hr' => h r (hR hr) r' (hR hr')

/-- `child'` is `child` with slot `i` of `f` set to the empty node `g`. -/
structure Linked (child child' : ν → κ → Option ν) (f : ν) (i : κ) (g : ν) : Prop where
  here : child' f i = some g
  was : child f i = none
  other : ∀ f' j, (f' ≠ f ∨ j ≠ i) → f' ≠ g → child' f' j = child f' j
  leaf : ∀ j, child' g j = none

section Link

variable {child child' : ν → κ → Option ν} {R : Set ν} {d : Nat} {r f g : ν} {p : List κ} {i : κ}

/-- Linking adds one node to the forest: `g`, at the end of the path to its slot. -/
theorem node_link (hapart : Apart child R d) (hr : r ∈ R) (hp : p.length ≤ d)
    (hf : node child r p = some f) (hlink : Linked child child' f i g)
    (hfresh : ∀ r' ∈ R, ∀ q, q.length ≤ d → node child r' q ≠ some g)
    {r' : ν} (hr' : r' ∈ R) {q : List κ} (hq : q.length ≤ d + 1) {h : ν} :
    node child' r' q = some h ↔
      node child r' q = some h ∨ (r' = r ∧ q = p ++ [i] ∧ h = g) := by
  -- paths that do not go through the new edge see no change
  have hsame : ∀ q, q.length ≤ d + 1 → ¬ (r' = r ∧ p ++ [i] <+: q) →
      node child' r' q = node child r' q := by
    intro q hq hno
    refine node_congr fun q' j f' hpre hf' => ?_
    have hlen : q'.length ≤ d := by
      have := hpre.length_le
      simp at this
      omega
    refine hlink.other f' j ?_ fun hg => hfresh r' hr' q' hlen (hg ▸ hf')
    by_contra hcon
    push Not at hcon
    obtain ⟨rfl, rfl⟩ := hcon
    obtain ⟨rfl, rfl⟩ := hapart r' hr' r hr q' p f' hlen hp hf' hf
    exact hno ⟨rfl, hpre⟩
  by_cases hthru : r' = r ∧ p ++ [i] <+: q
  · -- through the new edge: `g` itself at its end, nothing below
    obtain ⟨rfl, tail, rfl⟩ := hthru
    have hp' : node child' r' p = some f := by
      rw [hsame p (by omega), hf]
      rintro ⟨-, hpre⟩
      have := hpre.length_le
      simp at this
    have hold : node child r' (p ++ [i] ++ tail) = none := by
      rw [node_append, node_snoc, hf]
      simp [hlink.was]
    have hnew : node child' r' (p ++ [i] ++ tail) = node child' g tail := by
      rw [node_append, node_snoc, hp']
      simp [hlink.here]
    rw [hold, hnew]
    cases tail with
    | nil => simp [eq_comm]
    | cons j tail => simp [node_cons, hlink.leaf]
  · rw [hsame q hq hthru]
    constructor
    · exact Or.inl
    · rintro (hn | ⟨rfl, rfl, rfl⟩)
      · exact hn
      · exact absurd ⟨rfl, List.prefix_refl _⟩ hthru

/-- Linking a fresh node keeps the trees apart. -/
theorem Apart.link (hapart : Apart child R d) (hr : r ∈ R) (hp : p.length ≤ d)
    (hf : node child r p = some f) (hlink : Linked child child' f i g)
    (hfresh : ∀ r' ∈ R, ∀ q, q.length ≤ d → node child r' q ≠ some g) :
    Apart child' R d := by
  intro r1 hr1 r2 hr2 q1 q2 h hq1 hq2 hn1 hn2
  rw [node_link hapart hr hp hf hlink hfresh hr1 (by omega)] at hn1
  rw [node_link hapart hr hp hf hlink hfresh hr2 (by omega)] at hn2
  rcases hn1 with hn1 | ⟨e1, e1', hg1⟩ <;> rcases hn2 with hn2 | ⟨e2, e2', hg2⟩
  · exact hapart r1 hr1 r2 hr2 q1 q2 h hq1 hq2 hn1 hn2
  · exact absurd (hg2 ▸ hn1) (hfresh r1 hr1 q1 hq1)
  · exact absurd (hg1 ▸ hn2) (hfresh r2 hr2 q2 hq2)
  · exact ⟨e1.trans e2.symm, e1'.trans e2'.symm⟩

end Link

/-- A fresh root without children joins the forest. -/
theorem Apart.insert {child : ν → κ → Option ν} {R : Set ν} {d : Nat} {g : ν}
    (hapart : Apart child R d) (hleaf : ∀ j, child g j = none)
    (hfresh : ∀ r ∈ R, ∀ q, q.length ≤ d → node child r q ≠ some g) :
    Apart child (insert g R) d := by
  have honly : ∀ q f, node child g q = some f → q = [] ∧ f = g := by
    intro q f hf
    cases q with
    | nil => exact ⟨rfl, by simpa [eq_comm] using hf⟩
    | cons j q => simp [node_cons, hleaf] at hf
  rintro r1 (rfl | hr1) r2 (rfl | hr2) q1 q2 f hq1 hq2 hn1 hn2
  · exact ⟨rfl, (honly q1 f hn1).1.trans (honly q2 f hn2).1.symm⟩
  · obtain ⟨-, rfl⟩ := honly q1 f hn1
    exact absurd hn2 (hfresh r2 hr2 q2 hq2)
  · obtain ⟨-, rfl⟩ := honly q2 f hn2
    exact absurd hn1 (hfresh r1 hr1 q1 hq1)
  · exact hapart r1 hr1 r2 hr2 q1 q2 f hq1 hq2 hn1 hn2

end Radix

import Mathlib.Tactic

/-! # Finite runs of a labelled transition system

    `Steps step s ls t` says that the labels `ls`, taken in order, lead from
    `s` to `t`.  `Steps.invariant` is the induction rule: what holds at the
    start and is kept by every step holds at the end.  `guarded ok step` is
    the system restricted to the steps whose pre-state and label meet `ok`,
    the form in which a result about well-behaved runs is stated. -/

namespace LTS

variable {σ ℓ : Type}

/-- The labels `ls` lead from the first state to the last. -/
inductive Steps (step : σ → ℓ → σ → Prop) : σ → List ℓ → σ → Prop where
  | nil : ∀ s, Steps step s [] s
  | snoc : ∀ {s t u : σ} {ls : List ℓ} (l : ℓ),
      Steps step s ls t → step t l u → Steps step s (ls ++ [l]) u

/-- `step` restricted to the labels that meet `ok` in the state before. -/
def guarded (ok : σ → ℓ → Prop) (step : σ → ℓ → σ → Prop) : σ → ℓ → σ → Prop :=
  fun s l t => ok s l ∧ step s l t

/-- **Invariant rule**: an invariant kept by every step is kept by a run. -/
theorem Steps.invariant {step : σ → ℓ → σ → Prop} {inv : σ → Prop}
    (hstep : ∀ s l t, inv s → step s l t → inv t)
    {s t : σ} {ls : List ℓ} (h : Steps step s ls t) (hs : inv s) : inv t := by
  induction h with
  | nil => exact hs
  | snoc l _ hl ih => exact hstep _ l _ ih hl

/-- **Invariant rule** with the history of the run. -/
theorem Steps.history {step : σ → ℓ → σ → Prop} (inv : List ℓ → σ → Prop)
    (hstep : ∀ ls s l t, inv ls s → step s l t → inv (ls ++ [l]) t)
    {s t : σ} {ls : List ℓ} (h : Steps step s ls t) (hs : inv [] s) : inv ls t := by
  induction h with
  | nil => exact hs
  | snoc l _ hl ih => exact hstep _ _ l _ ih hl

/-- A run of one system is a run of another that can do the same steps. -/
theorem Steps.mono {step step' : σ → ℓ → σ → Prop} (hstep : ∀ s l t, step s l t → step' s l t)
    {s t : σ} {ls : List ℓ} (h : Steps step s ls t) : Steps step' s ls t := by
  induction h with
  | nil => exact Steps.nil _
  | snoc l _ hl ih => exact Steps.snoc l ih (hstep _ l _ hl)

/-- A run of the restricted system is a run. -/
theorem Steps.of_guarded {ok : σ → ℓ → Prop} {step : σ → ℓ → σ → Prop}
    {s t : σ} {ls : List ℓ} (h : Steps (guarded ok step) s ls t) : Steps step s ls t :=
  h.mono fun _ _ _ hl => hl.2

/-- A single step is a run of one label. -/
theorem Steps.single {step : σ → ℓ → σ → Prop} {s t : σ} {l : ℓ} (h : step s l t) :
    Steps step s [l] t :=
  Steps.snoc l (Steps.nil s) h

theorem Steps.cons {step : σ → ℓ → σ → Prop} {s t u : σ} {l : ℓ} {ls : List ℓ}
    (hl : step s l t) (h : Steps step t ls u) : Steps step s (l :: ls) u := by
  induction h with
  | nil => exact Steps.single hl
  | snoc l' _ hl' ih => exact Steps.snoc l' ih hl'

theorem Steps.append {step : σ → ℓ → σ → Prop} {s t u : σ} {ls ls' : List ℓ}
    (h : Steps step s ls t) (h' : Steps step t ls' u) : Steps step s (ls ++ ls') u := by
  induction h' with
  | nil => rwa [List.append_nil]
  | snoc l _ hl ih =>
    rw [← List.append_assoc]
    exact Steps.snoc l ih hl

/-- **Refinement rule**: if every step from a state of the invariant is, seen through
    `f`, a run of the other system with labels that `tells` allows, then so is a run. -/
theorem Steps.refines {τ κ : Type} {step : σ → ℓ → σ → Prop} {step' : τ → κ → τ → Prop}
    (f : σ → τ) (inv : σ → Prop) (tells : ℓ → List κ → Prop)
    (hstep : ∀ s l t, inv s → step s l t → inv t ∧ ∃ es, tells l es ∧ Steps step' (f s) es (f t))
    {s t : σ} {ls : List ℓ} (h : Steps step s ls t) (hs : inv s) :
    inv t ∧ ∃ ess, List.Forall₂ tells ls ess ∧ Steps step' (f s) ess.flatten (f t) := by
  induction h with
  | nil => exact ⟨hs, [], .nil, Steps.nil _⟩
  | snoc l _ hl ih =>
    obtain ⟨ht, ess, htells, hrun⟩ := ih
    obtain ⟨hu, es, hes, hrun'⟩ := hstep _ l _ ht hl
    refine ⟨hu, ess ++ [es], List.rel_append htells (.cons hes .nil), ?_⟩
    rw [List.flatten_append, List.flatten_singleton]
    exact hrun.append hrun'

/-- The last step of a run. -/
theorem Steps.last {step : σ → ℓ → σ → Prop} {s u : σ} {l : ℓ} {ls : List ℓ}
    (h : Steps step s (ls ++ [l]) u) : ∃ t, Steps step s ls t ∧ step t l u := by
  generalize hls : ls ++ [l] = ls' at h
  cases h with
  | nil => simp at hls
  | snoc l' h hl =>
    obtain ⟨rfl, hl'⟩ := List.append_inj' hls rfl
    cases hl'
    exact ⟨_, h, hl⟩

end LTS

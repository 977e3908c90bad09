import Mathlib.Tactic

/-! # Programs over a state that can halt

    A program is `EStateM ε σ α`: from a state it either returns a value or
    halts with a reason, and both outcomes carry the state reached.

    * `bind_eq_ok`, `bind_eq_error` : a run of `c >>= f` split at the bind.
    * `zoom`   : a program on a part of the state, run on the whole state.
    * `Keeps R c` : every outcome of `c` is related by `R` to its start.  For
      a preorder `R` this composes (`Keeps.bind`), so a frame or an invariant
      of a long program follows from its parts.
    * `wp c Q E s` : what holds of the outcomes of `c`, with `each_wp` and
      `forM_wp` as the loop rules. -/

namespace Prog

variable {ε σ τ α β : Type}

/-- The state a run ends in, returned or halted. -/
def final : EStateM.Result ε σ α → σ
  | .ok _ s => s
  | .error _ s => s

@[simp] theorem final_ok (a : α) (s : σ) :
    final (EStateM.Result.ok a s : EStateM.Result ε σ α) = s := rfl

@[simp] theorem final_error (e : ε) (s : σ) :
    final (EStateM.Result.error e s : EStateM.Result ε σ α) = s := rfl

/-- The value, if the run returns one. -/
def value : EStateM.Result ε σ α → Option α
  | .ok a _ => some a
  | .error _ _ => none

/-- The error, if the run ends in one. -/
def failure : EStateM.Result ε σ α → Option ε
  | .ok _ _ => none
  | .error e _ => some e

theorem eq_error_of_failure {r : EStateM.Result ε σ α} {e : ε} (h : failure r = some e) :
    r = .error e (final r) := by
  cases r with
  | ok a s => cases h
  | error e' s =>
    cases h
    rfl

theorem eq_ok_of_value {r : EStateM.Result ε σ α} {a : α} (h : value r = some a) :
    r = .ok a (final r) := by
  cases r with
  | ok b s => cases h; rfl
  | error e s => cases h

/-! ## Section 1: Runs of the primitive programs -/

@[simp] theorem pure_run (a : α) (s : σ) :
    (pure a : EStateM ε σ α) s = .ok a s := rfl

@[simp] theorem get_run (s : σ) : (get : EStateM ε σ σ) s = .ok s s := rfl

@[simp] theorem set_run (s t : σ) : (set t : EStateM ε σ PUnit) s = .ok ⟨⟩ t := rfl

@[simp] theorem modify_run (f : σ → σ) (s : σ) :
    (modify f : EStateM ε σ PUnit) s = .ok ⟨⟩ (f s) := rfl

@[simp] theorem throw_run (e : ε) (s : σ) :
    (throw e : EStateM ε σ α) s = .error e s := rfl

theorem bind_run (c : EStateM ε σ α) (f : α → EStateM ε σ β) (s : σ) :
    (c >>= f) s = match c s with
      | .ok a t => f a t
      | .error e t => .error e t := rfl

theorem bind_of_ok {c : EStateM ε σ α} {f : α → EStateM ε σ β} {s t : σ} {a : α}
    (h : c s = .ok a t) : (c >>= f) s = f a t := by
  rw [bind_run, h]

theorem bind_of_error {c : EStateM ε σ α} {f : α → EStateM ε σ β} {s t : σ} {e : ε}
    (h : c s = .error e t) : (c >>= f) s = .error e t := by
  rw [bind_run, h]

/-- A returning run of a bind is two returning runs. -/
theorem bind_eq_ok {c : EStateM ε σ α} {f : α → EStateM ε σ β} {s u : σ} {b : β} :
    (c >>= f) s = .ok b u ↔ ∃ a t, c s = .ok a t ∧ f a t = .ok b u := by
  rw [bind_run]
  constructor
  · intro h
    cases hc : c s with
    | ok a t => exact ⟨a, t, rfl, by simpa [hc] using h⟩
    | error e t => simp [hc] at h
  · rintro ⟨a, t, hc, hf⟩
    simp [hc, hf]

/-- A halting run of a bind halts in the first part or in the second. -/
theorem bind_eq_error {c : EStateM ε σ α} {f : α → EStateM ε σ β} {s u : σ} {e : ε} :
    (c >>= f) s = .error e u ↔
      c s = .error e u ∨ ∃ a t, c s = .ok a t ∧ f a t = .error e u := by
  rw [bind_run]
  cases hc : c s with
  | ok a t => simp
  | error e' t => simp

/-! ## Section 2: A program on a part of the state -/

/-- Run `c` on the part `get t` of the state and put the result back. -/
def zoom (get : τ → σ) (put : σ → τ → τ) (c : EStateM ε σ α) : EStateM ε τ α :=
  fun t => match c (get t) with
    | .ok a s => .ok a (put s t)
    | .error e s => .error e (put s t)

theorem zoom_of_ok {get : τ → σ} {put : σ → τ → τ} {c : EStateM ε σ α} {t : τ} {s : σ}
    {a : α} (h : c (get t) = .ok a s) : zoom get put c t = .ok a (put s t) := by
  simp [zoom, h]

theorem zoom_eq_ok {get : τ → σ} {put : σ → τ → τ} {c : EStateM ε σ α} {t u : τ} {a : α} :
    zoom get put c t = .ok a u ↔ ∃ s, c (get t) = .ok a s ∧ u = put s t := by
  cases hc : c (get t) with
  | ok b s =>
    simp only [zoom, hc, EStateM.Result.ok.injEq]
    constructor
    · rintro ⟨rfl, rfl⟩; exact ⟨s, ⟨rfl, rfl⟩, rfl⟩
    · rintro ⟨s', ⟨rfl, rfl⟩, rfl⟩; exact ⟨rfl, rfl⟩
  | error e s => simp [zoom, hc]

theorem zoom_eq_error {get : τ → σ} {put : σ → τ → τ} {c : EStateM ε σ α} {t u : τ}
    {e : ε} :
    zoom get put c t = .error e u ↔ ∃ s, c (get t) = .error e s ∧ u = put s t := by
  cases hc : c (get t) with
  | error b s =>
    simp only [zoom, hc, EStateM.Result.error.injEq]
    constructor
    · rintro ⟨rfl, rfl⟩; exact ⟨s, ⟨rfl, rfl⟩, rfl⟩
    · rintro ⟨s', ⟨rfl, rfl⟩, rfl⟩; exact ⟨rfl, rfl⟩
  | ok a s => simp [zoom, hc]

theorem zoom_final {get : τ → σ} {put : σ → τ → τ} (c : EStateM ε σ α) (t : τ) :
    final (zoom get put c t) = put (final (c (get t))) t := by
  unfold zoom
  cases c (get t) <;> rfl

/-! ## Section 3: What every outcome leaves alone -/

/-- No outcome of `c` changes what `obs` sees of the state. -/
def Fixes (obs : σ → τ) (c : EStateM ε σ α) : Prop := ∀ s, obs (final (c s)) = obs s

section Fixes

variable {obs : σ → τ}

theorem Fixes.pure (a : α) : Fixes obs (pure a : EStateM ε σ α) := fun _ => rfl

theorem Fixes.get : Fixes obs (get : EStateM ε σ σ) := fun _ => rfl

theorem Fixes.modify {f : σ → σ} (h : ∀ s, obs (f s) = obs s) :
    Fixes obs (modify f : EStateM ε σ PUnit) := fun s => h s

theorem Fixes.bind {c : EStateM ε σ α} {f : α → EStateM ε σ β}
    (hc : Fixes obs c) (hf : ∀ a, Fixes obs (f a)) : Fixes obs (c >>= f) := by
  intro s
  have h1 := hc s
  rw [bind_run]
  cases hcs : c s with
  | ok a t =>
    rw [hcs] at h1
    exact (hf a t).trans h1
  | error e t =>
    rw [hcs] at h1
    exact h1

theorem Fixes.of_ok {c : EStateM ε σ α} (hc : Fixes obs c) {s t : σ} {a : α}
    (h : c s = .ok a t) : obs t = obs s := by
  simpa [h] using hc s

/-- What the rest of a program leaves alone is as its first part left it. -/
theorem Fixes.after {c : EStateM ε σ α} {f : α → EStateM ε σ β} (hf : ∀ a, Fixes obs (f a)) (s : σ) :
    obs (final ((c >>= f) s)) = obs (final (c s)) := by
  rw [bind_run]
  cases c s with
  | ok a t => exact hf a t
  | error e t => rfl

end Fixes

/-- Every outcome of `c` is related by `R` to its start. -/
def Keeps (R : σ → σ → Prop) (c : EStateM ε σ α) : Prop := ∀ s, R s (final (c s))

section Keeps

variable {R : σ → σ → Prop} [IsPreorder σ R]

theorem Keeps.pure (a : α) : Keeps R (pure a : EStateM ε σ α) := fun s => refl s

theorem Keeps.get : Keeps R (get : EStateM ε σ σ) := fun s => refl s

theorem Keeps.throw (e : ε) : Keeps R (throw e : EStateM ε σ α) := fun s => refl s

omit [IsPreorder σ R] in
theorem Keeps.modify {f : σ → σ} (h : ∀ s, R s (f s)) :
    Keeps R (modify f : EStateM ε σ PUnit) := fun s => h s

theorem Keeps.bind {c : EStateM ε σ α} {f : α → EStateM ε σ β}
    (hc : Keeps R c) (hf : ∀ a, Keeps R (f a)) : Keeps R (c >>= f) := by
  intro s
  have h1 := hc s
  rw [bind_run]
  cases hcs : c s with
  | ok a t =>
    rw [hcs] at h1
    exact IsTrans.trans _ _ _ h1 (hf a t)
  | error e t =>
    rw [hcs] at h1
    exact h1

theorem Keeps.forM {body : α → EStateM ε σ PUnit} (hbody : ∀ a, Keeps R (body a)) (l : List α) :
    Keeps R (l.forM body) := by
  induction l with
  | nil => exact Keeps.pure _
  | cons a l ih => exact (hbody a).bind fun _ => ih

end Keeps

/-- Whenever `c` returns, `d` returns the same. -/
def Refines (c d : EStateM ε σ α) : Prop := ∀ s a t, c s = .ok a t → d s = .ok a t

section Refines

theorem Refines.refl (c : EStateM ε σ α) : Refines c c := fun _ _ _ h => h

theorem Refines.bind {c d : EStateM ε σ α} {f g : α → EStateM ε σ β} (hc : Refines c d)
    (hf : ∀ a, Refines (f a) (g a)) : Refines (c >>= f) (d >>= g) := by
  intro s b t h
  obtain ⟨a, t1, h1, h2⟩ := bind_eq_ok.mp h
  rw [bind_of_ok (hc s a t1 h1)]
  exact hf a t1 b t h2

end Refines

/-! ## Section 4: Postconditions -/

/-- The weakest precondition: if `c` returns then `Q` holds of value and state,
    if it halts then `E` holds of reason and state.  Irreducible, since a goal
    `wp c ..` must not be evaluated by unification. -/
@[irreducible] def wp (c : EStateM ε σ α) (Q : α → σ → Prop) (E : ε → σ → Prop) (s : σ) : Prop :=
  match c s with
  | .ok a t => Q a t
  | .error e t => E e t

section Wp

variable {c : EStateM ε σ α} {Q Q' : α → σ → Prop} {E E' : ε → σ → Prop} {s t : σ}

@[simp] theorem wp_pure {a : α} : wp (pure a : EStateM ε σ α) Q E s ↔ Q a s := by
  simp [wp]

@[simp] theorem wp_get {Q : σ → σ → Prop} : wp (get : EStateM ε σ σ) Q E s ↔ Q s s := by
  simp [wp]

@[simp] theorem wp_modify {Q : PUnit → σ → Prop} {f : σ → σ} :
    wp (modify f : EStateM ε σ PUnit) Q E s ↔ Q ⟨⟩ (f s) := by
  simp [wp]

@[simp] theorem wp_throw {e : ε} : wp (throw e : EStateM ε σ α) Q E s ↔ E e s := by
  simp [wp]

@[simp] theorem wp_bind {f : α → EStateM ε σ β} {Q : β → σ → Prop} :
    wp (c >>= f) Q E s ↔ wp c (fun a t => wp (f a) Q E t) E s := by
  unfold wp
  rw [bind_run]
  cases c s <;> rfl

theorem wp_of_ok {a : α} (h : c s = .ok a t) : wp c Q E s ↔ Q a t := by
  rw [wp, h]

theorem wp.ok (h : wp c Q E s) {a : α} (hrun : c s = .ok a t) : Q a t :=
  (wp_of_ok hrun).mp h

theorem wp.error (h : wp c Q E s) {e : ε} (hrun : c s = .error e t) : E e t := by
  rwa [wp, hrun] at h

theorem wp.mono (h : wp c Q E s) (hQ : ∀ a t, Q a t → Q' a t) (hE : ∀ e t, E e t → E' e t) :
    wp c Q' E' s := by
  unfold wp at h ⊢
  cases hc : c s with
  | ok a t => exact hQ a t (by simpa [hc] using h)
  | error e t => exact hE e t (by simpa [hc] using h)

/-- A program that cannot halt returns. -/
theorem wp.total (h : wp c Q E s) (hE : ∀ e t, ¬ E e t) : ∃ a t, c s = .ok a t ∧ Q a t := by
  cases hc : c s with
  | ok a t => exact ⟨a, t, rfl, h.ok hc⟩
  | error e t => exact absurd (h.error hc) (hE e t)

/-- What the program leaves alone can be added to its postcondition. -/
theorem Fixes.wp {obs : σ → τ} (hc : Fixes obs c) (h : Prog.wp c Q E s) :
    Prog.wp c (fun a t => obs t = obs s ∧ Q a t) E s := by
  cases hrun : c s with
  | ok a t => exact (wp_of_ok hrun).mpr ⟨hc.of_ok hrun, h.ok hrun⟩
  | error e t =>
    unfold Prog.wp
    rw [hrun]
    exact h.error hrun

theorem wp_zoom {get : τ → σ} {put : σ → τ → τ} {Q : α → τ → Prop} {E : ε → τ → Prop} {t : τ} :
    wp (zoom get put c) Q E t ↔
      wp c (fun a s => Q a (put s t)) (fun e s => E e (put s t)) (get t) := by
  unfold wp zoom
  cases c (get t) <;> rfl

end Wp

/-! ## Section 5: Loops -/

/-- Run `body` over the list; stop at the first `none` (the `?` of the source
    inside a loop). -/
def each (body : α → EStateM ε σ (Option PUnit)) : List α → EStateM ε σ (Option PUnit)
  | [] => pure (some ⟨⟩)
  | a :: l => do
    match ← body a with
    | some _ => each body l
    | none => pure none

section EachRun

variable {body : α → EStateM ε σ (Option PUnit)} {a : α} {l l' : List α} {s t : σ} {u : PUnit} {e : ε}

theorem each_cons_some (h : body a s = .ok (some u) t) : each body (a :: l) s = each body l t := by
  rw [each, bind_of_ok h]

theorem each_cons_none (h : body a s = .ok none t) : each body (a :: l) s = .ok none t := by
  rw [each, bind_of_ok h]
  rfl

theorem each_cons_error (h : body a s = .error e t) : each body (a :: l) s = .error e t := by
  rw [each, bind_of_error h]

theorem each_congr {body' : α → EStateM ε σ (Option PUnit)} (h : ∀ a ∈ l, body a = body' a) :
    each body l = each body' l := by
  induction l with
  | nil => rfl
  | cons a l ih =>
    rw [each, each, h a List.mem_cons_self, ih fun b hb => h b (List.mem_cons_of_mem _ hb)]

/-- A loop over two lists goes on with the second if the first has been gone
    through. -/
theorem each_append (l l' : List α) : each body (l ++ l') =
    (each body l >>= fun o => if o.isSome then each body l' else pure none) := by
  induction l with
  | nil => rfl
  | cons a l ih =>
    funext s
    rw [List.cons_append, bind_run]
    cases h : body a s with
    | error e t => rw [each_cons_error h, each_cons_error h]
    | ok o t =>
      cases o with
      | none => rw [each_cons_none h, each_cons_none h]; rfl
      | some u => rw [each_cons_some h, each_cons_some h, ih, bind_run]

theorem Refines.each {c d : α → EStateM ε σ (Option PUnit)} (h : ∀ a, Refines (c a) (d a))
    (l : List α) : Refines (each c l) (each d l) := by
  induction l with
  | nil => exact .refl _
  | cons a l ih =>
    refine (h a).bind fun o => ?_
    cases o with
    | none => exact .refl _
    | some u => exact ih

end EachRun

section Loops

variable {I : List α → σ → Prop} {N : σ → Prop} {E : ε → σ → Prop} {l : List α} {s : σ}

/-- **Loop rule**: `I done` holds after the elements `done`, `N` where the loop
    stops early, `E` where it halts. -/
theorem each_wp {body : α → EStateM ε σ (Option PUnit)}
    (hbody : ∀ done a rest s, l = done ++ a :: rest → I done s →
      wp (body a) (fun o t => (o = some ⟨⟩ ∧ I (done ++ [a]) t) ∨ (o = none ∧ N t)) E s)
    (hs : I [] s) :
    wp (each body l) (fun o t => (o = some ⟨⟩ ∧ I l t) ∨ (o = none ∧ N t)) E s := by
  -- the induction is on the elements still to come
  suffices hgen : ∀ rest done s, l = done ++ rest → I done s →
      wp (each body rest) (fun o t => (o = some ⟨⟩ ∧ I l t) ∨ (o = none ∧ N t)) E s from
    hgen l [] s rfl hs
  intro rest
  induction rest with
  | nil =>
    intro done s hl hI
    rw [each, wp_pure]
    exact Or.inl ⟨rfl, by simpa [hl] using hI⟩
  | cons a rest ih =>
    intro done s hl hI
    rw [each, wp_bind]
    refine (hbody done a rest s hl hI).mono ?_ fun _ _ he => he
    intro o t ho
    rcases ho with ⟨rfl, hI'⟩ | ⟨rfl, hN⟩
    · exact ih (done ++ [a]) t (by simp [hl]) hI'
    · exact wp_pure.mpr (Or.inr ⟨rfl, hN⟩)

/-- **Loop rule** for a loop that no element stops. -/
theorem forM_wp {body : α → EStateM ε σ PUnit}
    (hbody : ∀ done a rest s, l = done ++ a :: rest → I done s →
      wp (body a) (fun _ t => I (done ++ [a]) t) E s)
    (hs : I [] s) : wp (l.forM body) (fun _ t => I l t) E s := by
  suffices hgen : ∀ rest done s, l = done ++ rest → I done s →
      wp (List.forM rest body) (fun _ t => I l t) E s from hgen l [] s rfl hs
  intro rest
  induction rest with
  | nil =>
    intro done s hl hI
    rw [List.forM, wp_pure]
    simpa [hl] using hI
  | cons a rest ih =>
    intro done s hl hI
    rw [List.forM, wp_bind]
    refine (hbody done a rest s hl hI).mono ?_ fun _ _ he => he
    intro _ t hI'
    exact ih (done ++ [a]) t (by simp [hl]) hI'

end Loops

end Prog

import Mathlib.Logic.Relation
import Rvos.Lib.Access

/-! # Postconditions whatever the machine

    `Code.post c Q E s` says of a program what holds on every machine, in every
    memory and for every allocator: if it returns, then `Q` of the result, the
    state and the bytes moved; if it halts by its own `throw`, then `E`.  A load
    may deliver any byte.

    * one rule per construct, all equivalences, so that a straight-line program
      is evaluated by `simp`;
    * `post.ok`, `post.error` : what that means for `run`;
    * `EffectAt` : every change a program makes is a chain of steps of a given
      relation, and every halt is explained by a state on such a chain.
    * `Keeps` : a program that returns keeps an invariant. -/

namespace Access

open Relation

variable {η σ ε α β : Type}

/-! ## Section 1: Bytes moved -/

/-- The bytes loaded (`false`) and stored (`true`), in order. -/
abbrev Log : Type := Bool → List UInt8

namespace Log

def nil : Log := fun _ => []

/-- One after the other. -/
def app (l l' : Log) : Log := fun w => l w ++ l' w

/-- Bytes moved in one direction. -/
def bytes (w : Bool) (bs : List UInt8) : Log := fun w' => if w' = w then bs else []

@[simp] theorem nil_app (l : Log) : nil.app l = l := rfl

@[simp] theorem app_nil (l : Log) : l.app nil = l := by
  funext w
  exact List.append_nil _

theorem app_assoc (l l' l'' : Log) : (l.app l').app l'' = l.app (l'.app l'') := by
  funext w
  exact List.append_assoc _ _ _

@[simp] theorem app_apply (l l' : Log) (w : Bool) : l.app l' w = l w ++ l' w := rfl

@[simp] theorem nil_apply (w : Bool) : nil w = [] := rfl

@[simp] theorem bytes_apply (w w' : Bool) (bs : List UInt8) :
    bytes w bs w' = if w' = w then bs else [] := rfl

@[simp] theorem bytes_nil (w : Bool) : bytes w [] = nil := by
  funext w'
  simp

@[simp] theorem bytes_app (w : Bool) (bs bs' : List UInt8) :
    (bytes w bs).app (bytes w bs') = bytes w (bs ++ bs') := by
  funext w'
  by_cases h : w' = w <;> simp [h]

theorem bytes_cons (w : Bool) (b : UInt8) (bs : List UInt8) :
    bytes w (b :: bs) = (bytes w [b]).app (bytes w bs) := by
  funext w'
  by_cases h : w' = w <;> simp [h]

end Log

/-! ## Section 2: The transformer -/

namespace Code

/-- Whatever the accesses deliver, the program ends in `Q` or throws with `E`. -/
def post : Code σ ε α → (α → σ → Log → Prop) → (ε → σ → Prop) → σ → Prop
  | ret a, Q, _, s => Q a s .nil
  | halt e, _, E, s => E e s
  | get k, Q, E, s => post (k s) Q E s
  | put x k, Q, E, _ => post k Q E x
  | load _ k, Q, E, s => ∀ b, post (k b) (fun a t l => Q a t ((Log.bytes false [b]).app l)) E s
  | store _ b k, Q, E, s => post k (fun a t l => Q a t ((Log.bytes true [b]).app l)) E s
  | alloc _ _ k, Q, E, s => ∀ a, post (k a) Q E s

variable {c : Code σ ε α} {f : α → Code σ ε β} {Q Q' : α → σ → Log → Prop} {E E' : ε → σ → Prop}
  {s : σ}

@[simp] theorem post_pure {a : α} : post (pure a : Code σ ε α) Q E s ↔ Q a s .nil := Iff.rfl

@[simp] theorem post_throw {e : ε} : post (throw e : Code σ ε α) Q E s ↔ E e s := Iff.rfl

@[simp] theorem post_get {Q : σ → σ → Log → Prop} :
    post (MonadState.get : Code σ ε σ) Q E s ↔ Q s s .nil := Iff.rfl

@[simp] theorem post_modify {g : σ → σ} {Q : PUnit → σ → Log → Prop} :
    post (modify g : Code σ ε PUnit) Q E s ↔ Q ⟨⟩ (g s) .nil := Iff.rfl

theorem post.mono (h : post c Q E s) (hQ : ∀ a t l, Q a t l → Q' a t l) (hE : ∀ e t, E e t → E' e t) :
    post c Q' E' s := by
  induction c generalizing Q Q' s with
  | ret a => exact hQ _ _ _ h
  | halt e => exact hE _ _ h
  | get k ih => exact ih s h hQ
  | put x k ih => exact ih h hQ
  | load p k ih => exact fun b => ih b (h b) fun a t l => hQ a t _
  | store p b k ih => exact ih h fun a t l => hQ a t _
  | alloc n l k ih => exact fun a => ih a (h a) hQ

/-- Two postconditions of one program. -/
theorem post.and (h : post c Q E s) (h' : post c Q' E' s) :
    post c (fun a t l => Q a t l ∧ Q' a t l) (fun e t => E e t ∧ E' e t) s := by
  induction c generalizing Q Q' s with
  | ret a => exact ⟨h, h'⟩
  | halt e => exact ⟨h, h'⟩
  | get k ih => exact ih s h h'
  | put x k ih => exact ih h h'
  | load p k ih => exact fun b => ih b (h b) (h' b)
  | store p b k ih => exact ih h h'
  | alloc n l k ih => exact fun a => ih a (h a) (h' a)

@[simp] theorem post_bind {Q : β → σ → Log → Prop} :
    post (c >>= f) Q E s ↔
      post c (fun a t l => post (f a) (fun b u l' => Q b u (l.app l')) E t) E s := by
  change post (c.bind f) Q E s ↔ _
  induction c generalizing Q s with
  | ret a => exact Iff.rfl
  | halt e => exact Iff.rfl
  | get k ih => exact ih s
  | put x k ih => exact ih
  | load p k ih =>
    simp only [bind, post]
    refine forall_congr' fun b => (ih b).trans ?_
    simp only [Log.app_assoc]
  | store p b k ih =>
    simp only [bind, post]
    refine ih.trans ?_
    simp only [Log.app_assoc]
  | alloc n l k ih => exact forall_congr' fun a => ih a

@[simp] theorem post_loadByte {p : Ptr} {Q : UInt8 → σ → Log → Prop} :
    post (loadByte p : Code σ ε _) Q E s ↔ ∀ b, Q b s (.bytes false [b]) := by
  simp only [loadByte, post, Log.app_nil]

@[simp] theorem post_storeByte {p : Ptr} {b : UInt8} {Q : Unit → σ → Log → Prop} :
    post (storeByte p b : Code σ ε _) Q E s ↔ Q () s (.bytes true [b]) := by
  simp only [storeByte, post, Log.app_nil]

@[simp] theorem post_allocZeroed {n l : Nat} {Q : Nat → σ → Log → Prop} :
    post (allocZeroed n l : Code σ ε _) Q E s ↔ ∀ a, Q a s .nil := Iff.rfl

/-- Loading `n` bytes delivers any `n` bytes. -/
@[simp] theorem post_loadBytes {n : Nat} {p : Ptr} {Q : List UInt8 → σ → Log → Prop} :
    post (loadBytes p n : Code σ ε _) Q E s ↔ ∀ bs, bs.length = n → Q bs s (.bytes false bs) := by
  induction n generalizing p Q with
  | zero =>
    simp only [loadBytes, post_pure, List.length_eq_zero_iff]
    constructor
    · rintro h _ rfl
      simpa using h
    · intro h
      simpa using h [] rfl
  | succ n ih =>
    simp only [loadBytes, post_bind, post_loadByte, ih, post_pure, Log.app_nil]
    constructor
    · intro h bs hbs
      obtain ⟨b, bs, rfl⟩ := List.exists_cons_of_length_eq_add_one hbs
      rw [Log.bytes_cons]
      exact h b bs (by simpa using hbs)
    · intro h b bs hbs
      rw [← Log.bytes_cons]
      exact h (b :: bs) (by simp [hbs])

@[simp] theorem post_storeBytes {bs : List UInt8} {p : Ptr} {Q : Unit → σ → Log → Prop} :
    post (storeBytes p bs : Code σ ε _) Q E s ↔ Q () s (.bytes true bs) := by
  induction bs generalizing p Q with
  | nil => simp [storeBytes]
  | cons b bs ih =>
    simp only [storeBytes, post_bind, post_storeByte, ih]
    rw [← Log.bytes_cons]

/-! ## Section 3: What it says of runs -/

/-- `run` and `moved` are one of the outcomes `post` speaks of. -/
theorem post.result {M : Machine η ε} {s : St η σ} (h : post c Q E s.st) :
    match run M c s with
    | .ok a t => Q a t.st fun w => moved M w c s
    | .error e t => E e t.st ∨ (∃ va, e = M.fault va) ∨ ∃ n, e = M.oom n := by
  induction c generalizing Q s with
  | ret a => exact h
  | halt e => exact Or.inl h
  | get k ih => exact ih s.st h
  | put x k ih => exact ih (s := { s with st := x }) h
  | load p k ih =>
    simp only [run, moved]
    cases M.at s.mem ⟨false, p⟩ with
    | none => exact Or.inr (Or.inl ⟨_, rfl⟩)
    | some a =>
      have hk := ih (s.mem a) (h (s.mem a))
      cases hrun : run M (k (s.mem a)) s with
      | error e t => simpa only [hrun] using hk
      | ok b t =>
        simp only [hrun] at hk ⊢
        convert hk using 2 with w
        cases w <;> rfl
  | store p b k ih =>
    simp only [run, moved]
    cases M.at s.mem ⟨true, p⟩ with
    | none => exact Or.inr (Or.inl ⟨_, rfl⟩)
    | some a =>
      have hk := ih (s := { s with mem := Function.update s.mem a b }) h
      cases hrun : run M k { s with mem := Function.update s.mem a b } with
      | error e t => simpa only [hrun] using hk
      | ok x t =>
        simp only [hrun] at hk ⊢
        convert hk using 2 with w
        cases w <;> rfl
  | alloc n l k ih =>
    simp only [run, moved]
    rcases M.alloc s.heap n l with ⟨_ | a, hp⟩
    · exact Or.inr (Or.inr ⟨n, rfl⟩)
    · exact ih a (s := { s with mem := ByteMem.fill s.mem a n 0, heap := hp }) (h a)

theorem post.ok {M : Machine η ε} {s t : St η σ} {a : α} (h : post c Q E s.st)
    (hrun : run M c s = .ok a t) : Q a t.st fun w => moved M w c s := by
  simpa only [hrun] using h.result (M := M)

/-- A halt is a throw, a fault, or the allocator's refusal. -/
theorem post.error {M : Machine η ε} {s t : St η σ} {e : ε} (h : post c Q E s.st)
    (hrun : run M c s = .error e t) : E e t.st ∨ (∃ va, e = M.fault va) ∨ ∃ n, e = M.oom n := by
  simpa only [hrun] using h.result (M := M)

/-! ## Section 4: Effects -/

section Effect

variable {A : σ → σ → Prop} {H : ε → σ → Prop}

/-- From `s`, the program only makes changes of `A`, and throws `e` only if a
    state it has come through satisfies `H e`. -/
def EffectAt (A : σ → σ → Prop) (H : ε → σ → Prop) (c : Code σ ε α) (s : σ) : Prop :=
  post c (fun _ t _ => ReflTransGen A s t) (fun e _ => ∃ t, ReflTransGen A s t ∧ H e t) s

def Effect (A : σ → σ → Prop) (H : ε → σ → Prop) (c : Code σ ε α) : Prop := ∀ s, EffectAt A H c s

theorem EffectAt.pure (a : α) : EffectAt A H (Pure.pure a : Code σ ε α) s := ReflTransGen.refl

theorem EffectAt.throw {e : ε} (h : H e s) : EffectAt A H (MonadExcept.throw e : Code σ ε α) s :=
  ⟨s, .refl, h⟩

theorem EffectAt.throw_bind {e : ε} (h : H e s) :
    EffectAt A H ((MonadExcept.throw e : Code σ ε α) >>= f) s := ⟨s, .refl, h⟩

theorem EffectAt.modify {g : σ → σ} (h : A s (g s)) :
    EffectAt A H (modify g : Code σ ε PUnit) s := ReflTransGen.single h

/-- Reading the state: what follows may use it. -/
theorem EffectAt.get_bind {f : σ → Code σ ε β} (h : EffectAt A H (f s) s) :
    EffectAt A H (MonadState.get >>= f) s := by
  unfold EffectAt
  rw [post_bind, post_get]
  exact h

theorem EffectAt.bind (hc : EffectAt A H c s) (hf : ∀ a, Effect A H (f a)) :
    EffectAt A H (c >>= f) s := by
  unfold EffectAt
  rw [post_bind]
  refine hc.mono (fun a t l hst => ?_) fun e t h => h
  refine (hf a t).mono (fun b u l' htu => hst.trans htu) ?_
  rintro e u ⟨v, htv, hv⟩
  exact ⟨v, hst.trans htv, hv⟩

/-- A program that keeps the state and throws nothing: what follows still
    starts from `s`. -/
theorem EffectAt.quiet_bind (hc : post c (fun _ t _ => t = s) (fun e _ => H e s) s)
    (hf : ∀ a, EffectAt A H (f a) s) : EffectAt A H (c >>= f) s := by
  unfold EffectAt
  rw [post_bind]
  refine hc.mono ?_ fun e t h => ⟨s, .refl, h⟩
  rintro a t l rfl
  exact hf a

theorem Effect.storeByte {p : Ptr} {b : UInt8} : Effect A H (storeByte p b : Code σ ε _) := fun s => by
  simp [EffectAt, ReflTransGen.refl]

theorem Effect.storeBytes {p : Ptr} {bs : List UInt8} :
    Effect A H (storeBytes p bs : Code σ ε _) := fun s => by
  simp [EffectAt, ReflTransGen.refl]

/-- A returning run changes the state by a chain of steps. -/
theorem Effect.run {M : Machine η ε} {s t : St η σ} {a : α} (h : Effect A H c)
    (hrun : run M c s = .ok a t) : ReflTransGen A s.st t.st :=
  (h s.st).ok hrun

/-- A halting run has come through a state that explains it, or was stopped by
    the machine. -/
theorem Effect.error {M : Machine η ε} {s t : St η σ} {e : ε} (h : Effect A H c)
    (hrun : Access.run M c s = .error e t) :
    (∃ u, ReflTransGen A s.st u ∧ H e u) ∨ (∃ va, e = M.fault va) ∨ ∃ n, e = M.oom n :=
  post.error (h s.st) hrun

end Effect

/-! ## Section 5: Invariants -/

section Keeps

variable {inv : σ → Prop}

/-- From `s`, the program ends in states of the invariant, if it returns. -/
def KeepsAt (inv : σ → Prop) (c : Code σ ε α) (s : σ) : Prop :=
  post c (fun _ t _ => inv t) (fun _ _ => True) s

def Keeps (inv : σ → Prop) (c : Code σ ε α) : Prop := ∀ s, inv s → KeepsAt inv c s

theorem Keeps.pure (a : α) : Keeps inv (Pure.pure a : Code σ ε α) := fun _ hs => hs

theorem KeepsAt.modify {g : σ → σ} (h : inv (g s)) : KeepsAt inv (modify g : Code σ ε PUnit) s := h

/-- Reading the state: what follows may use it. -/
theorem KeepsAt.get_bind {f : σ → Code σ ε β} (h : KeepsAt inv (f s) s) :
    KeepsAt inv (MonadState.get >>= f) s := h

theorem KeepsAt.bind (hc : KeepsAt inv c s) (hf : ∀ a, Keeps inv (f a)) : KeepsAt inv (c >>= f) s := by
  unfold KeepsAt
  rw [post_bind]
  exact hc.mono (fun a t _ ht => hf a t ht) fun _ _ h => h

/-- What follows starts from the states and results that `Q` allows. -/
theorem KeepsAt.bind_of {Q : α → σ → Prop} (hc : post c (fun a t _ => Q a t) (fun _ _ => True) s)
    (hf : ∀ a t, Q a t → KeepsAt inv (f a) t) : KeepsAt inv (c >>= f) s := by
  unfold KeepsAt
  rw [post_bind]
  exact hc.mono (fun a t _ ht => hf a t ht) fun _ _ h => h

/-- A returning run keeps the invariant. -/
theorem Keeps.run {M : Machine η ε} {s t : St η σ} {a : α} (h : Keeps inv c)
    (hrun : Access.run M c s = .ok a t) (hs : inv s.st) : inv t.st :=
  post.ok (h s.st hs) hrun

end Keeps

end Code

end Access

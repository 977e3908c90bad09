import Rvos.Lib.Access

/-! # Where a program stores

    * `StoresOk` : every store through a translated pointer is at an address that
      is good in the memory as it is at that moment.
    * `run_stays` : a program all of whose stores go into `W` changes memory
      inside `W` only.
    * `storesOk_storeBytes` : for bytes stored in a row, goodness may be judged in
      the memory before the first of them, if stores inside `W` do not matter
      to it. -/

namespace Access

open ByteMem Usize

/-- The pointers of a row, as far as it does not wrap around. -/
theorem Ptr.mem_span_add {n : Nat} : ∀ {p : Ptr} {i : Nat}, i < n → p.addr + i < 2 ^ 64 →
    (⟨p.addr + i, p.own⟩ : Ptr) ∈ p.span n := by
  induction n with
  | zero =>
    intro p i hi
    omega
  | succ n ih =>
    intro p i hi hlt
    cases i with
    | zero => exact List.mem_cons_self
    | succ i =>
      have hnext : (p.add 1).addr = p.addr + 1 := wadd_of_lt (by omega)
      have hrest := ih (p := p.add 1) (i := i) (by omega) (by omega)
      rw [hnext, Nat.add_assoc, Nat.add_comm 1 i] at hrest
      exact List.mem_cons_of_mem _ hrest

theorem Ptr.of_mem_span {n : Nat} : ∀ {p q : Ptr}, p.addr + n ≤ 2 ^ 64 → q ∈ p.span n →
    p.addr ≤ q.addr ∧ q.addr < p.addr + n := by
  induction n with
  | zero =>
    intro p q _ hq
    cases hq
  | succ n ih =>
    intro p q hle hq
    rcases List.mem_cons.mp hq with rfl | hq
    · omega
    · cases n with
      | zero => cases hq
      | succ n =>
        have hnext : (p.add 1).addr = p.addr + 1 := wadd_of_lt (by omega)
        have hrest := ih (p := p.add 1) (by omega) hq
        omega

section Stores

variable {η σ ε α β : Type} (M : Machine η ε)

/-- Every store of the program through a translated pointer is at an address that
    is good at that moment. -/
def StoresOk (good : Mem → Nat → Prop) : Code σ ε α → St η σ → Prop
  | .ret _, _ => True
  | .halt _, _ => True
  | .get k, s => StoresOk good (k s.st) s
  | .put x k, s => StoresOk good k { s with st := x }
  | .load p k, s => ∀ a, M.at s.mem ⟨false, p⟩ = some a → StoresOk good (k (s.mem a)) s
  | .store p b k, s => (p.own = false → good s.mem p.addr) ∧
    ∀ a, M.at s.mem ⟨true, p⟩ = some a →
      StoresOk good k { s with mem := Function.update s.mem a b }
  | .alloc n l k, s => ∀ a h, M.alloc s.heap n l = (some a, h) →
    StoresOk good (k a) { s with mem := fill s.mem a n 0, heap := h }

variable {M} {good : Mem → Nat → Prop}

theorem storesOk_bind (c : Code σ ε α) (f : α → Code σ ε β) (s : St η σ) :
    StoresOk M good (c >>= f) s ↔
      StoresOk M good c s ∧ ∀ a t, run M c s = .ok a t → StoresOk M good (f a) t := by
  show StoresOk M good (c.bind f) s ↔ _
  induction c generalizing s with
  | ret a =>
    constructor
    · intro h
      refine ⟨trivial, ?_⟩
      intro a' t ht
      cases ht
      exact h
    · intro h
      exact h.2 a s rfl
  | halt e =>
    refine ⟨fun _ => ⟨trivial, ?_⟩, fun _ => trivial⟩
    intro a t ht
    cases ht
  | get k ih => exact ih s.st s
  | put x k ih => exact ih _
  | load p k ih =>
    simp only [Code.bind, StoresOk, run]
    cases M.at s.mem ⟨false, p⟩ with
    | none => simp
    | some a => simpa using ih (s.mem a) s
  | store p b k ih =>
    simp only [Code.bind, StoresOk, run]
    cases M.at s.mem ⟨true, p⟩ with
    | none => simp
    | some a =>
      simp only [Option.some.injEq, forall_eq', ih]
      exact and_assoc.symm
  | alloc n l k ih =>
    simp only [Code.bind, StoresOk, run]
    rcases M.alloc s.heap n l with ⟨_ | a, h⟩
    · simp
    · simpa using ih a { s with mem := fill s.mem a n 0, heap := h }

/-- A program without accesses. -/
theorem storesOk_of_trace (c : Code σ ε α) : ∀ s : St η σ, trace M c s = [] → StoresOk M good c s := by
  induction c with
  | ret a => exact fun _ _ => trivial
  | halt e => exact fun _ _ => trivial
  | get k ih => exact fun s h => ih s.st s h
  | put x k ih => exact fun s h => ih { s with st := x } h
  | load p k ih =>
    intro s h
    simp only [trace] at h
    cases h
  | store p b k ih =>
    intro s h
    simp only [trace] at h
    cases h
  | alloc n l k ih =>
    intro s h a hp halloc
    simp only [trace, halloc] at h
    exact ih a _ h

variable {W : Set Nat} {m0 : Mem}

theorem agreeOff_iff {m : Mem} : AgreeOff W m m0 ↔ ∀ a, m a ≠ m0 a → a ∈ W :=
  forall_congr' fun _ => not_imp_comm

theorem agreeOff_update {m : Mem} (hm : AgreeOff W m m0) {a : Nat} (ha : a ∈ W) (b : UInt8) :
    AgreeOff W (Function.update m a b) m0 := by
  intro x hx
  have hne : x ≠ a := fun hxa => hx (hxa ▸ ha)
  rw [Function.update_of_ne hne]
  exact hm x hx

theorem agreeOff_fill {m : Mem} (hm : AgreeOff W m m0) {a n : Nat}
    (ha : ∀ x, a ≤ x → x < a + n → x ∈ W) : AgreeOff W (fill m a n 0) m0 := by
  intro x hx
  have hout : ¬ (a ≤ x ∧ x < a + n) := fun hin => hx (ha x hin.1 hin.2)
  rw [fill_out (by omega)]
  exact hm x hx

/-- A program whose stores and blocks lie in `W`. -/
theorem run_stays {inv : η → Prop}
    (hblock : ∀ h n l a h', inv h → M.alloc h n l = (some a, h') →
      inv h' ∧ ∀ x, a ≤ x → x < a + n → x ∈ W)
    (hrefused : ∀ h n l h', inv h → M.alloc h n l = (none, h') → inv h')
    (c : Code σ ε α) : ∀ s : St η σ, AgreeOff W s.mem m0 → inv s.heap →
      (∀ e ∈ trace M c s, e.write = true → ∀ m a, AgreeOff W m m0 → M.at m e = some a → a ∈ W) →
      AgreeOff W (Prog.final (run M c s)).mem m0 ∧ inv (Prog.final (run M c s)).heap := by
  induction c with
  | ret a => intro s hm hi _; exact ⟨hm, hi⟩
  | halt e => intro s hm hi _; exact ⟨hm, hi⟩
  | get k ih => intro s hm hi hg; exact ih s.st s hm hi hg
  | put x k ih => intro s hm hi hg; exact ih { s with st := x } hm hi hg
  | load p k ih =>
    intro s hm hi hg
    simp only [run, trace] at hg ⊢
    cases ha : M.at s.mem ⟨false, p⟩ with
    | none => exact ⟨hm, hi⟩
    | some a =>
      simp only [ha, List.mem_cons, forall_eq_or_imp] at hg
      exact ih (s.mem a) s hm hi hg.2
  | store p b k ih =>
    intro s hm hi hg
    simp only [run, trace] at hg ⊢
    cases ha : M.at s.mem ⟨true, p⟩ with
    | none => exact ⟨hm, hi⟩
    | some a =>
      simp only [ha, List.mem_cons, forall_eq_or_imp] at hg
      have hW : a ∈ W := hg.1 trivial s.mem a hm ha
      exact ih { s with mem := Function.update s.mem a b } (agreeOff_update hm hW b) hi hg.2
  | alloc n l k ih =>
    intro s hm hi hg
    simp only [run, trace] at hg ⊢
    rcases halloc : M.alloc s.heap n l with ⟨_ | a, hp⟩
    · exact ⟨hm, hrefused _ _ _ _ hi halloc⟩
    · obtain ⟨hi', hW⟩ := hblock _ _ _ _ _ hi halloc
      simp only [halloc] at hg ⊢
      exact ih a { s with mem := fill s.mem a n 0, heap := hp } (agreeOff_fill hm hW) hi' hg

/-- Bytes stored in a row, all into `W`: each of the stores was permitted. -/
theorem storeBytes_stays {bs : List UInt8} : ∀ {p : Ptr} {s t : St η σ} {u : Unit},
    (∀ q ∈ p.span bs.length, ∀ m a, AgreeOff W m m0 → M.at m ⟨true, q⟩ = some a → a ∈ W) →
    AgreeOff W s.mem m0 → run M (Code.storeBytes p bs : Code σ ε _) s = .ok u t →
    AgreeOff W t.mem m0 ∧
      ∀ q ∈ p.span bs.length, ∃ m a, AgreeOff W m m0 ∧ M.at m ⟨true, q⟩ = some a := by
  induction bs with
  | nil =>
    intro p s t u _ hm hrun
    cases hrun
    refine ⟨hm, ?_⟩
    intro q hq
    cases hq
  | cons b bs ih =>
    intro p s t u hW hm hrun
    rw [Code.storeBytes, run_bind_ok] at hrun
    obtain ⟨_, s1, hb, hrun⟩ := hrun
    simp only [Code.storeByte, run] at hb
    cases ha : M.at s.mem ⟨true, p⟩ with
    | none => simp [ha] at hb
    | some a =>
      simp only [ha, EStateM.Result.ok.injEq, true_and] at hb
      subst hb
      have haW : a ∈ W := hW p List.mem_cons_self s.mem a hm ha
      obtain ⟨ht, hall⟩ := ih (fun q hq => hW q (List.mem_cons_of_mem _ hq))
        (agreeOff_update hm haW b) hrun
      refine ⟨ht, ?_⟩
      intro q hq
      rcases List.mem_cons.mp hq with rfl | hq
      · exact ⟨s.mem, a, hm, ha⟩
      · exact hall q hq

/-- **Bytes stored in a row** are all at good addresses just if these are good to
    start with: a good store is permitted, stays inside `W`, and leaves all
    addresses as good as they were. -/
theorem storesOk_storeBytes (hat : ∀ m va, good m va → M.tr m true va ≠ none)
    (hsame : ∀ m va, AgreeOff W m m0 → (good m va ↔ good m0 va))
    (hin : ∀ m va a, AgreeOff W m m0 → good m0 va → M.tr m true va = some a → a ∈ W)
    {bs : List UInt8} : ∀ {p : Ptr} {s : St η σ}, p.own = false → AgreeOff W s.mem m0 →
    (StoresOk M good (Code.storeBytes p bs : Code σ ε _) s ↔
      ∀ q ∈ p.span bs.length, good m0 q.addr) := by
  induction bs with
  | nil =>
    intro p s _ _
    refine ⟨?_, fun _ => trivial⟩
    intro _ q hq
    cases hq
  | cons b bs ih =>
    intro p s hown hm
    have hstep : StoresOk M good (Code.storeBytes p (b :: bs) : Code σ ε _) s ↔
        (p.own = false → good s.mem p.addr) ∧ ∀ a, M.at s.mem ⟨true, p⟩ = some a →
          StoresOk M good (Code.storeBytes (p.add 1) bs : Code σ ε _)
            { s with mem := Function.update s.mem a b } := Iff.rfl
    have htr : M.at s.mem ⟨true, p⟩ = M.tr s.mem true p.addr := by
      unfold Machine.at
      simp [hown]
    rw [hstep, htr]
    -- one good store, then the rest from the memory after it
    have hrest : good m0 p.addr → ∀ a, M.tr s.mem true p.addr = some a →
        (StoresOk M good (Code.storeBytes (p.add 1) bs : Code σ ε _)
            { s with mem := Function.update s.mem a b } ↔
          ∀ q ∈ (p.add 1).span bs.length, good m0 q.addr) := by
      intro hgood a ha
      exact ih hown (agreeOff_update hm (hin s.mem p.addr a hm hgood ha) b)
    constructor
    · rintro ⟨hfirst, hthen⟩
      have hgood := (hsame s.mem p.addr hm).mp (hfirst hown)
      obtain ⟨a, ha⟩ := Option.ne_none_iff_exists'.mp (hat s.mem p.addr (hfirst hown))
      intro q hq
      rcases List.mem_cons.mp hq with rfl | hq
      · exact hgood
      · exact (hrest hgood a ha).mp (hthen a ha) q hq
    · intro hall
      have hgood := hall p List.mem_cons_self
      refine ⟨fun _ => (hsame s.mem p.addr hm).mpr hgood, ?_⟩
      intro a ha
      exact (hrest hgood a ha).mpr fun q hq => hall q (List.mem_cons_of_mem _ hq)

/-- Good stores are permitted, and the program goes on to its end. -/
theorem StoresOk.returns (hat : ∀ m va, good m va → M.tr m true va ≠ none) {bs : List UInt8} :
    ∀ {p : Ptr} {s : St η σ}, StoresOk M good (Code.storeBytes p bs : Code σ ε _) s →
      ∃ t, run M (Code.storeBytes p bs : Code σ ε _) s = .ok () t := by
  induction bs with
  | nil => exact fun {p s} _ => ⟨s, rfl⟩
  | cons b bs ih =>
    intro p s hok
    obtain ⟨hfirst, hthen⟩ : (p.own = false → good s.mem p.addr) ∧ ∀ a, M.at s.mem ⟨true, p⟩ = some a →
        StoresOk M good (Code.storeBytes (p.add 1) bs : Code σ ε _)
          { s with mem := Function.update s.mem a b } := hok
    obtain ⟨a, ha⟩ : ∃ a, M.at s.mem ⟨true, p⟩ = some a := by
      unfold Machine.at
      cases hown : p.own with
      | true => exact ⟨p.addr, rfl⟩
      | false =>
        obtain ⟨a, ha⟩ := Option.ne_none_iff_exists'.mp (hat s.mem p.addr (hfirst hown))
        exact ⟨a, ha⟩
    obtain ⟨t, ht⟩ := ih (hthen a ha)
    refine ⟨t, ?_⟩
    have hbyte : run M (Code.storeByte p b : Code σ ε _) s =
        .ok () { s with mem := Function.update s.mem a b } := by
      simp only [Code.storeByte, run, ha]
    rw [Code.storeBytes, run_bind_of_ok M hbyte]
    exact ht

end Stores

end Access

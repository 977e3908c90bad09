import Rvos.Lib.ByteMem
import Rvos.Lib.Prog
import Rvos.Lib.Usize

/-! # Programs that dereference pointers

    A `Code` is a program on a state `σ` that loads and stores bytes through
    pointers and allocates blocks of its own.  What a pointer means is left to a
    `Machine`: a translation of addresses that reads the very memory the
    program writes, and an allocator.

    * `run`, `trace` : the outcome of a program on a machine, and the accesses
      it attempts, in order.
    * `moved` : the bytes a program loads or stores through pointers, in order. -/

namespace Access

open ByteMem Usize

/-- A pointer: into memory of the program's own, at its physical address, or
    an address that the machine translates. -/
structure Ptr where
  addr : Nat
  own : Bool
  deriving DecidableEq, Repr

/-- Pointer arithmetic wraps. -/
def Ptr.add (p : Ptr) (n : Nat) : Ptr := { p with addr := wadd p.addr n }

/-- The pointers to `n` bytes in a row. -/
def Ptr.span (p : Ptr) : Nat → List Ptr
  | 0 => []
  | n + 1 => p :: (p.add 1).span n

/-- An attempted access to one byte. -/
structure Event where
  write : Bool
  ptr : Ptr
  deriving DecidableEq, Repr

/-- Programs. -/
inductive Code (σ ε α : Type) : Type where
  | ret (a : α)
  | halt (e : ε)
  | get (k : σ → Code σ ε α)
  | put (s : σ) (k : Code σ ε α)
  | load (p : Ptr) (k : UInt8 → Code σ ε α)
  | store (p : Ptr) (b : UInt8) (k : Code σ ε α)
  | alloc (n log_align : Nat) (k : Nat → Code σ ε α)

namespace Code

variable {σ ε α β : Type}

def bind : Code σ ε α → (α → Code σ ε β) → Code σ ε β
  | ret a, f => f a
  | halt e, _ => halt e
  | get k, f => get fun s => (k s).bind f
  | put s k, f => put s (k.bind f)
  | load p k, f => load p fun b => (k b).bind f
  | store p b k, f => store p b (k.bind f)
  | alloc n l k, f => alloc n l fun a => (k a).bind f

instance : Monad (Code σ ε) where
  pure := ret
  bind := bind

instance : MonadStateOf σ (Code σ ε) where
  get := .get .ret
  set s := .put s (.ret ⟨⟩)
  modifyGet f := .get fun s => .put (f s).2 (.ret (f s).1)

instance : MonadExceptOf ε (Code σ ε) where
  throw := halt
  tryCatch c _ := c

/-- Load one byte. -/
def loadByte (p : Ptr) : Code σ ε UInt8 := load p ret

/-- Store one byte. -/
def storeByte (p : Ptr) (b : UInt8) : Code σ ε Unit := store p b (ret ())

/-- A zero-filled block of `n` bytes, aligned to `2 ^ log_align`. -/
def allocZeroed (n log_align : Nat) : Code σ ε Nat := alloc n log_align ret

/-- Load `n` bytes in order. -/
def loadBytes (p : Ptr) : Nat → Code σ ε (List UInt8)
  | 0 => pure []
  | n + 1 => do
    let b ← loadByte p
    let bs ← loadBytes (p.add 1) n
    return b :: bs

/-- Store the bytes in order. -/
def storeBytes (p : Ptr) : List UInt8 → Code σ ε Unit
  | [] => pure ()
  | b :: bs => do
    storeByte p b
    storeBytes (p.add 1) bs

end Code

/-! ## Section 1: Machines -/

/-- What the accesses of a program mean. -/
structure Machine (η ε : Type) where
  /-- The physical address of a load (`false`) or store (`true`) at an address. -/
  tr : Mem → Bool → Nat → Option Nat
  /-- Halting at an address that is not translated. -/
  fault : Nat → ε
  /-- The allocator: a block of `n` bytes aligned to `2 ^ log_align`, or none. -/
  alloc : η → (n log_align : Nat) → Option Nat × η
  /-- Halting when the allocator has no block of `n` bytes. -/
  oom : Nat → ε

/-- The state a program runs on. -/
structure St (η σ : Type) where
  mem : Mem
  heap : η
  st : σ

section Semantics

variable {η σ ε α β : Type} (M : Machine η ε)

/-- The physical address of an access, if it is permitted. -/
def Machine.at (m : Mem) (e : Event) : Option Nat :=
  if e.ptr.own then some e.ptr.addr else M.tr m e.write e.ptr.addr

/-- The outcome of a program. -/
def run : Code σ ε α → St η σ → EStateM.Result ε (St η σ) α
  | .ret a, s => .ok a s
  | .halt e, s => .error e s
  | .get k, s => run (k s.st) s
  | .put x k, s => run k { s with st := x }
  | .load p k, s =>
    match M.at s.mem ⟨false, p⟩ with
    | some a => run (k (s.mem a)) s
    | none => .error (M.fault p.addr) s
  | .store p b k, s =>
    match M.at s.mem ⟨true, p⟩ with
    | some a => run k { s with mem := Function.update s.mem a b }
    | none => .error (M.fault p.addr) s
  | .alloc n l k, s =>
    match M.alloc s.heap n l with
    | (some a, h) => run (k a) { s with mem := fill s.mem a n 0, heap := h }
    | (none, h) => .error (M.oom n) { s with heap := h }

/-- The accesses a program attempts, in order; the last one may be refused. -/
def trace : Code σ ε α → St η σ → List Event
  | .ret _, _ => []
  | .halt _, _ => []
  | .get k, s => trace (k s.st) s
  | .put x k, s => trace k { s with st := x }
  | .load p k, s => ⟨false, p⟩ ::
    match M.at s.mem ⟨false, p⟩ with
    | some a => trace (k (s.mem a)) s
    | none => []
  | .store p b k, s => ⟨true, p⟩ ::
    match M.at s.mem ⟨true, p⟩ with
    | some a => trace k { s with mem := Function.update s.mem a b }
    | none => []
  | .alloc n l k, s =>
    match M.alloc s.heap n l with
    | (some a, h) => trace (k a) { s with mem := fill s.mem a n 0, heap := h }
    | (none, _) => []

/-- The bytes a program loads (`false`) or stores (`true`) through pointers, in order. -/
def moved (write : Bool) : Code σ ε α → St η σ → List UInt8
  | .ret _, _ => []
  | .halt _, _ => []
  | .get k, s => moved write (k s.st) s
  | .put x k, s => moved write k { s with st := x }
  | .load p k, s =>
    match M.at s.mem ⟨false, p⟩ with
    | some a =>
      (if write then [] else [s.mem a]) ++ moved write (k (s.mem a)) s
    | none => []
  | .store p b k, s =>
    match M.at s.mem ⟨true, p⟩ with
    | some a =>
      (if write then [b] else []) ++ moved write k { s with mem := Function.update s.mem a b }
    | none => []
  | .alloc n l k, s =>
    match M.alloc s.heap n l with
    | (some a, h) => moved write (k a) { s with mem := fill s.mem a n 0, heap := h }
    | (none, _) => []

/-- The `n` bytes that a pointer leads to, if all of them may be loaded. -/
def Machine.loads (m : Mem) : Ptr → (n : Nat) → Option (List UInt8)
  | _, 0 => some []
  | p, n + 1 => (M.at m ⟨false, p⟩).bind fun a => (Machine.loads m (p.add 1) n).map (m a :: ·)

/-! ## Section 2: Runs and traces of composed programs -/

@[simp] theorem run_pure (a : α) (s : St η σ) : run M (pure a : Code σ ε α) s = .ok a s := rfl

@[simp] theorem trace_pure (a : α) (s : St η σ) : trace M (pure a : Code σ ε α) s = [] := rfl

@[simp] theorem run_throw (e : ε) (s : St η σ) :
    run M (throw e : Code σ ε α) s = .error e s := rfl

@[simp] theorem trace_throw (e : ε) (s : St η σ) :
    trace M (throw e : Code σ ε α) s = [] := rfl

@[simp] theorem run_get (s : St η σ) : run M (get : Code σ ε σ) s = .ok s.st s := rfl

@[simp] theorem trace_get (s : St η σ) : trace M (get : Code σ ε σ) s = [] := rfl

@[simp] theorem run_set (x : σ) (s : St η σ) :
    run M (set x : Code σ ε PUnit) s = .ok ⟨⟩ { s with st := x } := rfl

@[simp] theorem trace_set (x : σ) (s : St η σ) : trace M (set x : Code σ ε PUnit) s = [] := rfl

@[simp] theorem run_modify (f : σ → σ) (s : St η σ) :
    run M (modify f : Code σ ε PUnit) s = .ok ⟨⟩ { s with st := f s.st } := rfl

@[simp] theorem trace_modify (f : σ → σ) (s : St η σ) :
    trace M (modify f : Code σ ε PUnit) s = [] := rfl

@[simp] theorem moved_pure (w : Bool) (a : α) (s : St η σ) :
    moved M w (pure a : Code σ ε α) s = [] := rfl

@[simp] theorem moved_get (w : Bool) (s : St η σ) : moved M w (get : Code σ ε σ) s = [] := rfl

@[simp] theorem moved_modify (w : Bool) (f : σ → σ) (s : St η σ) :
    moved M w (modify f : Code σ ε PUnit) s = [] := rfl

theorem run_bind (c : Code σ ε α) (f : α → Code σ ε β) (s : St η σ) :
    run M (c >>= f) s = match run M c s with
      | .ok a t => run M (f a) t
      | .error e t => .error e t := by
  show run M (c.bind f) s = _
  induction c generalizing s with
  | ret a => rfl
  | halt e => rfl
  | get k ih => exact ih s.st s
  | put x k ih => exact ih _
  | load p k ih =>
    simp only [Code.bind, run]
    cases M.at s.mem ⟨false, p⟩ with
    | none => rfl
    | some a => exact ih _ s
  | store p b k ih =>
    simp only [Code.bind, run]
    cases M.at s.mem ⟨true, p⟩ with
    | none => rfl
    | some a => exact ih _
  | alloc n l k ih =>
    simp only [Code.bind, run]
    rcases M.alloc s.heap n l with ⟨_ | a, h⟩
    · rfl
    · exact ih a _

theorem trace_bind (c : Code σ ε α) (f : α → Code σ ε β) (s : St η σ) :
    trace M (c >>= f) s = trace M c s ++ match run M c s with
      | .ok a t => trace M (f a) t
      | .error _ _ => [] := by
  show trace M (c.bind f) s = _
  induction c generalizing s with
  | ret a => rfl
  | halt e => rfl
  | get k ih => exact ih s.st s
  | put x k ih => exact ih _
  | load p k ih =>
    simp only [Code.bind, trace, run, List.cons_append]
    cases M.at s.mem ⟨false, p⟩ with
    | none => rfl
    | some a => simp only [ih]
  | store p b k ih =>
    simp only [Code.bind, trace, run, List.cons_append]
    cases M.at s.mem ⟨true, p⟩ with
    | none => rfl
    | some a => simp only [ih]
  | alloc n l k ih =>
    simp only [Code.bind, trace, run]
    rcases M.alloc s.heap n l with ⟨_ | a, h⟩
    · rfl
    · exact ih a _

theorem moved_bind (w : Bool) (c : Code σ ε α) (f : α → Code σ ε β) (s : St η σ) :
    moved M w (c >>= f) s = moved M w c s ++ match run M c s with
      | .ok a t => moved M w (f a) t
      | .error _ _ => [] := by
  show moved M w (c.bind f) s = _
  induction c generalizing s with
  | ret a => rfl
  | halt e => rfl
  | get k ih => exact ih s.st s
  | put x k ih => exact ih _
  | load p k ih =>
    simp only [Code.bind, moved, run]
    cases M.at s.mem ⟨false, p⟩ with
    | none => rfl
    | some a => simp only [ih, List.append_assoc]
  | store p b k ih =>
    simp only [Code.bind, moved, run]
    cases M.at s.mem ⟨true, p⟩ with
    | none => rfl
    | some a => simp only [ih, List.append_assoc]
  | alloc n l k ih =>
    simp only [Code.bind, moved, run]
    rcases M.alloc s.heap n l with ⟨_ | a, h⟩
    · rfl
    · exact ih a _

@[simp] theorem run_get_bind (f : σ → Code σ ε β) (s : St η σ) :
    run M (get >>= f) s = run M (f s.st) s := rfl

@[simp] theorem run_modify_bind (g : σ → σ) (f : PUnit → Code σ ε β) (s : St η σ) :
    run M (modify g >>= f) s = run M (f ⟨⟩) { s with st := g s.st } := rfl

theorem run_bind_of_ok {c : Code σ ε α} {f : α → Code σ ε β} {s t : St η σ} {a : α}
    (h : run M c s = .ok a t) : run M (c >>= f) s = run M (f a) t := by
  rw [run_bind, h]

theorem run_bind_of_error {c : Code σ ε α} {f : α → Code σ ε β} {s t : St η σ} {e : ε}
    (h : run M c s = .error e t) : run M (c >>= f) s = .error e t := by
  rw [run_bind, h]

/-- A returning run of a bind is two returning runs. -/
theorem run_bind_ok {c : Code σ ε α} {f : α → Code σ ε β} {s u : St η σ} {b : β} :
    run M (c >>= f) s = .ok b u ↔ ∃ a t, run M c s = .ok a t ∧ run M (f a) t = .ok b u := by
  rw [run_bind]
  cases h : run M c s with
  | ok a t => simp
  | error e t => simp

/-- Loading bytes changes nothing; the result is what was loaded. -/
theorem run_loadBytes {n : Nat} : ∀ {p : Ptr} {s t : St η σ} {bs : List UInt8},
    run M (Code.loadBytes p n : Code σ ε _) s = .ok bs t →
      t = s ∧ bs.length = n ∧ moved M false (Code.loadBytes p n : Code σ ε _) s = bs := by
  induction n with
  | zero =>
    intro p s t bs h
    cases h
    exact ⟨rfl, rfl, rfl⟩
  | succ n ih =>
    intro p s t bs h
    rw [Code.loadBytes, run_bind_ok] at h
    obtain ⟨b, s1, hb, h⟩ := h
    rw [run_bind_ok] at h
    obtain ⟨bs', s2, hbs, h⟩ := h
    cases h
    obtain ⟨a, ha, rfl, rfl⟩ : ∃ a, M.at s.mem ⟨false, p⟩ = some a ∧ s.mem a = b ∧ s = s1 := by
      simp only [Code.loadByte, run] at hb
      cases ha : M.at s.mem ⟨false, p⟩ with
      | none => simp [ha] at hb
      | some a =>
        simp only [ha, EStateM.Result.ok.injEq] at hb
        exact ⟨a, rfl, hb.1, hb.2⟩
    obtain ⟨rfl, hlen, hmoved⟩ := ih hbs
    refine ⟨rfl, by simp [hlen], ?_⟩
    rw [Code.loadBytes, moved_bind, hb]
    simp only [moved_bind, hbs, hmoved]
    simp [Code.loadByte, moved, ha, pure]

/-- Loading bytes delivers what the pointer leads to. -/
theorem run_loadBytes_iff {n : Nat} : ∀ {p : Ptr} {s t : St η σ} {bs : List UInt8},
    run M (Code.loadBytes p n : Code σ ε _) s = .ok bs t ↔ t = s ∧ M.loads s.mem p n = some bs := by
  induction n with
  | zero =>
    intro p s t bs
    simp only [Code.loadBytes, run_pure, Machine.loads, EStateM.Result.ok.injEq, Option.some.injEq]
    exact ⟨fun h => ⟨h.2.symm, h.1⟩, fun h => ⟨h.2, h.1.symm⟩⟩
  | succ n ih =>
    intro p s t bs
    rw [Code.loadBytes, run_bind]
    simp only [Code.loadByte, run, Machine.loads]
    cases hat : M.at s.mem ⟨false, p⟩ with
    | none => simp
    | some a =>
      simp only [Option.bind_some, Option.map_eq_some_iff, run_bind_ok, ih, run_pure, EStateM.Result.ok.injEq]
      constructor
      · rintro ⟨bs', t', ⟨rfl, hbs⟩, rfl, rfl⟩
        exact ⟨rfl, bs', hbs, rfl⟩
      · rintro ⟨rfl, bs', hbs, rfl⟩
        exact ⟨bs', t, ⟨rfl, hbs⟩, rfl, rfl⟩

theorem length_loads {m : Mem} {n : Nat} : ∀ {p : Ptr} {bs : List UInt8}, M.loads m p n = some bs →
    bs.length = n := by
  induction n with
  | zero =>
    intro p bs h
    cases h
    rfl
  | succ n ih =>
    intro p bs h
    obtain ⟨a, -, h⟩ := Option.bind_eq_some_iff.mp h
    obtain ⟨bs', hbs', rfl⟩ := Option.map_eq_some_iff.mp h
    rw [List.length_cons, ih hbs']

/-- A new block leaves the program's state alone. -/
theorem run_allocZeroed {n l a : Nat} {s t : St η σ}
    (h : run M (Code.allocZeroed n l : Code σ ε Nat) s = .ok a t) :
    t.st = s.st ∧ ∀ w, moved M w (Code.allocZeroed n l : Code σ ε Nat) s = [] := by
  simp only [Code.allocZeroed, run, moved] at h ⊢
  rcases halloc : M.alloc s.heap n l with ⟨_ | b, hp⟩
  · simp [halloc] at h
  · simp only [halloc, EStateM.Result.ok.injEq] at h
    exact ⟨by rw [← h.2], fun w => rfl⟩

/-- Storing bytes moves exactly these and leaves the program's state alone. -/
theorem run_storeBytes {bs : List UInt8} : ∀ {p : Ptr} {s t : St η σ} {u : Unit},
    run M (Code.storeBytes p bs : Code σ ε _) s = .ok u t →
      t.st = s.st ∧ t.heap = s.heap ∧ moved M true (Code.storeBytes p bs : Code σ ε _) s = bs := by
  induction bs with
  | nil =>
    intro p s t u h
    cases h
    exact ⟨rfl, rfl, rfl⟩
  | cons b bs ih =>
    intro p s t u h
    rw [Code.storeBytes, run_bind_ok] at h
    obtain ⟨_, s1, hb, h⟩ := h
    obtain ⟨a, ha, rfl⟩ : ∃ a, M.at s.mem ⟨true, p⟩ = some a ∧
        { s with mem := Function.update s.mem a b } = s1 := by
      simp only [Code.storeByte, run] at hb
      cases ha : M.at s.mem ⟨true, p⟩ with
      | none => simp [ha] at hb
      | some a =>
        simp only [ha, EStateM.Result.ok.injEq, true_and] at hb
        exact ⟨a, rfl, hb⟩
    obtain ⟨hst, hheap, hmoved⟩ := ih h
    refine ⟨hst, hheap, ?_⟩
    rw [Code.storeBytes, moved_bind, hb]
    simp [hmoved, Code.storeByte, moved, ha]

theorem Ptr.span_subset {m n : Nat} : ∀ {p : Ptr}, m ≤ n → p.span m ⊆ p.span n := by
  induction m generalizing n with
  | zero => intro p _; exact List.nil_subset _
  | succ m ih =>
    intro p h
    cases n with
    | zero => omega
    | succ n => exact List.cons_subset_cons _ (ih (by omega))

theorem Ptr.span_own {n : Nat} : ∀ {p q : Ptr}, q ∈ p.span n → q.own = p.own := by
  induction n with
  | zero => intro p q h; cases h
  | succ n ih =>
    intro p q h
    rcases List.mem_cons.mp h with rfl | h
    · rfl
    · exact ih (p := p.add 1) h

/-- Storing bytes attempts stores in a row. -/
theorem trace_storeBytes {bs : List UInt8} : ∀ {p : Ptr} {s : St η σ} {e : Event},
    e ∈ trace M (Code.storeBytes p bs : Code σ ε _) s →
      e.write = true ∧ e.ptr ∈ p.span bs.length := by
  induction bs with
  | nil => intro p s e he; cases he
  | cons b bs ih =>
    intro p s e he
    have htrace : trace M (Code.storeBytes p (b :: bs) : Code σ ε _) s =
        ⟨true, p⟩ :: match M.at s.mem ⟨true, p⟩ with
          | some a => trace M (Code.storeBytes (p.add 1) bs : Code σ ε _)
              { s with mem := Function.update s.mem a b }
          | none => [] := rfl
    rw [htrace] at he
    rcases List.mem_cons.mp he with rfl | he
    · exact ⟨rfl, List.mem_cons_self⟩
    · cases ha : M.at s.mem ⟨true, p⟩ with
      | none => simp [ha] at he
      | some a =>
        rw [ha] at he
        exact ⟨(ih he).1, List.mem_cons_of_mem _ (ih he).2⟩

/-- The memories agree outside `W`. -/
def AgreeOff (W : Set Nat) (m m' : Mem) : Prop := ∀ a, a ∉ W → m a = m' a

end Semantics

end Access

import Rvos.Lib.Stores

/-! # Blocks of memory

    A program that fills a buffer sees an array of bytes, provided that its
    own stores cannot change what the pointer means.  A `Block` is a buffer
    with that guarantee: its bytes have different physical addresses, and they
    keep these addresses in every memory that differs inside the block only.

    * `Block.run_storeBytes`, `Block.run_loadBytes` : a store into a block is
      `put` on the memory, a load delivers a `part` of the block's bytes.
    * `contents_put` : in the bytes of the block, a store is `overlay`.
    * `part_overlay`, `part_overlay_apart` : the part that was stored, and a part
      beside it.
    * `storeBytes_agree_iff` : when stores in a row, into a block or not, leave
      everything outside a set as it was. -/

namespace Access

open ByteMem Usize

/-! ## Section 1: Parts of a list of bytes -/

/-- The `len` bytes from `off` on. -/
def part (v : List UInt8) (off len : Nat) : List UInt8 := (v.drop off).take len

/-- The bytes `bs` in place of those from `off` on. -/
def overlay (v : List UInt8) (off : Nat) (bs : List UInt8) : List UInt8 :=
  v.take off ++ bs ++ v.drop (off + bs.length)

theorem length_overlay {v bs : List UInt8} {off n : Nat} (hv : v.length = n) (h : off + bs.length ≤ n) :
    (overlay v off bs).length = n := by
  simp only [overlay, List.length_append, List.length_take, List.length_drop]
  omega

/-- What was stored is read back. -/
theorem part_overlay {v bs : List UInt8} {off len : Nat} (h : off + bs.length ≤ v.length) (hlen : bs.length = len) :
    part (overlay v off bs) off len = bs := by
  have htake : (v.take off).length = off := by
    rw [List.length_take]
    omega
  rw [part, overlay, List.append_assoc, List.drop_append_of_le_length htake.ge, List.drop_of_length_le htake.le,
    List.nil_append, List.take_append_of_le_length hlen.ge, List.take_of_length_le hlen.le]

/-- A part before or behind what was stored is as it was. -/
theorem part_overlay_apart {v bs : List UInt8} {off off' len : Nat} (h : off + bs.length ≤ v.length)
    (hapart : off' + len ≤ off ∨ off + bs.length ≤ off') :
    part (overlay v off bs) off' len = part v off' len := by
  apply List.ext_getElem?
  intro i
  simp only [part, List.getElem?_take, List.getElem?_drop]
  by_cases hi : i < len
  · simp only [if_pos hi, overlay]
    rcases hapart with hbefore | hbehind
    · -- the byte is among those kept in front
      rw [List.append_assoc, List.getElem?_append_left (by rw [List.length_take]; omega), List.getElem?_take,
        if_pos (by omega)]
    · -- the byte is among those kept behind
      have hlen : (v.take off ++ bs).length = off + bs.length := by
        rw [List.length_append, List.length_take]
        omega
      rw [List.getElem?_append_right (by omega), hlen, List.getElem?_drop]
      congr 1
      omega
  · simp only [if_neg hi]

/-! ## Section 2: Blocks -/

section Block

variable {η σ ε : Type} {M : Machine η ε}

/-- The `n` bytes from `p` on are the bytes at the physical addresses
    `f 0, f 1, ...`, whatever is stored into them. -/
structure Block (M : Machine η ε) (m : Mem) (p : Ptr) (n : Nat) (f : Nat → Nat) : Prop where
  addr_lt : p.addr < 2 ^ 64
  inj : ∀ i j, i < n → j < n → f i = f j → i = j
  fixed : ∀ m', AgreeOff {a | ∃ i, i < n ∧ f i = a} m' m → ∀ w i, i < n →
    M.at m' ⟨w, p.add i⟩ = some (f i)

/-- The bytes of the block. -/
def contents (f : Nat → Nat) (n : Nat) (m : Mem) : List UInt8 := (List.range n).map fun i => m (f i)

/-- The memory after storing `bs` from the byte `off` of the block on. -/
def put (f : Nat → Nat) : Nat → List UInt8 → Mem → Mem
  | _, [], m => m
  | off, b :: bs, m => put f (off + 1) bs (Function.update m (f off) b)

@[simp] theorem length_contents (f : Nat → Nat) (n : Nat) (m : Mem) : (contents f n m).length = n := by
  simp [contents]

theorem contents_get? {f : Nat → Nat} {n i : Nat} {m : Mem} (h : i < n) :
    (contents f n m)[i]? = some (m (f i)) := by
  simp [contents, h]

theorem Ptr.add_zero {p : Ptr} (h : p.addr < 2 ^ 64) : p.add 0 = p := by
  simp only [Ptr.add, wadd_of_lt (show p.addr + 0 < 2 ^ 64 from h), Nat.add_zero]

theorem Ptr.add_add (p : Ptr) (i j : Nat) : (p.add i).add j = p.add (i + j) := by
  simp only [Ptr.add, Ptr.mk.injEq, and_true, wadd]
  omega

/-- A store changes the bytes it names only. -/
theorem put_off {f : Nat → Nat} {bs : List UInt8} : ∀ {off : Nat} {m : Mem} {a : Nat},
    (∀ i, i < bs.length → f (off + i) ≠ a) → put f off bs m a = m a := by
  induction bs with
  | nil =>
    intro off m a _
    rfl
  | cons b bs ih =>
    intro off m a ha
    have hrest : ∀ i, i < bs.length → f (off + 1 + i) ≠ a := by
      intro i hi
      have := ha (i + 1) (by simpa using hi)
      rwa [show off + 1 + i = off + (i + 1) by omega]
    rw [put, ih hrest, Function.update_of_ne]
    exact fun h => ha 0 (by simp) h.symm

/-- A store leaves its bytes behind. -/
theorem put_at {f : Nat → Nat} {n : Nat} (hinj : ∀ i j, i < n → j < n → f i = f j → i = j) {bs : List UInt8} :
    ∀ {off : Nat} {m : Mem} {i : Nat}, off + bs.length ≤ n → (hi : i < bs.length) →
      put f off bs m (f (off + i)) = bs[i] := by
  induction bs with
  | nil =>
    intro off m i _ hi
    simp at hi
  | cons b bs ih =>
    intro off m i hle hi
    rw [List.length_cons] at hle
    rw [put]
    cases i with
    | zero =>
      -- the first byte is not hit by the later stores
      rw [put_off, Nat.add_zero, Function.update_self, List.getElem_cons_zero]
      intro j hj heq
      have := hinj _ _ (by omega) (by omega) heq
      omega
    | succ i =>
      have hlt : i < bs.length := by simpa using hi
      rw [show off + (i + 1) = off + 1 + i by omega, ih (by omega) hlt, List.getElem_cons_succ]

/-- In the bytes of the block a store is `overlay`. -/
theorem contents_put {f : Nat → Nat} {n off : Nat} {m : Mem} {bs : List UInt8}
    (hinj : ∀ i j, i < n → j < n → f i = f j → i = j) (hle : off + bs.length ≤ n) :
    contents f n (put f off bs m) = overlay (contents f n m) off bs := by
  have hlen : off + bs.length ≤ (contents f n m).length := by rwa [length_contents]
  apply List.ext_getElem?
  intro i
  by_cases hi : i < n
  · rw [contents_get? hi]
    by_cases hin : off ≤ i ∧ i < off + bs.length
    · -- a byte that was stored
      obtain ⟨j, rfl⟩ := Nat.exists_eq_add_of_le hin.1
      have hj : j < bs.length := by omega
      have hpart := congrArg (fun l => l[j]?) (part_overlay hlen rfl)
      simp only [part, List.getElem?_take, if_pos hj, List.getElem?_drop] at hpart
      rw [put_at hinj hle hj, hpart, List.getElem?_eq_getElem hj]
    · -- a byte beside the store
      have hbeside : part (overlay (contents f n m) off bs) i 1 = part (contents f n m) i 1 :=
        part_overlay_apart hlen (by omega)
      have hpart := congrArg (fun l => l[0]?) hbeside
      simp only [part, List.getElem?_take, Nat.zero_lt_one, if_true, List.getElem?_drop, Nat.add_zero] at hpart
      rw [hpart, contents_get? hi, put_off]
      intro j hj heq
      have := hinj _ _ (by omega) hi heq
      omega
  · rw [List.getElem?_eq_none (by rw [length_contents]; omega),
      List.getElem?_eq_none (by rw [length_overlay (length_contents f n m) hle]; omega)]

variable {m : Mem} {p : Ptr} {n : Nat} {f : Nat → Nat}

/-- A memory that differs inside the block only has the same block. -/
theorem Block.of_agree (h : Block M m p n f) {m' : Mem} (hm : AgreeOff {a | ∃ i, i < n ∧ f i = a} m' m) :
    Block M m' p n f where
  addr_lt := h.addr_lt
  inj := h.inj
  fixed := by
    intro m'' hm'' w i hi
    apply h.fixed m'' _ w i hi
    intro a ha
    exact (hm'' a ha).trans (hm a ha)

/-- Stores into a block do not move it. -/
theorem Block.put (h : Block M m p n f) {off : Nat} {bs : List UInt8} (hle : off + bs.length ≤ n) :
    Block M (put f off bs m) p n f := by
  apply h.of_agree
  intro a ha
  apply put_off
  intro i hi heq
  exact ha ⟨off + i, by omega, heq⟩

/-- **A store into a block.** -/
theorem Block.run_storeBytes {bs : List UInt8} : ∀ {off : Nat} {s : St η σ}, Block M s.mem p n f →
    off + bs.length ≤ n → run M (Code.storeBytes (p.add off) bs : Code σ ε Unit) s =
      .ok () { s with mem := Access.put f off bs s.mem } := by
  induction bs with
  | nil =>
    intro off s _ _
    rfl
  | cons b bs ih =>
    intro off s h hle
    rw [List.length_cons] at hle
    have hat : M.at s.mem ⟨true, p.add off⟩ = some (f off) := h.fixed _ (fun _ _ => rfl) true off (by omega)
    have hone : Block M (Access.put f off [b] s.mem) p n f := h.put (by simp; omega)
    have hrest : run M (Code.storeBytes (p.add (off + 1)) bs : Code σ ε Unit)
        { s with mem := Function.update s.mem (f off) b } =
          .ok () { s with mem := Access.put f (off + 1) bs (Function.update s.mem (f off) b) } :=
      ih (s := { s with mem := Function.update s.mem (f off) b }) hone (by omega)
    rw [Code.storeBytes, run_bind]
    simp only [Code.storeByte, run, hat, Ptr.add_add, hrest, Access.put]

/-- A store from the start of a block on. -/
theorem Block.run_storeBytes_start {bs : List UInt8} {s : St η σ} (h : Block M s.mem p n f)
    (hle : bs.length ≤ n) : run M (Code.storeBytes p bs : Code σ ε Unit) s =
      .ok () { s with mem := Access.put f 0 bs s.mem } := by
  have hrun : run M (Code.storeBytes (p.add 0) bs : Code σ ε Unit) s = _ := h.run_storeBytes (by omega)
  rwa [Ptr.add_zero h.addr_lt] at hrun

/-- A store into a block, and what follows it. -/
theorem Block.run_store_bind {α : Type} {off : Nat} {bs : List UInt8} {k : Unit → Code σ ε α} {s : St η σ}
    (h : Block M s.mem p n f) (hle : off + bs.length ≤ n) :
    run M (Code.storeBytes (p.add off) bs >>= k) s =
      run M (k ()) { s with mem := Access.put f off bs s.mem } :=
  run_bind_of_ok _ (h.run_storeBytes hle)

/-- **A load from a block.** -/
theorem Block.run_loadBytes {len : Nat} : ∀ {off : Nat} {s : St η σ}, Block M s.mem p n f →
    off + len ≤ n → run M (Code.loadBytes (p.add off) len : Code σ ε (List UInt8)) s =
      .ok (part (contents f n s.mem) off len) s := by
  induction len with
  | zero =>
    intro off s _ _
    simp [Code.loadBytes, part]
  | succ len ih =>
    intro off s h hle
    have hat : M.at s.mem ⟨false, p.add off⟩ = some (f off) := h.fixed _ (fun _ _ => rfl) false off (by omega)
    have hcons : part (contents f n s.mem) off (len + 1) =
        s.mem (f off) :: part (contents f n s.mem) (off + 1) len := by
      have hoff : off < (contents f n s.mem).length := by
        rw [length_contents]
        omega
      have hget : (contents f n s.mem)[off] = s.mem (f off) := by simp [contents]
      rw [part, List.drop_eq_getElem_cons hoff, List.take_succ_cons, hget, part]
    rw [Code.loadBytes, run_bind]
    simp only [Code.loadByte, run, hat, Ptr.add_add, run_bind, ih h (show off + 1 + len ≤ n by omega), run_pure,
      hcons]

end Block

/-- The first of the bytes that a pointer leads to. -/
theorem loads_take {η ε : Type} {M : Machine η ε} {m : Mem} {n k : Nat} : ∀ {p : Ptr} {bs : List UInt8},
    M.loads m p n = some bs → k ≤ n → M.loads m p k = some (bs.take k) := by
  induction k generalizing n with
  | zero =>
    intro p bs _ _
    rw [List.take_zero]
    rfl
  | succ k ih =>
    intro p bs h hk
    obtain ⟨n, rfl⟩ := Nat.exists_eq_add_of_lt (Nat.zero_lt_of_lt hk)
    rw [Nat.zero_add] at h
    obtain ⟨a, hat, hrest⟩ := Option.bind_eq_some_iff.mp h
    obtain ⟨bs', hbs', rfl⟩ := Option.map_eq_some_iff.mp hrest
    rw [Machine.loads, hat, Option.bind_some, ih hbs' (by omega), Option.map_some, List.take_succ_cons]

/-! ## Section 3: Stores that may leave a set -/

section Leave

variable {η σ ε : Type} {M : Machine η ε} {W : Set Nat} {m0 : Mem}

/-- Stores in a row leave a byte that none of them can reach. -/
theorem storeBytes_off {a : Nat} {bs : List UInt8} : ∀ {p : Ptr} {s t : St η σ} {u : Unit},
    (∀ m i, i < bs.length → M.at m ⟨true, p.add i⟩ ≠ some a) → p.addr < 2 ^ 64 →
    run M (Code.storeBytes p bs : Code σ ε Unit) s = .ok u t → t.mem a = s.mem a := by
  induction bs with
  | nil =>
    intro p s t u _ _ hrun
    cases hrun
    rfl
  | cons b bs ih =>
    intro p s t u hoff haddr hrun
    have hfirst : ∀ m, M.at m ⟨true, p⟩ ≠ some a := by
      intro m
      have := hoff m 0 (by simp)
      rwa [Ptr.add_zero haddr] at this
    rw [Code.storeBytes, run_bind] at hrun
    simp only [Code.storeByte, run] at hrun
    cases hat : M.at s.mem ⟨true, p⟩ with
    | none => simp [hat] at hrun
    | some x =>
      simp only [hat] at hrun
      have hne : a ≠ x := fun hax => hfirst s.mem (by rw [hat, hax])
      have hrest : ∀ m i, i < bs.length → M.at m ⟨true, (p.add 1).add i⟩ ≠ some a := by
        intro m i hi
        rw [Ptr.add_add, Nat.add_comm 1 i]
        exact hoff m (i + 1) (by simpa using hi)
      exact (ih hrest (wadd_lt _ _) hrun).trans (Function.update_of_ne hne _ _)

/-- **Stores in a row** that never meet each other, where changes inside `W` do
    not move them: the memory is the same outside `W` just if each of them goes
    into `W` or stores what is there already. -/
theorem storeBytes_agree_iff {bs : List UInt8} : ∀ {p : Ptr} {s t : St η σ} {u : Unit},
    (∀ m, AgreeOff W m m0 → ∀ i, i < bs.length → M.at m ⟨true, p.add i⟩ = M.at m0 ⟨true, p.add i⟩) →
    (∀ m m' i j a, i < j → j < bs.length → M.at m ⟨true, p.add i⟩ = some a →
      M.at m' ⟨true, p.add j⟩ ≠ some a) →
    p.addr < 2 ^ 64 → AgreeOff W s.mem m0 → run M (Code.storeBytes p bs : Code σ ε Unit) s = .ok u t →
    (AgreeOff W t.mem m0 ↔ ∀ i (hi : i < bs.length) a, M.at m0 ⟨true, p.add i⟩ = some a →
      a ∈ W ∨ m0 a = bs[i]) := by
  -- by induction on the bytes: the first store is not undone by the later ones
  induction bs with
  | nil =>
    intro p s t u _ _ _ hm hrun
    cases hrun
    exact ⟨fun _ i hi => absurd hi (Nat.not_lt_zero i), fun _ => hm⟩
  | cons b bs ih =>
    intro p s t u hfix hapart haddr hm hrun
    have hzero : p.add 0 = p := Ptr.add_zero haddr
    have hsucc : ∀ i, p.add (i + 1) = (p.add 1).add i := by
      intro i
      rw [Ptr.add_add, Nat.add_comm 1 i]
    rw [Code.storeBytes, run_bind] at hrun
    simp only [Code.storeByte, run] at hrun
    cases hat : M.at s.mem ⟨true, p⟩ with
    | none => simp [hat] at hrun
    | some x =>
      simp only [hat] at hrun
      have hx : M.at m0 ⟨true, p⟩ = some x := by
        have := hfix s.mem hm 0 (by simp)
        rw [hzero] at this
        rw [← this, hat]
      have hkept : t.mem x = b := by
        have hlater : ∀ m i, i < bs.length → M.at m ⟨true, (p.add 1).add i⟩ ≠ some x := by
          intro m i hi
          rw [← hsucc]
          exact hapart m0 m 0 (i + 1) x (by omega) (by simpa using hi) (by rw [hzero, hx])
        exact (storeBytes_off hlater (wadd_lt _ _) hrun).trans (Function.update_self _ _ _)
      have hrest : x ∈ W ∨ m0 x = b → (AgreeOff W t.mem m0 ↔ ∀ i (hi : i < bs.length) a,
          M.at m0 ⟨true, (p.add 1).add i⟩ = some a → a ∈ W ∨ m0 a = bs[i]) := by
        intro hfits
        apply ih _ _ (wadd_lt _ _) _ hrun
        · intro m hm' i hi
          rw [← hsucc]
          exact hfix m hm' (i + 1) (by simpa using hi)
        · intro m m' i j a hij hj
          rw [← hsucc, ← hsucc]
          exact hapart m m' (i + 1) (j + 1) a (by omega) (by simpa using hj)
        · intro a ha
          by_cases hax : a = x
          · rcases hfits with hin | hsame
            · exact absurd (hax ▸ hin) ha
            · rw [hax]
              simpa using hsame.symm
          · simpa [Function.update_of_ne hax] using hm a ha
      constructor
      · intro hagree
        have hfits : x ∈ W ∨ m0 x = b := by
          by_cases hin : x ∈ W
          · exact Or.inl hin
          · right
            rw [← hagree x hin, hkept]
        intro i hi a ha
        cases i with
        | zero =>
          rw [hzero, hx] at ha
          cases ha
          simpa using hfits
        | succ i =>
          rw [hsucc] at ha
          simpa using (hrest hfits).mp hagree i (by simpa using hi) a ha
      · intro hall
        have hfits : x ∈ W ∨ m0 x = b := by
          have := hall 0 (by simp) x (by rw [hzero, hx])
          simpa using this
        apply (hrest hfits).mpr
        intro i hi a ha
        have := hall (i + 1) (by simpa using hi) a (by rw [hsucc, ha])
        simpa using this

end Leave

end Access

import Mathlib.Tactic

/-! # Byte-addressed memory

    A memory is a total function from addresses to bytes.  Every store in
    this file is a `patch`: the bytes of one range are replaced, all others
    are kept.  Filling, copying and little-endian stores are patches, so two
    lemmas (`patch_in`, `patch_out`) carry the whole file.

    * `patch`   : replace the bytes of `[a, a + n)`.
    * `fill`    : one byte over a range.
    * `blit`    : the bytes of a list.
    * `readLE`  : the little-endian value of `n` bytes.
    * `writeLE` : the little-endian store of `n` bytes.
    * `read64`, `write64` : the 64-bit case, with values in `BitVec 64`. -/

namespace ByteMem

/-- A memory: the byte at every address. -/
abbrev Mem : Type := Nat → UInt8

/-- A 64-bit machine word. -/
abbrev Word : Type := BitVec 64

/-! ## Section 1: Patches -/

/-- Replace the bytes of `[a, a + n)` by `f 0, f 1, ...`. -/
def patch (m : Mem) (a n : Nat) (f : Nat → UInt8) : Mem :=
  fun x => if a ≤ x ∧ x < a + n then f (x - a) else m x

theorem patch_in {m : Mem} {a n x : Nat} {f : Nat → UInt8}
    (h1 : a ≤ x) (h2 : x < a + n) : patch m a n f x = f (x - a) := by
  simp [patch, h1, h2]

theorem patch_out {m : Mem} {a n x : Nat} {f : Nat → UInt8}
    (h : x < a ∨ a + n ≤ x) : patch m a n f x = m x := by
  have : ¬ (a ≤ x ∧ x < a + n) := by omega
  simp [patch, this]

@[simp] theorem patch_zero (m : Mem) (a : Nat) (f : Nat → UInt8) :
    patch m a 0 f = m := by
  funext x
  exact patch_out (by omega)

/-- Store one byte over the whole range `[a, a + n)`. -/
def fill (m : Mem) (a n : Nat) (b : UInt8) : Mem :=
  patch m a n (fun _ => b)

/-- Store the bytes of a list from `a` on. -/
def blit (m : Mem) (a : Nat) (bs : List UInt8) : Mem :=
  patch m a bs.length (fun i => bs.getD i 0)

/-- Copy `n` bytes from `src` to `dst`. -/
def copy (m : Mem) (dst src n : Nat) : Mem :=
  patch m dst n (fun i => m (src + i))

theorem fill_in {m : Mem} {a n x : Nat} {b : UInt8}
    (h1 : a ≤ x) (h2 : x < a + n) : fill m a n b x = b :=
  patch_in h1 h2

theorem fill_out {m : Mem} {a n x : Nat} {b : UInt8}
    (h : x < a ∨ a + n ≤ x) : fill m a n b x = m x :=
  patch_out h

theorem copy_in {m : Mem} {dst src n x : Nat}
    (h1 : dst ≤ x) (h2 : x < dst + n) : copy m dst src n x = m (src + (x - dst)) :=
  patch_in h1 h2

theorem copy_out {m : Mem} {dst src n x : Nat}
    (h : x < dst ∨ dst + n ≤ x) : copy m dst src n x = m x :=
  patch_out h

theorem blit_out {m : Mem} {a x : Nat} {bs : List UInt8}
    (h : x < a ∨ a + bs.length ≤ x) : blit m a bs x = m x :=
  patch_out h

/-! ## Section 2: Little-endian values -/

/-- The little-endian value of the `n` bytes from `a` on. -/
def readLE (m : Mem) (a : Nat) : Nat → Nat
  | 0 => 0
  | n + 1 => (m a).toNat + 256 * readLE m (a + 1) n

/-- Store the low `n` bytes of `v` from `a` on, least significant first. -/
def writeLE (m : Mem) (a n v : Nat) : Mem :=
  patch m a n (fun i => UInt8.ofNat (v / 256 ^ i))

theorem writeLE_out {m : Mem} {a n v x : Nat}
    (h : x < a ∨ a + n ≤ x) : writeLE m a n v x = m x :=
  patch_out h

/-- The value of a range depends on the bytes of that range only. -/
theorem readLE_congr {m m' : Mem} {n : Nat} :
    ∀ {a : Nat}, (∀ x, a ≤ x → x < a + n → m' x = m x) →
      readLE m' a n = readLE m a n := by
  induction n with
  | zero => intros; rfl
  | succ n ih =>
    intro a h
    have hhead : m' a = m a := h a (by omega) (by omega)
    have htail : readLE m' (a + 1) n = readLE m (a + 1) n :=
      ih (fun x h1 h2 => h x (by omega) (by omega))
    simp only [readLE, hhead, htail]

theorem readLE_lt (m : Mem) (n : Nat) : ∀ a, readLE m a n < 256 ^ n := by
  induction n with
  | zero => intro a; simp [readLE]
  | succ n ih =>
    intro a
    have hb : (m a).toNat < 256 := (m a).toNat_lt
    have ht := ih (a + 1)
    simp only [readLE, pow_succ]
    omega

/-- A little-endian store read back, whatever the memory around it. -/
theorem readLE_of_bytes {m : Mem} {n : Nat} :
    ∀ {a v : Nat}, (∀ i, i < n → m (a + i) = UInt8.ofNat (v / 256 ^ i)) →
      readLE m a n = v % 256 ^ n := by
  induction n with
  | zero => intro a v _; simp [readLE, Nat.mod_one]
  | succ n ih =>
    intro a v h
    have hhead : m a = UInt8.ofNat v := by simpa using h 0 (by omega)
    -- the tail is the store of `v / 256` one byte further
    have htail : readLE m (a + 1) n = v / 256 % 256 ^ n := by
      apply ih
      intro i hi
      have := h (i + 1) (by omega)
      rw [show a + 1 + i = a + (i + 1) by omega, this, pow_succ', Nat.div_div_eq_div_mul]
    have hbyte : (UInt8.ofNat v).toNat = v % 256 := by simp
    rw [readLE, hhead, htail, hbyte, pow_succ', Nat.mod_mul]

/-- The bytes of a value are those it was read from. -/
theorem readLE_byte {m : Mem} {n : Nat} :
    ∀ {a i : Nat}, i < n → UInt8.ofNat (readLE m a n / 256 ^ i) = m (a + i) := by
  induction n with
  | zero => intro a i hi; omega
  | succ n ih =>
    intro a i hi
    have hb : (m a).toNat < 256 := (m a).toNat_lt
    cases i with
    | zero =>
      apply UInt8.toNat_inj.mp
      simp only [readLE, pow_zero, Nat.div_one, Nat.add_zero, UInt8.toNat_ofNat']
      omega
    | succ i =>
      have hdiv : readLE m a (n + 1) / 256 ^ (i + 1) = readLE m (a + 1) n / 256 ^ i := by
        rw [pow_succ', ← Nat.div_div_eq_div_mul, readLE]
        congr 1
        omega
      rw [hdiv, ih (by omega), show a + 1 + i = a + (i + 1) by omega]

theorem readLE_writeLE_same (m : Mem) (a n v : Nat) :
    readLE (writeLE m a n v) a n = v % 256 ^ n := by
  apply readLE_of_bytes
  intro i hi
  rw [writeLE, patch_in (by omega) (by omega)]
  simp

theorem readLE_writeLE_disjoint {m : Mem} {a n b k v : Nat}
    (h : b + k ≤ a ∨ a + n ≤ b) : readLE (writeLE m a n v) b k = readLE m b k := by
  apply readLE_congr
  intro x h1 h2
  exact writeLE_out (by omega)

/-! ## Section 3: 64-bit words -/

/-- The 64-bit word at `a`. -/
def read64 (m : Mem) (a : Nat) : Word := BitVec.ofNat 64 (readLE m a 8)

/-- Store a 64-bit word at `a`. -/
def write64 (m : Mem) (a : Nat) (w : Word) : Mem := writeLE m a 8 w.toNat

theorem write64_out {m : Mem} {a x : Nat} {w : Word}
    (h : x < a ∨ a + 8 ≤ x) : write64 m a w x = m x :=
  writeLE_out h

@[simp] theorem read64_write64_same (m : Mem) (a : Nat) (w : Word) :
    read64 (write64 m a w) a = w := by
  apply BitVec.eq_of_toNat_eq
  have hw : w.toNat < 2 ^ 64 := w.isLt
  simp only [read64, write64, readLE_writeLE_same, BitVec.toNat_ofNat]
  omega

theorem read64_write64_disjoint {m : Mem} {a b : Nat} {w : Word}
    (h : b + 8 ≤ a ∨ a + 8 ≤ b) : read64 (write64 m a w) b = read64 m b := by
  simp only [read64, write64, readLE_writeLE_disjoint h]

theorem read64_congr {m m' : Mem} {a : Nat}
    (h : ∀ x, a ≤ x → x < a + 8 → m' x = m x) : read64 m' a = read64 m a := by
  simp only [read64, readLE_congr h]

/-- A word all of whose bytes are zero is zero. -/
theorem read64_of_zero {m : Mem} {a : Nat}
    (h : ∀ x, a ≤ x → x < a + 8 → m x = 0) : read64 m a = 0 := by
  have h0 : readLE m a 8 = 0 % 256 ^ 8 := by
    apply readLE_of_bytes
    intro i hi
    rw [h (a + i) (by omega) (by omega)]
    simp
  simp [read64, h0]

/-- Store words one after another from `a` on. -/
def writeWords (m : Mem) (a : Nat) : List Word → Mem
  | [] => m
  | w :: ws => writeWords (write64 m a w) (a + 8) ws

theorem writeWords_out {x : Nat} : ∀ {m : Mem} {a : Nat} {ws : List Word},
    x < a ∨ a + 8 * ws.length ≤ x → writeWords m a ws x = m x
  | _, _, [], _ => rfl
  | m, a, w :: ws, h => by
    simp only [List.length_cons] at h
    rw [writeWords, writeWords_out (by omega), write64_out (by omega)]

theorem read64_writeWords : ∀ {m : Mem} {a : Nat} {ws : List Word} {i : Nat} (hi : i < ws.length),
    read64 (writeWords m a ws) (a + 8 * i) = ws[i]
  | m, a, w :: ws, 0, _ => by
    rw [writeWords, Nat.mul_zero, Nat.add_zero,
      read64_congr (m := write64 m a w) fun x _ h2 => writeWords_out (by omega)]
    simp
  | m, a, w :: ws, i + 1, hi => by
    rw [writeWords, show a + 8 * (i + 1) = a + 8 + 8 * i by omega,
      read64_writeWords (by simpa using hi)]
    simp

end ByteMem

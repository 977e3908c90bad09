import Mathlib.Tactic

/-! # 64-bit machine arithmetic on natural numbers

    A `usize` is a natural number below `2 ^ 64`; an operation that can wrap
    is written with its modulus.  The operations are irreducible, so that a
    proof reasons about them by name: `wadd_of_lt` and its companions drop the
    modulus where nothing wraps, and Section 2 turns the masks and shifts of
    address arithmetic into quotients and remainders, which `omega` decides. -/

namespace Usize

/-! ## Section 1: Wrapping operations -/

/-- Wrapping addition. -/
@[irreducible] def wadd (a b : Nat) : Nat := (a + b) % 2 ^ 64

/-- Wrapping subtraction. -/
@[irreducible] def wsub (a b : Nat) : Nat := (a + (2 ^ 64 - b % 2 ^ 64)) % 2 ^ 64

/-- Wrapping multiplication. -/
@[irreducible] def wmul (a b : Nat) : Nat := (a * b) % 2 ^ 64

/-- Bitwise complement. -/
@[irreducible] def bnot (a : Nat) : Nat := 2 ^ 64 - 1 - a

/-- The left shift of a 64-bit value, bits past the top dropped. -/
@[irreducible] def shl (a n : Nat) : Nat := (a <<< n) % 2 ^ 64

/-- The value of a `usize` read as a signed number. -/
def toIsize (a : Nat) : Int := (BitVec.ofNat 64 a).toInt

/-- The bits of a signed number read as a `usize`. -/
def ofIsize (i : Int) : Nat := (BitVec.ofInt 64 i).toNat

theorem wadd_of_lt {a b : Nat} (h : a + b < 2 ^ 64) : wadd a b = a + b := by
  rw [wadd, Nat.mod_eq_of_lt h]

theorem wmul_of_lt {a b : Nat} (h : a * b < 2 ^ 64) : wmul a b = a * b := by
  rw [wmul, Nat.mod_eq_of_lt h]

theorem wsub_of_le {a b : Nat} (h : b ≤ a) (ha : a < 2 ^ 64) : wsub a b = a - b := by
  unfold wsub; omega

theorem wadd_lt (a b : Nat) : wadd a b < 2 ^ 64 := by
  rw [wadd]; exact Nat.mod_lt _ (by decide)

theorem ofIsize_lt (i : Int) : ofIsize i < 2 ^ 64 := (BitVec.ofInt 64 i).isLt

/-- A non-negative number in range keeps its value. -/
theorem ofIsize_natCast {n : Nat} (h : n < 2 ^ 64) : ofIsize (n : Int) = n := by
  simp only [ofIsize, BitVec.ofInt_natCast, BitVec.toNat_ofNat]
  exact Nat.mod_eq_of_lt h

theorem toIsize_of_lt {n : Nat} (h : n < 2 ^ 63) : toIsize n = n := by
  have hn : n % 2 ^ 64 = n := Nat.mod_eq_of_lt (by omega)
  rw [toIsize, BitVec.toInt_eq_toNat_of_lt]
  · rw [BitVec.toNat_ofNat, hn]
  · rw [BitVec.toNat_ofNat, hn]; omega

/-- The sign of a `usize` read as a signed number. -/
theorem toIsize_eq {n : Nat} (h : n < 2 ^ 64) : toIsize n = if n < 2 ^ 63 then (n : Int) else n - 2 ^ 64 := by
  have hn : n % 2 ^ 64 = n := Nat.mod_eq_of_lt h
  rw [toIsize, BitVec.toInt_eq_toNat_cond, BitVec.toNat_ofNat, hn]
  split <;> split <;> omega

/-- Reading a `usize` as a signed number does not change its bits. -/
theorem ofIsize_toIsize_add (n : Nat) (i : Int) : ofIsize (toIsize n + i) = ofIsize (n + i) := by
  simp only [ofIsize, toIsize, BitVec.ofInt_add, BitVec.ofInt_toInt, BitVec.ofInt_natCast]

/-- Reading a register as `isize` and back. -/
theorem toIsize_ofIsize (n : Nat) : toIsize (ofIsize (toIsize n)) = toIsize n := by
  simp only [toIsize, ofIsize, BitVec.ofInt_toInt, BitVec.ofNat_toNat, BitVec.setWidth_eq]

/-- The bits of a signed number, by its remainder. -/
theorem ofIsize_eq (i : Int) : (ofIsize i : Int) = i % 2 ^ 64 := by
  have hmod : 0 ≤ i % 2 ^ 64 := Int.emod_nonneg _ (by decide)
  simp only [ofIsize, BitVec.toNat_ofInt]
  rw [Int.toNat_of_nonneg (by simpa using hmod)]
  simp

/-! ## Section 2: Masks and alignment -/

/-- The mask `!(2 ^ k - 1)` rounds down to a multiple of `2 ^ k`. -/
theorem and_bnot_eq_div_mul {x k : Nat} (hx : x < 2 ^ 64) (hk : k ≤ 64) :
    x &&& bnot (2 ^ k - 1) = x / 2 ^ k * 2 ^ k := by
  have hmask : bnot (2 ^ k - 1) = (2 ^ (64 - k) - 1) * 2 ^ k := by
    have h1 : 2 ^ (64 - k) * 2 ^ k = 2 ^ 64 := by rw [← pow_add]; congr 1; omega
    have h2 : 0 < 2 ^ k := by positivity
    rw [bnot, Nat.sub_mul, h1]
    omega
  rw [hmask]
  apply Nat.eq_of_testBit_eq
  intro i
  rw [Nat.testBit_and, Nat.testBit_mul_two_pow, Nat.testBit_mul_two_pow,
    Nat.testBit_two_pow_sub_one, Nat.testBit_div_two_pow]
  by_cases hki : k ≤ i
  · -- above the mask: bits of `x` past bit 63 are zero
    by_cases hi : i - k < 64 - k
    · simp [hki, hi]
    · have hxi : x.testBit i = false :=
        Nat.testBit_lt_two_pow (lt_of_lt_of_le hx (Nat.pow_le_pow_right (by decide) (by omega)))
      simp [hki, hxi]
  · simp [hki]

/-- A mask of low ones is a remainder. -/
theorem and_low (x k : Nat) : x &&& (2 ^ k - 1) = x % 2 ^ k :=
  Nat.and_two_pow_sub_one_eq_mod x k

/-- A value without low bits, joined with a value of low bits only. -/
theorem mul_or_eq_add {a b k : Nat} (h : b < 2 ^ k) : (a * 2 ^ k) ||| b = a * 2 ^ k + b := by
  rw [← Nat.shiftLeft_eq, Nat.shiftLeft_add_eq_or_of_lt h]

end Usize

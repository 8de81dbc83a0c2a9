import Mathlib.Data.Nat.Bitwise
import Mathlib.Algebra.Order.Group.Nat
import Mathlib.Tactic.Common

/-! # Powers of two and alignment

Rounding with a mask, as code for machine integers does it. -/

namespace PowersOfTwo

def nextPowerOfTwo (n : ℕ) : ℕ := if n ≤ 1 then 1 else 2 ^ (Nat.log2 (n - 1) + 1)

theorem le_nextPowerOfTwo (n : ℕ) : n ≤ nextPowerOfTwo n := by
  unfold nextPowerOfTwo
  split
  · assumption
  · have h : n - 1 < 2 ^ (Nat.log2 (n - 1) + 1) := Nat.lt_log2_self
    omega

theorem nextPowerOfTwo_eq (n : ℕ) : ∃ k, nextPowerOfTwo n = 2 ^ k := by
  unfold nextPowerOfTwo
  split
  · exact ⟨0, rfl⟩
  · exact ⟨_, rfl⟩

theorem nextPowerOfTwo_pos (n : ℕ) : 0 < nextPowerOfTwo n := by
  obtain ⟨k, hk⟩ := nextPowerOfTwo_eq n
  rw [hk]
  exact Nat.two_pow_pos k

/-- Clear the low `k` of `n` bits. -/
theorem and_two_pow_sub {x n k : ℕ} (hx : x < 2 ^ n) (hk : k ≤ n) :
    x &&& (2 ^ n - 2 ^ k) = 2 ^ k * (x / 2 ^ k) := by
  have hpos : 0 < 2 ^ k := Nat.two_pow_pos k
  have hmask : 2 ^ n - 2 ^ k = 2 ^ n - ((2 ^ k - 1) + 1) := by omega
  have hle : 2 ^ k ≤ 2 ^ n := Nat.pow_le_pow_right (by omega) hk
  apply Nat.eq_of_testBit_eq
  intro i
  rw [Nat.testBit_and, hmask, Nat.testBit_two_pow_sub_succ (by omega), Nat.testBit_two_pow_sub_one,
    Nat.testBit_two_pow_mul, Nat.testBit_div_two_pow]
  by_cases hki : k ≤ i
  · by_cases hin : i < n
    · simp [hki, hin]
    · have hbit : x.testBit i = false :=
        Nat.testBit_lt_two_pow (hx.trans_le (Nat.pow_le_pow_right (by omega) (by omega)))
      simp [hki, hbit]
  · simp [hki]
    omega

/-- `(value + align - 1) & !(align - 1)` on 64-bit integers. -/
def alignUp (value align : ℕ) : ℕ := (value + align - 1) &&& (2 ^ 64 - 1 - (align - 1))

section alignUp
variable {value k : ℕ}

theorem alignUp_two_pow (hk : k < 64) (h : value + 2 ^ k < 2 ^ 64) :
    alignUp value (2 ^ k) = 2 ^ k * ((value + 2 ^ k - 1) / 2 ^ k) := by
  have hpos : 0 < 2 ^ k := Nat.two_pow_pos k
  rw [alignUp, show 2 ^ 64 - 1 - (2 ^ k - 1) = 2 ^ 64 - 2 ^ k by omega]
  exact and_two_pow_sub (by omega) hk.le

theorem le_alignUp (hk : k < 64) (h : value + 2 ^ k < 2 ^ 64) : value ≤ alignUp value (2 ^ k) := by
  have hpos : 0 < 2 ^ k := Nat.two_pow_pos k
  rw [alignUp_two_pow hk h]
  have := Nat.div_add_mod (value + 2 ^ k - 1) (2 ^ k)
  have := Nat.mod_lt (value + 2 ^ k - 1) hpos
  omega

theorem alignUp_lt (hk : k < 64) (h : value + 2 ^ k < 2 ^ 64) :
    alignUp value (2 ^ k) < value + 2 ^ k := by
  have hpos : 0 < 2 ^ k := Nat.two_pow_pos k
  rw [alignUp_two_pow hk h]
  have := Nat.mul_div_le (value + 2 ^ k - 1) (2 ^ k)
  omega

theorem dvd_alignUp (hk : k < 64) (h : value + 2 ^ k < 2 ^ 64) : 2 ^ k ∣ alignUp value (2 ^ k) := by
  rw [alignUp_two_pow hk h]
  exact Nat.dvd_mul_right ..

end alignUp

end PowersOfTwo

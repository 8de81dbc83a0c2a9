import Mathlib.Algebra.BigOperators.Group.List.Basic
import Mathlib.Algebra.GroupWithZero.Nat
import Mathlib.Algebra.Order.Group.Nat
import Mathlib.Data.Nat.Notation

/-! # Balanced splits

A range cut into consecutive parts whose lengths differ by at most one. -/

namespace BalancedSplit

/-- Where part `h` of `[0, n)` starts, of `p` parts. -/
def start (n p h : ℕ) : ℕ := h * (n / p) + min h (n % p)

variable {n p h k : ℕ}

theorem start_zero (n p : ℕ) : start n p 0 = 0 := by simp [start]

theorem start_succ (n p h : ℕ) :
    start n p (h + 1) = start n p h + (n / p + if h < n % p then 1 else 0) := by
  rw [start, start, Nat.succ_mul]
  split <;> omega

/-- The parts end where the range does. -/
theorem start_parts (n : ℕ) (hp : 0 < p) : start n p p = n := by
  have hlt : n % p < p := Nat.mod_lt n hp
  rw [start, Nat.min_eq_right hlt.le]
  exact Nat.div_add_mod n p

theorem start_mono (hle : k ≤ h) : start n p k ≤ start n p h := by
  rw [start, start]
  have := Nat.mul_le_mul_right (n / p) hle
  omega

theorem start_le (hp : 0 < p) (hh : h ≤ p) : start n p h ≤ n :=
  (start_mono hh).trans (start_parts n hp).le

/-- Every element is in a part. -/
theorem exists_part {i : ℕ} (hp : 0 < p) (hi : i < n) :
    ∃ h < p, start n p h ≤ i ∧ i < start n p (h + 1) := by
  have hsearch : ∀ k ≤ p, i < start n p k → ∃ h < k, start n p h ≤ i ∧ i < start n p (h + 1) := by
    intro k
    induction k with
    | zero =>
      intro _ hlt
      rw [start_zero] at hlt
      omega
    | succ k ih =>
      intro hk hlt
      by_cases hbefore : i < start n p k
      · obtain ⟨h, hh, hpart⟩ := ih (by omega) hbefore
        exact ⟨h, by omega, hpart⟩
      · exact ⟨k, by omega, by omega, hlt⟩
  exact hsearch p (Nat.le_refl p) (by rwa [start_parts n hp])

/-- What part `h` holds of a list. -/
def slice {α : Type} (p : ℕ) (data : List α) (h : ℕ) : List α :=
  (data.drop (start data.length p h)).take (start data.length p (h + 1) - start data.length p h)

/-- The first parts together are the start of the list. -/
theorem flatMap_slice {α : Type} (p : ℕ) (data : List α) (k : ℕ) :
    (List.range k).flatMap (slice p data) = data.take (start data.length p k) := by
  induction k with
  | zero => rw [start_zero, List.range_zero, List.flatMap_nil, List.take_zero]
  | succ k ih =>
    have hle : start data.length p k ≤ start data.length p (k + 1) := start_mono (Nat.le_succ k)
    rw [List.range_succ, List.flatMap_append, ih, List.flatMap_singleton, slice, ← List.take_add]
    congr 1
    omega

theorem sum_slices (hp : 0 < p) (data : List ℕ) :
    ((List.range p).map fun h => (slice p data h).sum).sum = data.sum := by
  have hall := flatMap_slice p data p
  rw [start_parts _ hp, List.take_length] at hall
  conv_rhs => rw [← hall]
  rw [List.flatMap_def, List.sum_flatten, List.map_map]
  rfl

end BalancedSplit

import Mathlib.Algebra.Order.Group.Nat
import Mathlib.Data.List.Pairwise
import Mathlib.Data.Nat.Count

/-! # Shares of a range

The dense rank of the elements of a set of numbers, and the numbers of a range that fall to
one rank when they are dealt out in turn. -/

namespace Strides

/-! ## Dense ranks -/

variable {p : ℕ → Prop} [DecidablePred p]

/-- Every rank below the number of elements is that of an element. -/
theorem exists_count_eq {n r : ℕ} (h : r < Nat.count p n) : ∃ s < n, p s ∧ Nat.count p s = r := by
  induction n with
  | zero => simp at h
  | succ n ih =>
    by_cases hr : r < Nat.count p n
    · obtain ⟨s, hs, hrank⟩ := ih hr
      exact ⟨s, by omega, hrank⟩
    · rw [Nat.count_succ] at h
      split at h
      · exact ⟨n, by omega, by assumption, by omega⟩
      · omega

/-- Elements from `n` on do not matter to the ranks below. -/
theorem count_and_lt {n m : ℕ} (h : n ≤ m) : Nat.count (fun i => p i ∧ i < n) m = Nat.count p n := by
  induction m, h using Nat.le_induction with
  | base =>
    rw [Nat.count_eq_card_filter_range, Nat.count_eq_card_filter_range]
    congr 1
    refine Finset.filter_congr fun i hi => ?_
    exact and_iff_left (Finset.mem_range.1 hi)
  | succ m hm ih => rw [Nat.count_succ, ih, if_neg (by omega), Nat.add_zero]

/-! ## Dealing out -/

/-- The numbers below `limit` from `first` on, in steps; `n` bounds how many there are. -/
def strided (step limit : ℕ) : ℕ → ℕ → List ℕ
  | 0, _ => []
  | n + 1, first => if first < limit then first :: strided step limit n (first + step) else []

variable {step limit n first u : ℕ}

theorem le_of_mem_strided (h : u ∈ strided step limit n first) : first ≤ u := by
  induction n generalizing first with
  | zero => simp [strided] at h
  | succ n ih =>
    rw [strided] at h
    split at h
    · rcases List.mem_cons.1 h with rfl | h
      · exact Nat.le_refl _
      · have := ih h
        omega
    · simp at h

theorem nodup_strided (hstep : 0 < step) : (strided step limit n first).Nodup := by
  induction n generalizing first with
  | zero => exact List.nodup_nil
  | succ n ih =>
    rw [strided]
    split
    · refine List.nodup_cons.2 ⟨fun hmem => ?_, ih⟩
      have := le_of_mem_strided hmem
      omega
    · exact List.nodup_nil

/-- The numbers dealt out are those of the range that leave the same remainder. -/
theorem mem_strided (hstep : 0 < step) (hn : limit ≤ first + n) :
    u ∈ strided step limit n first ↔ u < limit ∧ first ≤ u ∧ u % step = first % step := by
  induction n generalizing first with
  | zero =>
    simp only [strided, List.not_mem_nil, false_iff]
    omega
  | succ n ih =>
    rw [strided]
    split
    · rename_i hlt
      rw [List.mem_cons, ih (by omega), Nat.add_mod_right]
      constructor
      · rintro (rfl | ⟨hu, hle, hmod⟩)
        · exact ⟨hlt, Nat.le_refl _, rfl⟩
        · exact ⟨hu, by omega, hmod⟩
      · rintro ⟨hu, hle, hmod⟩
        rcases Nat.eq_or_lt_of_le hle with heq | hgt
        · exact .inl heq.symm
        · refine .inr ⟨hu, ?_, hmod⟩
          -- Two numbers with one remainder are at least a step apart.
          have hdvd : step ∣ u - first := Nat.dvd_of_mod_eq_zero (Nat.sub_mod_eq_zero_of_mod_eq hmod)
          have := Nat.le_of_dvd (by omega) hdvd
          omega
    · simp only [List.not_mem_nil, false_iff]
      omega

end Strides

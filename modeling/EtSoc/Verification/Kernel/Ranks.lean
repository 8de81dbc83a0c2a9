import EtSoc.Library.PowersOfTwo
import EtSoc.Model.PsMath
import Mathlib.Data.Set.Function

/-! # Dense ranks over a sparse shire mask -/

namespace EtSoc.PsMath

variable {mask hart shire : UInt32} {r : ℕ}

/-- The shires of a mask. -/
abbrev InMask (mask : UInt32) (shire : ℕ) : Prop := mask.toNat.testBit shire = true

theorem lt_of_inMask {i : ℕ} (h : InMask mask i) : i < 32 := by
  by_contra hle
  have hlt : mask.toNat < 2 ^ i :=
    mask.toNat_lt.trans_le (Nat.pow_le_pow_right (by decide) (Nat.le_of_not_lt hle))
  simp [InMask, Nat.testBit_lt_two_pow hlt] at h

theorem countOnes_toNat (mask : UInt32) :
    (countOnes mask).toNat = Nat.count (InMask mask) 32 := by
  have hle : Nat.count (InMask mask) 32 ≤ 32 := Nat.count_le _
  exact UInt32.toNat_ofNat_of_lt' (hle.trans_lt (by decide))

/-! ## Bits of the mask -/

theorem shireBit_toNat (h : shire.toNat < 32) : (shireBit shire).toNat = 2 ^ shire.toNat := by
  have hlt : shire < 32 := UInt32.lt_iff_toNat_lt.2 h
  rw [shireBit, if_pos hlt, UInt32.toNat_shiftLeft, Nat.mod_eq_of_lt h,
    show (1 : UInt32).toNat = 1 from rfl, Nat.one_shiftLeft]
  exact Nat.mod_eq_of_lt (Nat.pow_lt_pow_right (by decide) h)

theorem and_shireBit_ne_zero_iff : mask &&& shireBit shire ≠ 0 ↔ InMask mask shire.toNat := by
  by_cases h : shire.toNat < 32
  · rw [Ne, ← UInt32.toNat_inj, UInt32.toNat_and, shireBit_toNat h, Nat.and_two_pow]
    cases hbit : mask.toNat.testBit shire.toNat <;> simp [InMask, hbit]
  · have hlt : ¬shire < 32 := fun hlt => h (UInt32.lt_iff_toNat_lt.1 hlt)
    rw [shireBit, if_neg hlt, UInt32.and_zero]
    exact iff_of_false (fun hne => hne rfl) fun hmem => h (lt_of_inMask hmem)

/-- The bits below a launched shire's count the launched shires before it. -/
theorem countOnes_below (h : InMask mask shire.toNat) :
    (countOnes (mask &&& (shireBit shire - 1))).toNat = Nat.count (InMask mask) shire.toNat := by
  have hlt := lt_of_inMask h
  have hone : (1 : UInt32) ≤ shireBit shire := by
    rw [UInt32.le_iff_toNat_le, shireBit_toNat hlt]
    exact Nat.one_le_two_pow
  have hsub : (shireBit shire - 1).toNat = 2 ^ shire.toNat - 1 := by
    rw [UInt32.toNat_sub_of_le _ _ hone, shireBit_toNat hlt]
    rfl
  rw [countOnes_toNat, ← Strides.count_and_lt (p := InMask mask) hlt.le]
  congr 1
  funext i
  rw [InMask, UInt32.toNat_and, hsub, Nat.testBit_and, Nat.testBit_two_pow_sub_one]
  simp [InMask]

/-! ## Launched harts -/

theorem shireId_toNat (hart : UInt32) : (shireId hart).toNat = hart.toNat / 64 := by
  rw [shireId, UInt32.toNat_shiftRight, show (6 : UInt32).toNat % 32 = 6 from rfl,
    Nat.shiftRight_eq_div_pow]

theorem minion_toNat (hart : UInt32) : ((hart &&& 63) >>> 1).toNat = hart.toNat % 64 / 2 := by
  rw [UInt32.toNat_shiftRight, UInt32.toNat_and, show (63 : UInt32).toNat = 2 ^ 6 - 1 from rfl,
    Nat.and_two_pow_sub_one_eq_mod, show (1 : UInt32).toNat % 32 = 1 from rfl,
    Nat.shiftRight_eq_div_pow]

theorem launched_iff : launched mask hart = true ↔
    hart.toNat % 2 = 0 ∧ InMask mask (hart.toNat / 64) := by
  rw [launched, decide_eq_true_iff, and_shireBit_ne_zero_iff, shireId_toNat,
    ← UInt32.toNat_inj, UInt32.toNat_and, show (1 : UInt32).toNat = 1 from rfl,
    Nat.and_one_is_mod]
  rfl

theorem rank_toNat (h : launched mask hart = true) :
    (rank mask hart).toNat = 32 * Nat.count (InMask mask) (hart.toNat / 64) +
      hart.toNat % 64 / 2 := by
  have hmem : InMask mask (shireId hart).toNat := (shireId_toNat hart).symm ▸ (launched_iff.1 h).2
  have hle : Nat.count (InMask mask) (hart.toNat / 64) ≤ hart.toNat / 64 := Nat.count_le _
  have hlt := lt_of_inMask (launched_iff.1 h).2
  rw [rank, UInt32.toNat_add, UInt32.toNat_mul, countOnes_below hmem, shireId_toNat, minion_toNat,
    show (UInt32.ofNat Gemm.minionsPerShire).toNat = 32 from rfl]
  omega

theorem nMinions_toNat (mask : UInt32) :
    (nMinions mask).toNat = 32 * Nat.count (InMask mask) 32 := by
  have hle : Nat.count (InMask mask) 32 ≤ 32 := Nat.count_le _
  rw [nMinions, UInt32.toNat_mul, countOnes_toNat,
    show (UInt32.ofNat Gemm.minionsPerShire).toNat = 32 from rfl]
  omega

theorem nMinions_pos (h : mask ≠ 0) : 0 < (nMinions mask).toNat := by
  have hne : mask.toNat ≠ 0 := fun hzero => h (UInt32.toNat_inj.1 hzero)
  obtain ⟨i, hi⟩ := Nat.exists_testBit_of_ne_zero hne
  have hcount := Nat.count_strict_mono (p := InMask mask) hi (lt_of_inMask hi)
  rw [nMinions_toNat]
  omega

/-! ## The bijection -/

/-- The primary hart of a Minion. -/
def primary (shire minion : ℕ) : UInt32 := UInt32.ofNat (64 * shire + 2 * minion)

/-- The Minions of the launched shires. -/
def Minions (mask : UInt32) : Set (ℕ × ℕ) := {p | InMask mask p.1 ∧ p.2 < Gemm.minionsPerShire}

theorem primary_toNat {shire minion : ℕ} (h : (shire, minion) ∈ Minions mask) :
    (primary shire minion).toNat = 64 * shire + 2 * minion := by
  have hshire := lt_of_inMask h.1
  have hminion : minion < 32 := h.2
  exact UInt32.toNat_ofNat_of_lt' (lt_of_lt_of_le (b := 2048) (by omega) (by decide))

theorem launched_primary {shire minion : ℕ} (h : (shire, minion) ∈ Minions mask) :
    launched mask (primary shire minion) = true := by
  have hminion : minion < 32 := h.2
  have hdiv : (64 * shire + 2 * minion) / 64 = shire := by omega
  rw [launched_iff, primary_toNat h, hdiv]
  exact ⟨by omega, h.1⟩

theorem rank_primary {shire minion : ℕ} (h : (shire, minion) ∈ Minions mask) :
    (rank mask (primary shire minion)).toNat = 32 * Nat.count (InMask mask) shire + minion := by
  have hminion : minion < 32 := h.2
  have hdiv : (64 * shire + 2 * minion) / 64 = shire := by omega
  rw [rank_toNat (launched_primary h), primary_toNat h, hdiv]
  omega

/-- The harts that take part are the primary harts of the Minions of the launched shires. -/
theorem exists_primary (h : launched mask hart = true) :
    ∃ p ∈ Minions mask, hart = primary p.1 p.2 := by
  obtain ⟨heven, hmem⟩ := launched_iff.1 h
  have hp : (hart.toNat / 64, hart.toNat % 64 / 2) ∈ Minions mask := by
    refine ⟨hmem, ?_⟩
    show hart.toNat % 64 / 2 < 32
    omega
  refine ⟨_, hp, UInt32.toNat_inj.1 ?_⟩
  rw [primary_toNat hp]
  omega

/-- A Minion's rank is a bijection from the launched Minions onto the ranks. -/
theorem bijOn_rank (mask : UInt32) :
    Set.BijOn (fun p => (rank mask (primary p.1 p.2)).toNat) (Minions mask)
      (Set.Iio (nMinions mask).toNat) := by
  refine ⟨?_, ?_, ?_⟩
  · rintro ⟨shire, minion⟩ h
    have hminion : minion < 32 := h.2
    have hcount : Nat.count (InMask mask) shire < Nat.count (InMask mask) 32 :=
      Nat.count_strict_mono h.1 (lt_of_inMask h.1)
    show (rank mask (primary shire minion)).toNat < (nMinions mask).toNat
    rw [rank_primary h, nMinions_toNat]
    omega
  · rintro ⟨shire, minion⟩ h ⟨shire', minion'⟩ h' heq
    have hminion : minion < 32 := h.2
    have hminion' : minion' < 32 := h'.2
    replace heq : (rank mask (primary shire minion)).toNat =
      (rank mask (primary shire' minion')).toNat := heq
    rw [rank_primary h, rank_primary h'] at heq
    have hshire : shire = shire' := Nat.count_injective h.1 h'.1 (by omega)
    subst hshire
    exact Prod.ext rfl (by show minion = minion'; omega)
  · rintro r hr
    replace hr : r < (nMinions mask).toNat := hr
    rw [nMinions_toNat] at hr
    obtain ⟨shire, -, hmem, hcount⟩ := Strides.exists_count_eq (p := InMask mask) (r := r / 32)
      (n := 32) (by omega)
    have hp : (shire, r % 32) ∈ Minions mask := by
      refine ⟨hmem, ?_⟩
      show r % 32 < 32
      omega
    refine ⟨(shire, r % 32), hp, ?_⟩
    show (rank mask (primary shire (r % 32))).toNat = r
    rw [rank_primary hp, hcount]
    omega

/-- Exactly one hart has a given rank. -/
theorem existsUnique_rank (h : r < (nMinions mask).toNat) :
    ∃ hart, launched mask hart = true ∧ (rank mask hart).toNat = r ∧
      ∀ hart', launched mask hart' = true → (rank mask hart').toNat = r → hart' = hart := by
  obtain ⟨p, hp, hrank⟩ := (bijOn_rank mask).surjOn h
  refine ⟨primary p.1 p.2, launched_primary hp, hrank, fun hart' hlaunched hrank' => ?_⟩
  obtain ⟨p', hp', rfl⟩ := exists_primary hlaunched
  rw [(bijOn_rank mask).injOn hp' hp (hrank'.trans hrank.symm)]

end EtSoc.PsMath

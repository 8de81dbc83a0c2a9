import Mathlib.Data.Nat.Notation
import Mathlib.Data.List.Basic
import Mathlib.Tactic.Common

/-! # Byte memories and address spans

A memory is a function of its address. `blit` copies a span of one memory into another. -/

namespace Spans

/-- `target` with its `n` values from `dst` replaced by those of `source` from `src`. -/
def blit {α : Type} (target : ℕ → α) (dst : ℕ) (source : ℕ → α) (src n : ℕ) : ℕ → α :=
  fun a => if dst ≤ a ∧ a < dst + n then source (src + (a - dst)) else target a

section blit
variable {α : Type} {target source : ℕ → α} {dst src n a : ℕ}

theorem blit_inside (h : dst ≤ a) (h' : a < dst + n) :
    blit target dst source src n a = source (src + (a - dst)) := by
  simp [blit, h, h']

theorem blit_outside (h : ¬(dst ≤ a ∧ a < dst + n)) :
    blit target dst source src n a = target a := by
  simp only [blit, if_neg h]

theorem blit_offset {k : ℕ} (h : k < n) :
    blit target dst source src n (dst + k) = source (src + k) := by
  rw [blit_inside (by omega) (by omega), Nat.add_sub_cancel_left]

@[simp] theorem blit_zero : blit target dst source src 0 = target := by
  funext a
  exact blit_outside (by omega)

end blit

/-- The half-open spans `[a, a + m)` and `[b, b + n)` share no address. -/
def Apart (a m b n : ℕ) : Prop := ∀ x, a ≤ x → x < a + m → b ≤ x → x < b + n → False

theorem Apart.symm {a m b n : ℕ} (h : Apart a m b n) : Apart b n a m :=
  fun x h₁ h₂ h₃ h₄ => h x h₃ h₄ h₁ h₂

theorem Apart.mono {a m b n a' m' b' n' : ℕ} (h : Apart a m b n)
    (ha : a ≤ a') (hm : a' + m' ≤ a + m) (hb : b ≤ b') (hn : b' + n' ≤ b + n) :
    Apart a' m' b' n' :=
  fun x _ _ _ _ => h x (by omega) (by omega) (by omega) (by omega)

end Spans

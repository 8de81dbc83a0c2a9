import EtSoc.Library.PowersOfTwo
import Mathlib.Algebra.GroupWithZero.Nat
import Mathlib.Data.Nat.Log

/-! # Pools that grow by powers of two

The sizes of at most two buffers. The first grows to powers of two, up to a limit; the second
has the size of the limit, and so has the first once there is a second. -/

namespace GrowingPool

open PowersOfTwo

variable {limit required size index : ℕ} {pool : List ℕ}

/-- The size of a buffer that is to hold `required`. -/
def grown (limit required : ℕ) : ℕ := min (nextPowerOfTwo required) limit

def Rung (limit size : ℕ) : Prop := ∃ k, size = min (2 ^ k) limit

theorem rung_grown (limit required : ℕ) : Rung limit (grown limit required) := by
  obtain ⟨k, hk⟩ := nextPowerOfTwo_eq required
  exact ⟨k, by rw [grown, hk]⟩

theorem le_grown (h : required ≤ limit) : required ≤ grown limit required :=
  Nat.le_min.2 ⟨le_nextPowerOfTwo required, h⟩

theorem Rung.le (h : Rung limit size) : size ≤ limit := by
  obtain ⟨k, rfl⟩ := h
  exact Nat.min_le_right ..

/-- A buffer that is replaced gets to a higher power of two. -/
theorem clog_lt_of_grown (h : Rung limit size) (hlt : size < required) (hle : required ≤ limit) :
    Nat.clog 2 size < Nat.clog 2 (grown limit required) := by
  obtain ⟨k, rfl⟩ := h
  have hk : min (2 ^ k) limit = 2 ^ k := by omega
  rw [hk] at hlt ⊢
  rw [Nat.clog_pow 2 k (by decide), Nat.lt_clog_iff_pow_lt (by decide)]
  exact hlt.trans_le (le_grown hle)

theorem clog_grown_le (limit required : ℕ) :
    Nat.clog 2 (grown limit required) ≤ Nat.clog 2 limit :=
  Nat.clog_mono_right 2 (Nat.min_le_right ..)

/-- A pool as growing leaves it. -/
def Sized (limit : ℕ) : List ℕ → Prop
  | [] => True
  | [size] => Rung limit size
  | [first, second] => first = limit ∧ second = limit
  | _ => False

/-- How many more buffers a pool may come to need. -/
def budget (limit : ℕ) : List ℕ → ℕ
  | [] => Nat.clog 2 limit + 2
  | [size] => Nat.clog 2 limit - Nat.clog 2 size + 1
  | _ => 0

theorem budget_le (limit : ℕ) (pool : List ℕ) : budget limit pool ≤ Nat.clog 2 limit + 2 := by
  rcases pool with _ | ⟨a, _ | ⟨b, rest⟩⟩ <;> simp only [budget] <;> omega

theorem Sized.few (h : Sized limit pool) : pool.length ≤ 2 ∧ ∀ size ∈ pool, size ≤ limit := by
  rcases pool with _ | ⟨a, _ | ⟨b, _ | ⟨c, rest⟩⟩⟩
  · simp
  · exact ⟨by simp, by simpa using Rung.le h⟩
  · obtain ⟨rfl, rfl⟩ := h
    simp
  · exact h.elim

theorem Sized.sum_le (h : Sized limit pool) : pool.sum ≤ 2 * limit := by
  rcases pool with _ | ⟨a, _ | ⟨b, _ | ⟨c, rest⟩⟩⟩
  · simp
  · have := Rung.le h
    simp only [List.sum_cons, List.sum_nil]
    omega
  · obtain ⟨rfl, rfl⟩ := h
    simp only [List.sum_cons, List.sum_nil]
    omega
  · exact h.elim

theorem Sized.eraseIdx (h : Sized limit pool) (index : ℕ) : Sized limit (pool.eraseIdx index) := by
  have htop : Rung limit limit := ⟨limit, (Nat.min_eq_right Nat.lt_two_pow_self.le).symm⟩
  rcases pool with _ | ⟨a, _ | ⟨b, _ | ⟨c, rest⟩⟩⟩
  · exact h
  · rcases index with _ | index
    · trivial
    · exact h
  · obtain ⟨rfl, rfl⟩ := h
    rcases index with _ | _ | index
    · exact htop
    · exact htop
    · exact ⟨rfl, rfl⟩
  · exact h.elim

/-- The first `index` buffers hold `required`. -/
def Reached (required index : ℕ) (pool : List ℕ) : Prop :=
  index ≤ pool.length ∧ ∀ size ∈ pool.take index, required ≤ size

/-- One round of growing: the `index`th buffer is replaced, or added. -/
theorem Sized.grow (h : Sized limit pool) (hreached : Reached required index pool)
    (hle : required ≤ limit) (hindex : index = 0 ∨ index = 1 ∧ required = limit)
    (hlack : ∀ size ∈ pool[index]?, size < required) :
    index ≤ (pool.eraseIdx index).length ∧
      Sized limit ((pool.eraseIdx index).insertIdx index (grown limit required)) ∧
      Reached required (index + 1)
        ((pool.eraseIdx index).insertIdx index (grown limit required)) ∧
      budget limit ((pool.eraseIdx index).insertIdx index (grown limit required)) + 1 ≤
        budget limit pool := by
  have hrung := rung_grown limit required
  have hgrown := le_grown hle
  have hclog := clog_grown_le limit required
  rcases hindex with rfl | ⟨rfl, rfl⟩
  · rcases pool with _ | ⟨a, _ | ⟨b, _ | ⟨c, rest⟩⟩⟩
    · refine ⟨Nat.zero_le _, hrung, ⟨by simp, by simpa using hgrown⟩, ?_⟩
      simp only [List.eraseIdx_nil, List.insertIdx_zero, budget]
      omega
    · have hlt := clog_lt_of_grown h (hlack a rfl) hle
      refine ⟨Nat.zero_le _, hrung, ⟨by simp, by simpa using hgrown⟩, ?_⟩
      simp only [List.eraseIdx_zero, List.tail_cons, List.insertIdx_zero, budget]
      omega
    · have := hlack a rfl
      have := h.1
      omega
    · exact h.elim
  · have htop : grown required required = required :=
      Nat.le_antisymm (Nat.min_le_right ..) hgrown
    obtain ⟨hlen, hfirst⟩ := hreached
    rcases pool with _ | ⟨a, _ | ⟨b, _ | ⟨c, rest⟩⟩⟩
    · simp at hlen
    · have ha : a = required := Nat.le_antisymm (Rung.le h) (hfirst a (by simp))
      subst ha
      simp [Sized, Reached, budget, htop]
    · have := hlack b rfl
      have := h.2
      omega
    · exact h.elim

end GrowingPool

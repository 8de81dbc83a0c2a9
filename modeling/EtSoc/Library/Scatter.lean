import EtSoc.Library.Spans

/-! # Copying pieces in any order

A memory is filled with pieces. Where pieces that overlap agree, the order in which they are
copied makes no difference. -/

namespace Scatter

open Spans

/-- The values of `source` from `offset` on, for the addresses from `dst` on. -/
structure Piece (α : Type) where
  source : ℕ → α
  offset : ℕ
  dst : ℕ
  size : ℕ

namespace Piece
variable {α : Type} {p : Piece α} {m data : ℕ → α} {x : ℕ}

def Covers (p : Piece α) (x : ℕ) : Prop := p.dst ≤ x ∧ x < p.dst + p.size

instance (p : Piece α) (x : ℕ) : Decidable (p.Covers x) := inferInstanceAs (Decidable (_ ∧ _))

def put (m : ℕ → α) (p : Piece α) : ℕ → α := blit m p.dst p.source p.offset p.size

/-- The piece has the values of `data`. -/
def Of (data : ℕ → α) (p : Piece α) : Prop :=
  ∀ k < p.size, p.source (p.offset + k) = data (p.dst + k)

theorem put_of_covers (h : p.Of data) (hx : p.Covers x) : put m p x = data x := by
  obtain ⟨hlo, hhi⟩ := hx
  have hk : x - p.dst < p.size := by omega
  rw [put, blit_inside hlo hhi, h _ hk, show p.dst + (x - p.dst) = x by omega]

theorem put_of_not_covers (hx : ¬p.Covers x) : put m p x = m x := blit_outside hx

end Piece

section putAll
variable {α : Type} {ps : List (Piece α)} {m data : ℕ → α} {x : ℕ}

def putAll (m : ℕ → α) (ps : List (Piece α)) : ℕ → α := ps.foldl Piece.put m

@[simp] theorem putAll_nil : putAll m [] = m := rfl

@[simp] theorem putAll_cons (p : Piece α) : putAll m (p :: ps) = putAll (p.put m) ps := rfl

theorem putAll_of_not_covers (hx : ∀ p ∈ ps, ¬p.Covers x) : putAll m ps x = m x := by
  induction ps generalizing m with
  | nil => rfl
  | cons p ps ih =>
    simp only [List.mem_cons, forall_eq_or_imp] at hx
    rw [putAll_cons, ih hx.2, Piece.put_of_not_covers hx.1]

theorem putAll_of_covers (hof : ∀ p ∈ ps, p.Of data) (hx : ∃ p ∈ ps, p.Covers x) :
    putAll m ps x = data x := by
  induction ps generalizing m with
  | nil => simp at hx
  | cons p ps ih =>
    simp only [List.mem_cons, forall_eq_or_imp] at hof
    by_cases hrest : ∃ q ∈ ps, q.Covers x
    · exact ih hof.2 hrest
    · simp only [List.mem_cons, exists_eq_or_imp, or_iff_left hrest] at hx
      simp only [not_exists, not_and] at hrest
      rw [putAll_cons, putAll_of_not_covers hrest, Piece.put_of_covers hof.1 hx]

end putAll

/-- Of the pieces of `items`, those of `left` are still to be copied into `base`. -/
structure Partway {α ι : Type} (piece : ι → Piece α) (items left : List ι) (base m : ℕ → α) :
    Prop where
  others : ∀ x, (∀ i ∈ items, ¬(piece i).Covers x) → m x = base x
  arrived : ∀ i ∈ items, i ∉ left → ∀ x, (piece i).Covers x →
    m x = putAll base (items.map piece) x

namespace Partway
variable {α ι : Type} {piece : ι → Piece α} {items left : List ι} {base m data : ℕ → α}

theorem start : Partway piece items items base base :=
  ⟨fun _ _ => rfl, fun _ hi hnot => absurd hi hnot⟩

theorem putAll_eq (hof : ∀ i ∈ items, (piece i).Of data) {i : ι} (hi : i ∈ items) {x : ℕ}
    (hx : (piece i).Covers x) : putAll base (items.map piece) x = data x := by
  apply putAll_of_covers
  · simpa using hof
  · exact ⟨piece i, List.mem_map_of_mem hi, hx⟩

theorem put [DecidableEq ι] (h : Partway piece items left base m)
    (hof : ∀ i ∈ items, (piece i).Of data) {i : ι} (hi : i ∈ items) :
    Partway piece items (left.erase i) base ((piece i).put m) := by
  refine ⟨fun x hx => ?_, fun j hj hleft x hx => ?_⟩
  · rw [Piece.put_of_not_covers (hx i hi)]
    exact h.others x hx
  · by_cases hcovers : (piece i).Covers x
    · rw [Piece.put_of_covers (hof i hi) hcovers, putAll_eq hof hi hcovers]
    · have hne : j ≠ i := fun heq => hcovers (heq ▸ hx)
      rw [Piece.put_of_not_covers hcovers]
      exact h.arrived j hj (fun hmem => hleft ((List.mem_erase_of_ne hne).2 hmem)) x hx

/-- When all pieces have been copied, the memory is the one of copying them in turn. -/
theorem finish (h : Partway piece items [] base m) : m = putAll base (items.map piece) := by
  funext x
  by_cases hx : ∃ i ∈ items, (piece i).Covers x
  · obtain ⟨i, hi, hcovers⟩ := hx
    exact h.arrived i hi (by simp) x hcovers
  · simp only [not_exists, not_and] at hx
    rw [h.others x hx, putAll_of_not_covers (by simpa using hx)]

end Partway

end Scatter

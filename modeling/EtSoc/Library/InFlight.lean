import Mathlib.Data.List.Basic

/-! # Operations in flight

A batch of operations that are done one by one in any order. Each of them is either still to be
done or has had its effect. -/

namespace InFlight

variable {Op : Type*}

theorem mem_eraseIdx_of_ne {pending : List Op} {idx : ℕ} {op other : Op}
    (hop : pending[idx]? = some op) (hmem : other ∈ pending) (hne : other ≠ op) :
    other ∈ pending.eraseIdx idx := by
  obtain ⟨j, hj⟩ := List.mem_iff_getElem?.1 hmem
  refine List.mem_eraseIdx_iff_getElem?.2 ⟨j, fun heq => hne ?_, hj⟩
  subst heq
  exact Option.some.inj (hj.symm.trans hop)

/-- Of the operations `op 0`, …, `op (n - 1)`, those that are not done are pending, and nothing
else is. -/
structure Batch (op : ℕ → Op) (n : ℕ) (pending : List Op) (Done : ℕ → Prop) : Prop where
  only : ∀ o ∈ pending, ∃ i < n, o = op i
  covered : ∀ i < n, op i ∈ pending ∨ Done i

variable {op : ℕ → Op} {n : ℕ} {pending : List Op} {Done Done' : ℕ → Prop}

/-- When a batch is issued, all of it is pending. -/
theorem Batch.issued : Batch op n ((List.range n).map op) Done where
  only o ho := by
    obtain ⟨i, hi, rfl⟩ := List.mem_map.1 ho
    exact ⟨i, List.mem_range.1 hi, rfl⟩
  covered i hi := .inl (List.mem_map_of_mem (List.mem_range.2 hi))

/-- When nothing is pending, all of it is done. -/
theorem Batch.all_done (h : Batch op n [] Done) {i : ℕ} (hi : i < n) : Done i :=
  (h.covered i hi).resolve_left (by simp)

theorem Batch.mono (h : Batch op n pending Done) (hdone : ∀ i < n, Done i → Done' i) :
    Batch op n pending Done' where
  only := h.only
  covered i hi := (h.covered i hi).imp_right (hdone i hi)

/-- An operation is done, and what has been done before stays so. -/
theorem Batch.perform (h : Batch op n pending Done) (hinj : Function.Injective op) {idx i : ℕ}
    (hop : pending[idx]? = some (op i)) (hself : Done' i)
    (hothers : ∀ j < n, j ≠ i → Done j → Done' j) :
    Batch op n (pending.eraseIdx idx) Done' where
  only o ho := h.only o (List.mem_of_mem_eraseIdx ho)
  covered j hj := by
    by_cases hji : j = i
    · exact .inr (hji ▸ hself)
    · exact (h.covered j hj).imp (fun hmem => mem_eraseIdx_of_ne hop hmem fun heq => hji (hinj heq))
        (hothers j hj hji)

/-- What is performed belongs to the batch. -/
theorem Batch.of_getElem? (h : Batch op n pending Done) {idx : ℕ} {o : Op}
    (ho : pending[idx]? = some o) : ∃ i < n, o = op i :=
  h.only o (List.mem_of_getElem? ho)

/-- Who waits for an event of the whole batch finds nothing pending. -/
theorem Batch.eq_nil {Event : Type*} {event : Op → Event} {e : Event}
    (h : Batch op n pending Done) (hevent : ∀ i < n, event (op i) = e)
    (hwait : ∀ o ∈ pending, event o ≠ e) : pending = [] := by
  refine List.eq_nil_iff_forall_not_mem.2 fun o ho => hwait o ho ?_
  obtain ⟨i, hi, rfl⟩ := h.only o ho
  exact hevent i hi

end InFlight

import Mathlib.Data.List.Basic
import Mathlib.Logic.Function.Basic

/-! # Parties over a shared memory

Parties with states of their own that take turns on one memory, in any order. What holds of each
party is kept in every run, if the other parties do not disturb it. -/

namespace SharedMemory

structure State (Party Mem Core : Type*) where
  mem : Mem
  core : Party → Core

variable {Party Act Mem Core : Type*} [DecidableEq Party]
variable (act : Act → Mem → Core → Mem × Core)

def step (s : State Party Mem Core) (move : Party × Act) : State Party Mem Core :=
  let next := act move.2 s.mem (s.core move.1)
  ⟨next.1, Function.update s.core move.1 next.2⟩

def run (moves : List (Party × Act)) (s : State Party Mem Core) : State Party Mem Core :=
  moves.foldl (step act) s

variable {act} {s : State Party Mem Core}

@[simp] theorem run_nil : run act [] s = s := rfl

@[simp] theorem run_cons (move : Party × Act) (moves : List (Party × Act)) :
    run act (move :: moves) s = run act moves (step act s move) := rfl

theorem run_append (first second : List (Party × Act)) :
    run act (first ++ second) s = run act second (run act first s) :=
  List.foldl_append

variable {Local : Party → Mem → Core → Prop} {Allows : Mem → Mem → Prop}

/-- A party keeps its part by its own steps, and each step changes the memory as the others
allow. -/
structure Respects (act : Act → Mem → Core → Mem × Core) (Local : Party → Mem → Core → Prop)
    (Allows : Mem → Mem → Prop) : Prop where
  own : ∀ p a m c, Local p m c → Local p (act a m c).1 (act a m c).2
  allowed : ∀ p a m c, Local p m c → Allows m (act a m c).1
  stable : ∀ p m m' c, Allows m m' → Local p m c → Local p m' c

theorem Respects.step (h : Respects act Local Allows) (hs : ∀ p, Local p s.mem (s.core p))
    (move : Party × Act) (p : Party) :
    Local p (step act s move).mem ((step act s move).core p) := by
  by_cases hp : p = move.1
  · subst hp
    simp only [SharedMemory.step, Function.update_self]
    exact h.own _ _ _ _ (hs _)
  · simp only [SharedMemory.step, Function.update_of_ne hp]
    exact h.stable p _ _ _ (h.allowed _ _ _ _ (hs move.1)) (hs p)

/-- What holds of each party at the start does in every state that a run reaches. -/
theorem Respects.run (h : Respects act Local Allows) (moves : List (Party × Act))
    (hs : ∀ p, Local p s.mem (s.core p)) (p : Party) :
    Local p (run act moves s).mem ((run act moves s).core p) := by
  induction moves generalizing s with
  | nil => exact hs p
  | cons move moves ih => exact ih (h.step hs move)

/-! ## Schedules that go on -/

variable (act) in
/-- The state after `t` moves of an endless schedule. -/
def runTo (schedule : ℕ → Party × Act) (s : State Party Mem Core) (t : ℕ) : State Party Mem Core :=
  run act ((List.range t).map schedule) s

variable {schedule : ℕ → Party × Act}

theorem runTo_succ (t : ℕ) :
    runTo act schedule s (t + 1) = SharedMemory.step act (runTo act schedule s t) (schedule t) := by
  rw [runTo, List.range_succ, List.map_append, run_append]
  rfl

/-- No move is put off for ever. -/
def Fair (schedule : ℕ → Party × Act) : Prop :=
  ∀ party a start, ∃ t ≥ start, schedule t = (party, a)

variable {work : Core → ℕ} {Final : Core → Prop}

/-- Each step of a party that changes it takes it on, and until it is done some step does,
whatever the others have written. -/
structure Finishes (act : Act → Mem → Core → Mem × Core) (work : Core → ℕ) (Final : Core → Prop) :
    Prop where
  decreases : ∀ a m c, (act a m c).2 = c ∨ work (act a m c).2 < work c
  enabled : ∀ c, ¬Final c → ∃ a, ∀ m, work (act a m c).2 < work c
  final : ∀ a m c, Final c → Final (act a m c).2

variable (s schedule) in
theorem Finishes.core_succ (h : Finishes act work Final) (p : Party) (t : ℕ) :
    (runTo act schedule s (t + 1)).core p = (runTo act schedule s t).core p ∨
      work ((runTo act schedule s (t + 1)).core p) < work ((runTo act schedule s t).core p) := by
  rw [runTo_succ]
  by_cases hp : p = (schedule t).1
  · subst hp
    simp only [SharedMemory.step, Function.update_self]
    exact h.decreases _ _ _
  · left
    simp only [SharedMemory.step, Function.update_of_ne hp]

variable (s schedule) in
theorem Finishes.core_le (h : Finishes act work Final) (p : Party) {t t' : ℕ} (hle : t ≤ t') :
    (runTo act schedule s t').core p = (runTo act schedule s t).core p ∨
      work ((runTo act schedule s t').core p) < work ((runTo act schedule s t).core p) := by
  induction hle with
  | refl => exact .inl rfl
  | @step t' _ ih =>
    rcases h.core_succ s schedule p t' with heq | hlt
    · rwa [heq]
    · rcases ih with heq | hlt'
      · rw [heq] at hlt
        exact .inr hlt
      · exact .inr (Nat.lt_trans hlt hlt')

theorem Finishes.exists_final (h : Finishes act work Final) (hfair : Fair schedule) (p : Party)
    (t : ℕ) : ∃ t' ≥ t, Final ((runTo act schedule s t').core p) := by
  induction hwork : work ((runTo act schedule s t).core p) using Nat.strongRecOn
    generalizing t with
  | _ n ih =>
    by_cases hfinal : Final ((runTo act schedule s t).core p)
    · exact ⟨t, Nat.le_refl t, hfinal⟩
    obtain ⟨a, ha⟩ := h.enabled _ hfinal
    obtain ⟨t', hle, hmove⟩ := hfair p a t
    rcases h.core_le s schedule p hle with heq | hlt
    · have hlt : work ((runTo act schedule s (t' + 1)).core p) < n := by
        rw [runTo_succ, hmove]
        simp only [SharedMemory.step, Function.update_self]
        rw [heq, ← hwork]
        exact ha _
      obtain ⟨t'', hle', hdone⟩ := ih _ hlt (t' + 1) rfl
      exact ⟨t'', by omega, hdone⟩
    · obtain ⟨t'', hle', hdone⟩ := ih _ (hwork ▸ hlt) t' rfl
      exact ⟨t'', Nat.le_trans hle hle', hdone⟩

/-- On a fair schedule, each party comes to its end and stays there. -/
theorem Finishes.eventually (h : Finishes act work Final) (hfair : Fair schedule) (p : Party) :
    ∃ t, ∀ t' ≥ t, Final ((runTo act schedule s t').core p) := by
  obtain ⟨t, -, hfinal⟩ := h.exists_final (s := s) hfair p 0
  refine ⟨t, fun t' hle => ?_⟩
  induction hle with
  | refl => exact hfinal
  | @step t' _ ih =>
    rw [runTo_succ]
    by_cases hp : p = (schedule t').1
    · subst hp
      simp only [SharedMemory.step, Function.update_self]
      exact h.final _ _ _ ih
    · simp only [SharedMemory.step, Function.update_of_ne hp]
      exact ih

/-- Finitely many parties come to their ends together. -/
theorem Finishes.all (h : Finishes act work Final) (hfair : Fair schedule) (parties : List Party) :
    ∃ t, ∀ t' ≥ t, ∀ p ∈ parties, Final ((runTo act schedule s t').core p) := by
  induction parties with
  | nil => exact ⟨0, fun _ _ p hp => absurd hp (by simp)⟩
  | cons p parties ih =>
    obtain ⟨t, ht⟩ := h.eventually (s := s) hfair p
    obtain ⟨u, hu⟩ := ih
    refine ⟨max t u, fun t' hle q hq => ?_⟩
    rcases List.mem_cons.1 hq with rfl | hq
    · exact ht t' (by omega)
    · exact hu t' (by omega) q hq

end SharedMemory

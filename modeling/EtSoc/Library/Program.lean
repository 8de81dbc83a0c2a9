import Mathlib.Logic.Basic

/-! # Imperative programs and their pre- and postconditions

A program transforms a state and ends in one of three ways: with a value, with an
error, or without returning at all. Only the second can be caught. -/

namespace Program

/-- Why a program did not return. -/
inductive Stop where
  | waiting
  | panic (message : String)
deriving DecidableEq, Repr

inductive Outcome (ε α : Type) where
  | ok (value : α)
  | err (error : ε)
  | stop (reason : Stop)
deriving DecidableEq

def Outcome.isOk {ε α : Type} : Outcome ε α → Bool
  | .ok _ => true
  | .err _ | .stop _ => false

/-- A program over states `σ` with errors `ε` and results `α`. -/
def Prog (σ ε α : Type) := σ → Outcome ε α × σ

variable {σ ε α β γ : Type}

namespace Prog

def pure (a : α) : Prog σ ε α := fun s => (.ok a, s)

def bind (m : Prog σ ε α) (f : α → Prog σ ε β) : Prog σ ε β := fun s =>
  match m s with
  | (.ok a, s') => f a s'
  | (.err e, s') => (.err e, s')
  | (.stop r, s') => (.stop r, s')

instance : Monad (Prog σ ε) where
  pure := Prog.pure
  bind := Prog.bind

/-- Return early with an error. -/
def throw (e : ε) : Prog σ ε α := fun s => (.err e, s)

def panic (message : String) : Prog σ ε α := fun s => (.stop (.panic message), s)

/-- Block for ever. -/
def block : Prog σ ε α := fun s => (.stop .waiting, s)

def read (f : σ → α) : Prog σ ε α := fun s => (.ok (f s), s)

def modify (f : σ → σ) : Prog σ ε Unit := fun s => (.ok (), f s)

/-- Run a program and hand its error, if any, to the caller as a value. -/
def attempt (m : Prog σ ε α) : Prog σ ε (Except ε α) := fun s =>
  match m s with
  | (.ok a, s') => (.ok (.ok a), s')
  | (.err e, s') => (.ok (.error e), s')
  | (.stop r, s') => (.stop r, s')

/-- Turn a caught result back into a return or an error. -/
def ofExcept : Except ε α → Prog σ ε α
  | .ok a => pure a
  | .error e => throw e

theorem bind_assoc (m : Prog σ ε α) (f : α → Prog σ ε β) (g : β → Prog σ ε γ) :
    (m >>= f) >>= g = m >>= fun a => f a >>= g := by
  funext s
  change Prog.bind (Prog.bind m f) g s = Prog.bind m (fun a => Prog.bind (f a) g) s
  unfold Prog.bind
  rcases m s with ⟨_ | _ | _, s'⟩ <;> rfl

end Prog

theorem Prog.eq_ok {m : Prog σ ε α} {s : σ} (h : (m s).1.isOk = true) :
    ∃ a s', m s = (.ok a, s') := by
  generalize m s = r at h
  match r, h with
  | (.ok a, s'), _ => exact ⟨a, s', rfl⟩

theorem Prog.eq_ok_of {m : Prog σ ε α} {s : σ} {a : α} (h : (m s).1 = .ok a) :
    ∃ s', m s = (.ok a, s') :=
  ⟨(m s).2, Prod.ext h rfl⟩

/-! ## Triples -/

/-- What holds at each way of ending. -/
structure Post (σ ε α : Type) where
  ok : α → σ → Prop
  err : ε → σ → Prop
  stop : Stop → σ → Prop

def Post.At (Q : Post σ ε α) : Outcome ε α × σ → Prop
  | (.ok a, s) => Q.ok a s
  | (.err e, s) => Q.err e s
  | (.stop r, s) => Q.stop r s

/-- If the program returns, `R` holds. -/
def Returns (R : α → σ → Prop) : Post σ ε α := ⟨R, fun _ _ => True, fun _ _ => True⟩

/-- From every state satisfying `P`, the program ends as `Q` says. -/
def Triple (P : σ → Prop) (m : Prog σ ε α) (Q : Post σ ε α) : Prop :=
  ∀ s, P s → Q.At (m s)

namespace Triple

theorem pure {P : σ → Prop} {Q : Post σ ε α} {a : α} (h : ∀ s, P s → Q.ok a s) :
    Triple P (Pure.pure a) Q := h

theorem throw {P : σ → Prop} {Q : Post σ ε α} {e : ε} (h : ∀ s, P s → Q.err e s) :
    Triple P (Prog.throw e) Q := h

theorem panic {P : σ → Prop} {Q : Post σ ε α} {message : String}
    (h : ∀ s, P s → Q.stop (.panic message) s) : Triple P (Prog.panic message) Q := h

theorem block {P : σ → Prop} {Q : Post σ ε α} (h : ∀ s, P s → Q.stop .waiting s) :
    Triple P Prog.block Q := h

theorem modify {P : σ → Prop} {Q : Post σ ε Unit} {f : σ → σ}
    (h : ∀ s, P s → Q.ok () (f s)) : Triple P (Prog.modify f) Q := h

theorem bind {P : σ → Prop} {R : α → σ → Prop} {Q : Post σ ε β} {m : Prog σ ε α}
    {f : α → Prog σ ε β} (hm : Triple P m ⟨R, Q.err, Q.stop⟩)
    (hf : ∀ a, Triple (R a) (f a) Q) : Triple P (m >>= f) Q := by
  intro s hs
  have h := hm s hs
  change Q.At (Prog.bind m f s)
  unfold Prog.bind
  split <;> rename_i heq <;> rw [heq] at h
  · exact hf _ _ h
  · exact h
  · exact h

/-- Reading the state: the continuation may use the value read. -/
theorem read_bind {P : σ → Prop} {Q : Post σ ε β} {g : σ → α} {f : α → Prog σ ε β}
    (h : ∀ a, Triple (fun s => P s ∧ g s = a) (f a) Q) : Triple P (Prog.read g >>= f) Q :=
  fun s hs => h (g s) s ⟨hs, rfl⟩

theorem modify_bind {P R : σ → Prop} {Q : Post σ ε β} {g : σ → σ} {f : Unit → Prog σ ε β}
    (hg : ∀ s, P s → R (g s)) (h : Triple R (f ()) Q) : Triple P (Prog.modify g >>= f) Q :=
  fun s hs => h (g s) (hg s hs)

theorem attempt {P : σ → Prop} {Q : Post σ ε (Except ε α)} {m : Prog σ ε α}
    (h : Triple P m ⟨fun a => Q.ok (.ok a), fun e => Q.ok (.error e), Q.stop⟩) :
    Triple P m.attempt Q := by
  intro s hs
  have h := h s hs
  unfold Prog.attempt
  split <;> rename_i heq <;> rw [heq] at h <;> exact h

theorem attempt_bind {P : σ → Prop} {R : α → σ → Prop} {E : ε → σ → Prop} {Q : Post σ ε β}
    {m : Prog σ ε α} {f : Except ε α → Prog σ ε β} (h : Triple P m ⟨R, E, Q.stop⟩)
    (hok : ∀ a, Triple (R a) (f (.ok a)) Q) (herr : ∀ e, Triple (E e) (f (.error e)) Q) :
    Triple P (m.attempt >>= f) Q := by
  intro s hs
  have h := h s hs
  change Q.At (Prog.bind m.attempt f s)
  unfold Prog.bind Prog.attempt
  generalize m s = r at h
  match r, h with
  | (.ok a, s'), h => exact hok a s' h
  | (.err e, s'), h => exact herr e s' h
  | (.stop _, s'), h => exact h

theorem ofExcept {P : σ → Prop} {Q : Post σ ε α} {r : Except ε α}
    (hok : ∀ a, r = .ok a → ∀ s, P s → Q.ok a s)
    (herr : ∀ e, r = .error e → ∀ s, P s → Q.err e s) : Triple P (Prog.ofExcept r) Q := by
  cases r with
  | ok a => exact hok a rfl
  | error e => exact herr e rfl

theorem conseq {P P' : σ → Prop} {Q Q' : Post σ ε α} {m : Prog σ ε α} (h : Triple P m Q)
    (hP : ∀ s, P' s → P s) (hok : ∀ a s, Q.ok a s → Q'.ok a s)
    (herr : ∀ e s, Q.err e s → Q'.err e s) (hstop : ∀ {r} s, Q.stop r s → Q'.stop r s) :
    Triple P' m Q' := by
  intro s hs
  have h := h s (hP s hs)
  generalize m s = r at h
  match r, h with
  | (.ok a, s'), h => exact hok a s' h
  | (.err e, s'), h => exact herr e s' h
  | (.stop _, s'), h => exact hstop s' h

theorem pre {P P' : σ → Prop} {Q : Post σ ε α} {m : Prog σ ε α} (h : Triple P m Q)
    (hP : ∀ s, P' s → P s) : Triple P' m Q :=
  fun s hs => h s (hP s hs)

/-- A fact about the precondition that does not depend on the state. -/
theorem intro {P : σ → Prop} {p : Prop} {Q : Post σ ε α} {m : Prog σ ε α}
    (hp : ∀ s, P s → p) (h : p → Triple P m Q) : Triple P m Q :=
  fun s hs => h (hp s hs) s hs

/-- Part of the precondition does not depend on the state. -/
theorem and_pre {P : σ → Prop} {p : Prop} {Q : Post σ ε α} {m : Prog σ ε α}
    (h : p → Triple P m Q) : Triple (fun s => p ∧ P s) m Q :=
  fun s hs => h hs.1 s hs.2

/-- Fix a value of which the precondition asserts the existence. -/
theorem exists_pre {ι : Type} {P : ι → σ → Prop} {Q : Post σ ε α} {m : Prog σ ε α}
    (h : ∀ i, Triple (P i) m Q) : Triple (fun s => ∃ i, P i s) m Q :=
  fun s ⟨i, hi⟩ => h i s hi

/-- Fix the starting state. -/
theorem fix {P : σ → Prop} {Q : Post σ ε α} {m : Prog σ ε α}
    (h : ∀ s₀, P s₀ → Triple (fun s => s = s₀) m Q) : Triple P m Q :=
  fun s hs => h s hs s rfl

theorem ite {P : σ → Prop} {Q : Post σ ε α} {c : Prop} [Decidable c] {m n : Prog σ ε α}
    (hm : c → Triple P m Q) (hn : ¬c → Triple P n Q) :
    Triple P (if c then m else n) Q := by
  split
  · exact hm ‹_›
  · exact hn ‹_›

/-- Two things are known of one program. -/
theorem both {P P' : σ → Prop} {Q Q' : Post σ ε α} {m : Prog σ ε α} (h : Triple P m Q)
    (h' : Triple P' m Q') : Triple (fun s => P s ∧ P' s) m
      ⟨fun a s => Q.ok a s ∧ Q'.ok a s, fun e s => Q.err e s ∧ Q'.err e s,
        fun r s => Q.stop r s ∧ Q'.stop r s⟩ := by
  intro s ⟨hs, hs'⟩
  have h := h s hs
  have h' := h' s hs'
  generalize m s = r at h h'
  match r, h, h' with
  | (.ok a, s'), h, h' => exact ⟨h, h'⟩
  | (.err e, s'), h, h' => exact ⟨h, h'⟩
  | (.stop r, s'), h, h' => exact ⟨h, h'⟩

theorem returns {P : σ → Prop} {m : Prog σ ε α} : Triple P m (Returns fun _ _ => True) := by
  intro s _
  generalize m s = r
  match r with
  | (.ok _, _) | (.err _, _) | (.stop _, _) => trivial

/-- The end of a run that returned a value. -/
theorem of_ok {P : σ → Prop} {Q : Post σ ε α} {m : Prog σ ε α} {s s' : σ} {a : α}
    (h : Triple P m Q) (hs : P s) (hm : m s = (.ok a, s')) : Q.ok a s' := by
  have h := h s hs
  rwa [hm] at h

end Triple

/-! ## Parts of the state that a program leaves alone -/

/-- However the program ends, the part `f` of the state is as before. -/
def Keeps {τ : Type} (f : σ → τ) (m : Prog σ ε α) : Prop := ∀ s, f (m s).2 = f s

namespace Keeps
variable {τ : Type} {f : σ → τ}

theorem pure {a : α} : Keeps f (Pure.pure a : Prog σ ε α) := fun _ => rfl

theorem throw {e : ε} : Keeps f (Prog.throw e : Prog σ ε α) := fun _ => rfl

theorem block : Keeps f (Prog.block : Prog σ ε α) := fun _ => rfl

theorem panic {message : String} : Keeps f (Prog.panic message : Prog σ ε α) := fun _ => rfl

theorem read {g : σ → α} : Keeps f (Prog.read g : Prog σ ε α) := fun _ => rfl

theorem modify {g : σ → σ} (h : ∀ s, f (g s) = f s) : Keeps f (Prog.modify g : Prog σ ε Unit) := h

theorem bind {m : Prog σ ε α} {k : α → Prog σ ε β} (hm : Keeps f m) (hk : ∀ a, Keeps f (k a)) :
    Keeps f (m >>= k) := by
  intro s
  have h := hm s
  change f (Prog.bind m k s).2 = f s
  unfold Prog.bind
  split <;> rename_i heq <;> rw [heq] at h
  · exact (hk _ _).trans h
  · exact h
  · exact h

/-- A fact about the untouched part alone. -/
theorem triple {m : Prog σ ε α} (hm : Keeps f m) (G : τ → Prop) :
    Triple (fun s => G (f s)) m
      ⟨fun _ s => G (f s), fun _ s => G (f s), fun _ s => G (f s)⟩ := by
  intro s hG
  have hf : G (f (m s).2) := (hm s).symm ▸ hG
  generalize m s = r at hf
  match r, hf with
  | (.ok _, _), hf | (.err _, _), hf | (.stop _, _), hf => exact hf

/-- A fact about the untouched part is still true afterwards. -/
theorem frame {m : Prog σ ε α} (hm : Keeps f m) {P : σ → Prop} {Q : Post σ ε α}
    (h : Triple P m Q) (G : τ → Prop) :
    Triple (fun s => P s ∧ G (f s)) m
      ⟨fun a s => Q.ok a s ∧ G (f s), fun e s => Q.err e s ∧ G (f s), Q.stop⟩ := by
  intro s ⟨hs, hG⟩
  have h := h s hs
  have hf := hm s
  generalize m s = r at h hf
  match r, h, hf with
  | (.ok a, s'), h, hf => exact ⟨h, hf ▸ hG⟩
  | (.err e, s'), h, hf => exact ⟨h, hf ▸ hG⟩
  | (.stop _, s'), h, _ => exact h

end Keeps

end Program

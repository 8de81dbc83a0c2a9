import EtSoc.Model.State

/-! # The record of the queues

A waiter is whoever pushed a command under a tag and has neither collected its response
nor given up on it. The log of a run is in order when each event fits the ones before. -/

namespace EtSoc

/-- The command whose response the holder of a tag waits for. -/
def waiting : List QueueEvent → Tag → Option ℕ
  | [], _ => none
  | .pushed tag c :: log, t => if tag = t then some c else waiting log t
  | .collected tag _ :: log, t | .gaveUp tag :: log, t => if tag = t then none else waiting log t
  | .popped _ :: log, t | .collecting _ :: log, t => waiting log t

/-- The response to `c` left the completion queue as `rsp`. -/
def Popped (log : List QueueEvent) (c : ℕ) (rsp : PoppedResponse) : Prop :=
  QueueEvent.popped rsp ∈ log ∧ rsp.origin = some c

theorem Popped.cons {log : List QueueEvent} {c : ℕ} {rsp : PoppedResponse} (h : Popped log c rsp)
    (e : QueueEvent) : Popped (e :: log) c rsp :=
  ⟨List.mem_cons_of_mem _ h.1, h.2⟩

theorem Popped.of_cons {log : List QueueEvent} {e : QueueEvent} {c : ℕ} {rsp : PoppedResponse}
    (h : Popped (e :: log) c rsp) : (e = .popped rsp ∧ rsp.origin = some c) ∨ Popped log c rsp := by
  obtain ⟨hmem, ho⟩ := h
  rcases List.mem_cons.1 hmem with heq | hmem
  · exact .inl ⟨heq.symm, ho⟩
  · exact .inr ⟨hmem, ho⟩

/-- An event fits the log it follows. -/
def EventOk (log : List QueueEvent) : QueueEvent → Prop
  | .pushed tag c => waiting log tag = none ∧ ∀ tag' c', .pushed tag' c' ∈ log → c' < c
  | .popped rsp => ∃ c, rsp.origin = some c ∧ ∀ rsp', ¬Popped log c rsp'
  | .collected tag rsp => ∃ c, waiting log tag = some c ∧ Popped log c rsp
  | .collecting _ | .gaveUp _ => True

/-- A waiter whose response is already there gets it at once: `e` is what follows the
start of a collection. -/
def Prompt (log : List QueueEvent) (e : QueueEvent) : Prop :=
  ∀ tag older c rsp, log = .collecting tag :: older → waiting older tag = some c →
    Popped older c rsp → e = .collected tag rsp

/-- A log in order; that collections are prompt is asked only of a `punctual` one. -/
inductive LogOk (punctual : Prop) : List QueueEvent → Prop where
  | nil : LogOk punctual []
  | cons {e log} (hlog : LogOk punctual log) (he : EventOk log e)
      (hprompt : punctual → Prompt log e) : LogOk punctual (e :: log)

/-- The log does not end in the start of a collection whose response is already there. -/
def Quiet (log : List QueueEvent) : Prop :=
  ∀ tag older c rsp, log = .collecting tag :: older → waiting older tag = some c →
    ¬Popped older c rsp

theorem Quiet.prompt {log : List QueueEvent} (h : Quiet log) (e : QueueEvent) : Prompt log e :=
  fun tag older c rsp hlog hw hp => absurd hp (h tag older c rsp hlog hw)

/-- A log that ends in any other event is quiet. -/
theorem Quiet.of_ne {log : List QueueEvent} {e : QueueEvent} (h : ∀ tag, e ≠ .collecting tag) :
    Quiet (e :: log) :=
  fun tag _ _ _ hlog => absurd (List.cons.inj hlog).1 (h tag)

theorem mem_of_waiting {log : List QueueEvent} {t : Tag} {c : ℕ} (h : waiting log t = some c) :
    .pushed t c ∈ log := by
  induction log with
  | nil => simp [waiting] at h
  | cons e log ih =>
    cases e with
    | pushed tag c' =>
      simp only [waiting] at h
      split at h
      · simp_all
      · exact List.mem_cons_of_mem _ (ih h)
    | collected tag rsp | gaveUp tag =>
      simp only [waiting] at h
      split at h
      · simp at h
      · exact List.mem_cons_of_mem _ (ih h)
    | popped rsp | collecting tag => exact List.mem_cons_of_mem _ (ih h)

namespace LogOk
variable {punctual : Prop} {log older newer : List QueueEvent}

theorem of_append (newer : List QueueEvent) (h : LogOk punctual (newer ++ older)) : LogOk punctual older := by
  induction newer with
  | nil => exact h
  | cons e newer ih =>
    cases h with
    | cons hlog _ _ => exact ih hlog

theorem eventOk (newer : List QueueEvent) {e : QueueEvent}
    (h : LogOk punctual (newer ++ e :: older)) : EventOk older e := by
  cases of_append newer h with
  | cons _ he _ => exact he

/-- A command is pushed once, under one tag. -/
theorem pushed_unique (h : LogOk punctual log) {t t' : Tag} {c : ℕ} (ht : .pushed t c ∈ log)
    (ht' : .pushed t' c ∈ log) : t = t' := by
  induction h with
  | nil => simp at ht
  | @cons e log _ he _ ih =>
    rcases List.mem_cons.1 ht with heq | hmem <;> rcases List.mem_cons.1 ht' with heq' | hmem'
    · exact (QueueEvent.pushed.inj (heq.trans heq'.symm)).1
    · subst heq
      exact absurd (he.2 t' c hmem') (by omega)
    · subst heq'
      exact absurd (he.2 t c hmem) (by omega)
    · exact ih hmem hmem'

/-- A response is popped once. -/
theorem popped_unique (h : LogOk punctual log) {c : ℕ} {rsp rsp' : PoppedResponse}
    (hp : Popped log c rsp) (hp' : Popped log c rsp') : rsp = rsp' := by
  induction h with
  | nil => simp [Popped] at hp
  | @cons e log _ he _ ih =>
    obtain ⟨hmem, ho⟩ := hp
    obtain ⟨hmem', ho'⟩ := hp'
    rcases List.mem_cons.1 hmem with heq | hold <;> rcases List.mem_cons.1 hmem' with heq' | hold'
    · exact QueueEvent.popped.inj (heq.trans heq'.symm)
    · subst heq
      obtain ⟨c', hc', hnone⟩ := he
      exact absurd ⟨hold', ho'.trans (ho.symm.trans hc')⟩ (hnone rsp')
    · subst heq'
      obtain ⟨c', hc', hnone⟩ := he
      exact absurd ⟨hold, ho.trans (ho'.symm.trans hc')⟩ (hnone rsp)
    · exact ih ⟨hold, ho⟩ ⟨hold', ho'⟩

theorem pushed_of_collected (h : LogOk punctual log) {t : Tag} {rsp : PoppedResponse}
    (ht : .collected t rsp ∈ log) : ∃ c, rsp.origin = some c ∧ .pushed t c ∈ log := by
  induction h with
  | nil => simp at ht
  | cons _ he _ ih =>
    rcases List.mem_cons.1 ht with rfl | ht
    · obtain ⟨c, hw, -, horigin⟩ := he
      exact ⟨c, horigin, List.mem_cons_of_mem _ (mem_of_waiting hw)⟩
    · obtain ⟨c, horigin, hpushed⟩ := ih ht
      exact ⟨c, horigin, List.mem_cons_of_mem _ hpushed⟩

/-- The response that a waiter waits for has not been collected. -/
theorem not_collected (h : LogOk punctual log) {t t' : Tag} {c : ℕ} {rsp : PoppedResponse}
    (hw : waiting log t = some c) (ht' : .collected t' rsp ∈ log) : rsp.origin ≠ some c := by
  induction h with
  | nil => simp at ht'
  | @cons e log hlog he _ ih =>
    intro horigin
    cases e with
    | pushed tag c' =>
      simp only [List.mem_cons, reduceCtorEq, false_or] at ht'
      simp only [waiting] at hw
      split at hw
      · obtain ⟨c'', horigin', hpushed⟩ := hlog.pushed_of_collected ht'
        have := he.2 _ _ hpushed
        simp_all
      · exact ih hw ht' horigin
    | collected tag rsp' =>
      simp only [waiting] at hw
      split at hw
      · simp at hw
      · rename_i hne
        obtain ⟨c', hw', -, horigin'⟩ := he
        rcases List.mem_cons.1 ht' with heq | ht'
        · obtain ⟨rfl, rfl⟩ := QueueEvent.collected.inj heq
          obtain rfl : c' = c := Option.some.inj (horigin'.symm.trans horigin)
          exact hne (hlog.pushed_unique (mem_of_waiting hw') (mem_of_waiting hw))
        · exact ih hw ht' horigin
    | gaveUp tag =>
      simp only [List.mem_cons, reduceCtorEq, false_or] at ht'
      simp only [waiting] at hw
      split at hw
      · simp at hw
      · exact ih hw ht' horigin
    | popped rsp' | collecting tag =>
      simp only [List.mem_cons, reduceCtorEq, false_or] at ht'
      exact ih hw ht' horigin

/-- No response is returned to two waiters. -/
theorem collected_pairwise (h : LogOk punctual log) :
    log.Pairwise fun e e' => ∀ t rsp t' rsp', e = .collected t rsp → e' = .collected t' rsp' →
      rsp.origin ≠ rsp'.origin := by
  induction h with
  | nil => exact List.Pairwise.nil
  | @cons e log hlog he _ ih =>
    refine List.Pairwise.cons (fun e' he' t rsp t' rsp' heq heq' => ?_) ih
    subst heq heq'
    obtain ⟨c, hw, -, horigin⟩ := he
    rw [horigin]
    exact (hlog.not_collected hw he').symm

/-- A response that came while another tag was awaited is what the next collection by its
waiter returns. -/
theorem collected_of_popped (h : LogOk punctual (newer ++ .collecting t :: older))
    (hpunctual : punctual) (hquiet : Quiet (newer ++ .collecting t :: older)) {c : ℕ} {rsp : PoppedResponse}
    (hw : waiting older t = some c) (hp : Popped older c rsp) :
    ∃ newer', newer = newer' ++ [.collected t rsp] := by
  rcases List.eq_nil_or_concat newer with rfl | ⟨newer', e, rfl⟩
  · exact absurd hp (hquiet t older c rsp rfl hw)
  · refine ⟨newer', ?_⟩
    rw [List.concat_eq_append, List.append_assoc] at h
    cases of_append _ h with
    | cons _ _ hprompt => rw [List.concat_eq_append, hprompt hpunctual t older c rsp rfl hw hp]

end LogOk

end EtSoc

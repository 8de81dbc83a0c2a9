import EtSoc.Verification.Tags.Log

/-! # Waits that failed

The record of the queues says which wait failed, and for which command. Whether commands of
the same chunk were still to be awaited then is a matter of the commands accepted. -/

namespace EtSoc

/-- The tag that is being waited for where the record ends. -/
def awaitedTag : List QueueEvent → Option Tag
  | .collecting tag :: _ => some tag
  | .popped _ :: log => awaitedTag log
  | _ => none

/-- The command whose wait ended last, if it failed: its response reports no success, or its
waiter gave up. -/
def failedWait : List QueueEvent → Option ℕ
  | .collected _ rsp :: _ =>
    if responseStatus rsp.bytes = some dmaResponseComplete then none else rsp.origin
  | .gaveUp tag :: log => if awaitedTag log = some tag then waiting log tag else none
  | _ => none

/-- The command whose response was collected last, if it reports another status than success. -/
def refused : List QueueEvent → Option ℕ
  | .collected _ rsp :: _ =>
    if (responseStatus rsp.bytes).any (· ≠ dmaResponseComplete) then rsp.origin else none
  | _ => none

/-- The command goes on with the chunk of the one before it. -/
def Accepted.continues (a : Accepted) : Bool :=
  a.cmd.nodes.head?.any (·.hostVirtAddr.offset ≠ 0)

/-- The wait for a command failed before that for the next one of its chunk. -/
def Torn (accepted : List Accepted) (log : List QueueEvent) : Prop :=
  ∃ older ∈ log.tails, ∃ c ∈ failedWait older, ∃ a ∈ accepted[c + 1]?, a.continues = true

instance (accepted : List Accepted) (log : List QueueEvent) : Decidable (Torn accepted log) :=
  inferInstanceAs (Decidable (∃ older ∈ log.tails, ∃ c ∈ failedWait older,
    ∃ a ∈ accepted[c + 1]?, a.continues = true))

/-- All the commands but the first go on with the chunk of the one before. -/
def OneChunk (own : List Accepted) : Prop := ∀ i a, 0 < i → own[i]? = some a → a.continues = true

/-- The commands pushed. -/
def pushes (log : List QueueEvent) : List ℕ :=
  log.filterMap fun
    | .pushed _ c => some c
    | _ => none

/-- The commands whose responses were popped. -/
def pops (log : List QueueEvent) : List ℕ :=
  log.filterMap fun
    | .popped rsp => rsp.origin
    | _ => none

/-- A command has just been refused, every command after it belongs to its chunk, and one of
these, from or to a buffer that is not for arguments, is still in flight. -/
def Exposes (accepted : List Accepted) (log : List QueueEvent) : Prop :=
  ∃ c ∈ refused log, (∀ d ∈ pushes log, c < d → ∃ a ∈ accepted[d]?, a.continues = true) ∧
    ∃ d ∈ pushes log, c < d ∧ d ∉ pops log ∧ ∃ a ∈ accepted[d]?,
      ∀ n ∈ a.cmd.nodes, n.hostVirtAddr.buf.purpose ≠ .arguments

instance (accepted : List Accepted) (log : List QueueEvent) : Decidable (Exposes accepted log) :=
  inferInstanceAs (Decidable (∃ c ∈ refused log,
    (∀ d ∈ pushes log, c < d → ∃ a ∈ accepted[d]?, a.continues = true) ∧
      ∃ d ∈ pushes log, c < d ∧ d ∉ pops log ∧ ∃ a ∈ accepted[d]?,
        ∀ n ∈ a.cmd.nodes, n.hostVirtAddr.buf.purpose ≠ .arguments))

/-- That has happened. -/
def Exposed (accepted : List Accepted) (log : List QueueEvent) : Prop :=
  ∃ older ∈ log.tails, Exposes accepted older

instance (accepted : List Accepted) (log : List QueueEvent) : Decidable (Exposed accepted log) :=
  inferInstanceAs (Decidable (∃ older ∈ log.tails, Exposes accepted older))

theorem mem_pushes {log : List QueueEvent} {c : ℕ} :
    c ∈ pushes log ↔ ∃ t, .pushed t c ∈ log := by
  rw [pushes, List.mem_filterMap]
  constructor
  · rintro ⟨e, he, heq⟩
    cases e with
    | pushed t d =>
      obtain rfl : d = c := Option.some.inj heq
      exact ⟨t, he⟩
    | _ => simp at heq
  · rintro ⟨t, ht⟩
    exact ⟨_, ht, rfl⟩

theorem mem_pops {log : List QueueEvent} {c : ℕ} : c ∈ pops log ↔ ∃ rsp, Popped log c rsp := by
  rw [pops, List.mem_filterMap]
  constructor
  · rintro ⟨e, he, heq⟩
    cases e with
    | popped rsp => exact ⟨rsp, he, heq⟩
    | _ => simp at heq
  · rintro ⟨rsp, hrsp, horigin⟩
    exact ⟨_, hrsp, horigin⟩

section
variable {log : List QueueEvent} {tag : Tag} {rsp : PoppedResponse}

theorem failedWait_of_collected (h : log.head? = some (.collected tag rsp))
    (hstatus : responseStatus rsp.bytes ≠ some dmaResponseComplete) :
    failedWait log = rsp.origin := by
  obtain ⟨older, rfl⟩ := List.head?_eq_some_iff.1 h
  rw [failedWait, if_neg hstatus]

theorem refused_of_collected (h : log.head? = some (.collected tag rsp)) {status : UInt32}
    (hstatus : responseStatus rsp.bytes = some status) (hne : status ≠ dmaResponseComplete) :
    refused log = rsp.origin := by
  obtain ⟨older, rfl⟩ := List.head?_eq_some_iff.1 h
  rw [refused, if_pos (by simp [hstatus, hne])]

end

section
variable {accepted accepted' : List Accepted} {log log' : List QueueEvent}

theorem getElem?_of_isPrefix (h : accepted <+: accepted') {c : ℕ} {a : Accepted}
    (ha : accepted[c]? = some a) : accepted'[c]? = some a := by
  obtain ⟨more, rfl⟩ := h
  rwa [List.getElem?_append_left (List.getElem?_eq_some_iff.1 ha).1]

theorem Torn.of_failed {c : ℕ} {a : Accepted} (hc : failedWait log = some c)
    (ha : accepted[c + 1]? = some a) (hcontinues : a.continues = true) : Torn accepted log :=
  ⟨log, (List.mem_tails _ _).2 List.suffix_rfl, c, hc, a, ha, hcontinues⟩

/-- What was torn stays so. -/
theorem Torn.mono (h : Torn accepted log) (haccepted : accepted <+: accepted')
    (hlog : log <:+ log') : Torn accepted' log' := by
  obtain ⟨older, holder, c, hc, a, ha, hcontinues⟩ := h
  exact ⟨older, (List.mem_tails _ _).2 (((List.mem_tails _ _).1 holder).trans hlog), c, hc, a,
    getElem?_of_isPrefix haccepted ha, hcontinues⟩

theorem Torn.cons (h : Torn accepted log) (e : QueueEvent) : Torn accepted (e :: log) :=
  h.mono List.prefix_rfl (List.suffix_cons ..)

theorem Exposes.mono (h : Exposes accepted log) (haccepted : accepted <+: accepted') :
    Exposes accepted' log := by
  obtain ⟨c, hc, hafter, d, hd, hcd, hpop, a, ha, hbuf⟩ := h
  refine ⟨c, hc, fun d hd hcd => ?_, d, hd, hcd, hpop, a, getElem?_of_isPrefix haccepted ha, hbuf⟩
  obtain ⟨a, ha, hcontinues⟩ := hafter d hd hcd
  exact ⟨a, getElem?_of_isPrefix haccepted ha, hcontinues⟩

theorem Exposes.exposed (h : Exposes accepted log) : Exposed accepted log :=
  ⟨log, (List.mem_tails _ _).2 List.suffix_rfl, h⟩

theorem Exposed.mono (h : Exposed accepted log) (haccepted : accepted <+: accepted')
    (hlog : log <:+ log') : Exposed accepted' log' := by
  obtain ⟨older, holder, h⟩ := h
  exact ⟨older, (List.mem_tails _ _).2 (((List.mem_tails _ _).1 holder).trans hlog),
    h.mono haccepted⟩

end

end EtSoc

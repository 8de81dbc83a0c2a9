import EtSoc.Verification.Tags.Ready

/-! # The discipline of host buffers

The abstract view of the host: it fills buffers, has commands accepted and waits. It is
disciplined about the buffers of some purposes: it writes one only when no unanswered
command uses it, and never has commands of both directions use one at a time. -/

namespace EtSoc

open Function Spans

namespace World

/-- The unanswered command `c` transfers from or to buffer `b`. -/
def Uses (w : World) (b : BufId) (c : ℕ) (a : Accepted) : Prop :=
  w.accepted[c]? = some a ∧ w.answer c = none ∧ ∃ n ∈ a.cmd.nodes, n.hostVirtAddr.buf = b

/-- No unanswered command uses `b`. -/
def Quiescent (w : World) (b : BufId) : Prop := ∀ c a, ¬w.Uses b c a

/-- The unanswered commands that use `b` are all of one direction. -/
def Only (w : World) (write : Bool) (b : BufId) : Prop :=
  ∀ c a, w.Uses b c a → a.cmd.isWrite = write

theorem Quiescent.only {w : World} {b : BufId} (h : w.Quiescent b) (write : Bool) :
    w.Only write b :=
  fun c a huse => absurd huse (h c a)

/-- The commands that used `b` among the first ones are all answered. -/
def Vacant (w : World) (commands : List Accepted) (b : BufId) : Prop :=
  ∀ c a, commands[c]? = some a → (∃ n ∈ a.cmd.nodes, n.hostVirtAddr.buf = b) →
    (w.answer c).isSome = true

theorem vacant_accepted {w : World} {b : BufId} :
    w.Vacant w.accepted b ↔ w.Quiescent b := by
  refine ⟨fun h c a ⟨ha, hc, hn⟩ => ?_, fun h c a ha hn => ?_⟩
  · simpa [hc] using h c a ha hn
  · by_contra hc
    exact h c a ⟨ha, by simpa using hc, hn⟩

theorem Moves.answer_none {w w' : World} (h : w.Moves w') {c : ℕ} (hc : w'.answer c = none) :
    w.answer c = none := by
  by_contra hne
  obtain ⟨rsp, hrsp⟩ := Option.ne_none_iff_exists'.1 hne
  simp [h.answer hrsp] at hc

theorem uses_of_step {w : World} {d : DevStep} {b : BufId} {c : ℕ} {a : Accepted}
    (h : (w.step d).Uses b c a) : w.Uses b c a := by
  obtain ⟨ha, hc, hn⟩ := h
  exact ⟨by simpa using ha, (w.act_moves d).answer_none hc, hn⟩

theorem uses_of_accept {w : World} {sq : UInt16} {flags : UInt8} {cmd : Command} {b : BufId}
    {c : ℕ} {a : Accepted} (h : (w.accept sq flags cmd).Uses b c a) :
    w.Uses b c a ∨ (a.cmd = cmd ∧ ∃ n ∈ cmd.nodes, n.hostVirtAddr.buf = b) := by
  obtain ⟨ha, hc, hn⟩ := h
  obtain ha | ⟨-, rfl⟩ := Sound.getElem?_accept ha
  · exact .inl ⟨ha, hc, hn⟩
  · exact .inr ⟨rfl, hn⟩

theorem Only.accept {w : World} {write : Bool} {b : BufId} (h : w.Only write b) {sq : UInt16}
    {flags : UInt8} {cmd : Command} (hcmd : cmd.isWrite = write) :
    (w.accept sq flags cmd).Only write b := by
  intro c a huse
  obtain huse | ⟨rfl, -⟩ := uses_of_accept huse
  · exact h c a huse
  · exact hcmd

theorem patient_quiescent (b : BufId) : Patient fun w => w.Quiescent b :=
  ⟨fun _ _ _ h c a huse => h c a (uses_of_step huse), fun _ _ _ _ _ h => h⟩

/-- A buffer that is only sent from keeps its contents. -/
theorem Moves.host {w w' : World} (h : w.Moves w') (hs : w.Sound) {b : BufId}
    (hb : w.Only true b) : w'.host b = w.host b := by
  cases h with
  | @copy c a node ha hnode hrun =>
    cases hw : a.cmd.isWrite with
    | true => rw [copy_host_of_write]
    | false =>
      rw [copy_host_of_read]
      refine update_of_ne (fun heq => ?_) ..
      have := hb c a ⟨ha, (running_iff.1 hrun).2, node, hs.left_subset c a ha node hnode, heq.symm⟩
      simp [hw] at this
  | _ => rfl

theorem patient_only (write : Bool) (b : BufId) : Patient fun w => w.Only write b :=
  ⟨fun _ _ _ h c a huse => h c a (uses_of_step huse), fun _ _ _ _ _ h => h⟩

theorem patient_sending (b : BufId) (contents : Memory) :
    Patient fun w => w.Only true b ∧ w.host b = contents := by
  refine ⟨fun w d hs h => ⟨fun c a huse => h.1 c a (uses_of_step huse), ?_⟩,
    fun _ _ _ _ _ h => h⟩
  exact ((w.act_moves d).host hs h.1).trans h.2

end World

/-! ## Strides -/

/-- The commands that may be accepted, and the purposes of the buffers under discipline. -/
structure Env where
  accepts : Accepted → Prop
  strict : Purpose → Prop

/-- A command may be accepted as far as the commands on its buffers are concerned. -/
def World.Clear (w : World) (strict : Purpose → Prop) (cmd : Command) : Prop :=
  ∀ n ∈ cmd.nodes, strict n.hostVirtAddr.buf.purpose → ∀ c a, w.Uses n.hostVirtAddr.buf c a →
    a.cmd.isWrite = cmd.isWrite

/-- One thing that happens in a run. -/
inductive Stride (E : Env) (w : World) : World → Prop where
  | step (d : World.DevStep) : Stride E w (w.step d)
  | pop {c rsp} (h : w.answer c = some rsp) : Stride E w (w.pop c)
  | map (purpose contents) : Stride E w (w.map purpose contents)
  | fill (b contents) (h : E.strict b.purpose → w.Quiescent b) : Stride E w (w.fill b contents)
  | accept (sq flags cmd) (h : E.accepts ⟨sq, flags, cmd, w.host⟩)
      (hclear : w.Clear E.strict cmd)
      (hmapped : ∀ n ∈ cmd.nodes, n.hostVirtAddr.buf.serial < w.nextBuf) :
      Stride E w (w.accept sq flags cmd)

/-- A property of the world that holds throughout a run. -/
def Stable (E : Env) (B : World → Prop) : Prop :=
  ∀ w w', w.Sound → Stride E w w' → B w → B w'

theorem Stride.sound {E : Env} {w w' : World} (h : Stride E w w') (hs : w.Sound) : w'.Sound := by
  cases h with
  | step d => exact hs.step d
  | pop h => exact hs.pop h
  | map purpose contents => exact hs.map purpose contents
  | fill b contents => exact hs.fill b contents
  | accept sq flags cmd => exact hs.accept sq flags cmd

namespace Stable
variable {E : Env} {B B' : World → Prop}

theorem patient (h : Stable E B) : Patient B :=
  ⟨fun w d hs hB => h w _ hs (.step d) hB, fun w _ _ hs hr hB => h w _ hs (.pop hr) hB⟩

theorem and (h : Stable E B) (h' : Stable E B') : Stable E fun w => B w ∧ B' w :=
  fun w w' hs hst hB => ⟨h w w' hs hst hB.1, h' w w' hs hst hB.2⟩

theorem mono {E' : Env} (h : Stable E B) (ha : ∀ a, E'.accepts a → E.accepts a)
    (hstrict : ∀ p, E.strict p → E'.strict p) : Stable E' B := by
  intro w w' hs hst hB
  refine h w w' hs ?_ hB
  cases hst with
  | step d => exact .step d
  | pop h => exact .pop h
  | map purpose contents => exact .map purpose contents
  | fill b contents h => exact .fill b contents fun hb => h (hstrict _ hb)
  | accept sq flags cmd h hclear hmapped =>
    exact .accept sq flags cmd (ha _ h) (fun n hn hb => hclear n hn (hstrict _ hb)) hmapped

end Stable

/-- From `w` the run has come to `w'`. -/
inductive Evolves (E : Env) (w : World) : World → Prop where
  | refl : Evolves E w w
  | tail {w' w''} (h : Evolves E w w') (hst : Stride E w' w'') : Evolves E w w''

theorem Evolves.stable (E : Env) (w : World) : Stable E (Evolves E w) :=
  fun _ _ _ hst h => h.tail hst

theorem Evolves.sound {E : Env} {w w' : World} (h : Evolves E w w') (hs : w.Sound) : w'.Sound := by
  induction h with
  | refl => exact hs
  | tail _ hst ih => exact hst.sound ih

/-- A run keeps what every stride keeps. -/
theorem Evolves.induct {E : Env} {B : World → Prop} (hB : Stable E B) {w w' : World}
    (h : Evolves E w w') (hs : w.Sound) (hw : B w) : B w' := by
  induction h with
  | refl => exact hw
  | tail h hst ih => exact hB _ _ (h.sound hs) hst ih

/-! ## What only ever grows -/

/-- `w'` is later than `w`. -/
structure Grows (w w' : World) : Prop where
  machine : w'.machine = w.machine
  accepted : w.accepted <+: w'.accepted
  answer : ∀ c rsp, w.answer c = some rsp → w'.answer c = some rsp
  popped : ∀ c, w.popped c = true → w'.popped c = true
  nextBuf : w.nextBuf ≤ w'.nextBuf

theorem Grows.refl (w : World) : Grows w w :=
  ⟨rfl, List.prefix_rfl, fun _ _ h => h, fun _ h => h, Nat.le_refl _⟩

theorem Grows.trans {w w' w'' : World} (h : Grows w w') (h' : Grows w' w'') : Grows w w'' :=
  ⟨h'.machine.trans h.machine, h.accepted.trans h'.accepted,
    fun c rsp hc => h'.answer c rsp (h.answer c rsp hc), fun c hc => h'.popped c (h.popped c hc),
    h.nextBuf.trans h'.nextBuf⟩

theorem Stride.grows {E : Env} {w w' : World} (h : Stride E w w') : Grows w w' := by
  cases h with
  | step d =>
    exact ⟨by simp, by simp, fun _ _ hc => (w.act_moves d).answer hc, by simp, by simp⟩
  | @pop c rsp h =>
    refine ⟨rfl, List.prefix_rfl, fun _ _ hc => hc, fun c' hc' => ?_, Nat.le_refl _⟩
    by_cases hcc : c' = c
    · simp [World.pop, hcc]
    · simpa [World.pop, update_of_ne hcc] using hc'
  | map purpose contents =>
    exact ⟨rfl, List.prefix_rfl, fun _ _ hc => hc, fun _ hc => hc, Nat.le_succ _⟩
  | fill b contents =>
    exact ⟨rfl, List.prefix_rfl, fun _ _ hc => hc, fun _ hc => hc, Nat.le_refl _⟩
  | accept sq flags cmd =>
    exact ⟨rfl, List.prefix_append .., fun _ _ hc => hc, fun _ hc => hc, Nat.le_refl _⟩

theorem stable_grows (E : Env) (w : World) : Stable E (Grows w) :=
  fun _ _ _ hst h => h.trans hst.grows

theorem Evolves.grows {E : Env} {w w' : World} (h : Evolves E w w') : Grows w w' := by
  induction h with
  | refl => exact .refl w
  | tail _ hst ih => exact ih.trans hst.grows

/-- Command `c` was answered with success, and the response popped. -/
def World.Completed (w : World) (c : ℕ) : Prop :=
  w.popped c = true ∧ ∃ rsp, w.answer c = some rsp ∧ World.success rsp

theorem Grows.completed {w w' : World} (h : Grows w w') {c : ℕ} (hc : w.Completed c) :
    w'.Completed c := by
  obtain ⟨hp, rsp, hr, hsucc⟩ := hc
  exact ⟨h.popped c hp, rsp, h.answer c rsp hr, hsucc⟩

/-- Only mapped buffers are transferred. -/
def World.Mapped (w : World) : Prop :=
  ∀ a ∈ w.accepted, ∀ n ∈ a.cmd.nodes, n.hostVirtAddr.buf.serial < w.nextBuf

theorem stable_mapped (E : Env) : Stable E World.Mapped := by
  intro w w' _ hst h
  cases hst with
  | step d =>
    intro a ha n hn
    simpa using h a (by simpa using ha) n hn
  | pop => exact h
  | map purpose contents => exact fun a ha n hn => (h a ha n hn).trans (Nat.lt_succ_self _)
  | fill => exact h
  | accept sq flags cmd _ _ hmapped =>
    intro a ha n hn
    rcases List.mem_append.1 ha with ha | ha
    · exact h a ha n hn
    · obtain rfl := List.mem_singleton.1 ha
      exact hmapped n hn

theorem stable_vacant (E : Env) (commands : List Accepted) (b : BufId) :
    Stable E fun w => w.Vacant commands b := by
  intro w w' _ hst h c a ha hn
  obtain ⟨rsp, hrsp⟩ := Option.isSome_iff_exists.1 (h c a ha hn)
  simp [hst.grows.answer c rsp hrsp]

theorem patient_grows (w : World) : Patient (Grows w) :=
  (stable_grows ⟨fun _ => False, fun _ => True⟩ w).patient

theorem patient_completed (c : ℕ) : Patient fun w => w.Completed c :=
  ⟨fun w d hs h => ((patient_grows w).step w d hs (.refl w)).completed h,
    fun w d rsp hs hr h => ((patient_grows w).pop w d rsp hs hr (.refl w)).completed h⟩

end EtSoc
